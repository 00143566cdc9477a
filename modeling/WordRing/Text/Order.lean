/-!
# The order of texts

Texts are compared character by character, by code point, and a proper beginning comes first.
The order is total and antisymmetric, so sorting by it has one result.
-/
namespace WordRing.Text

/-- `a` stands before `b` or is equal to it. -/
def le : List Char → List Char → Bool
  | [], _ => true
  | _ :: _, [] => false
  | a :: as, b :: bs => a.toNat < b.toNat || (a.toNat == b.toNat && le as bs)

@[simp] theorem le_refl (a : List Char) : le a a = true := by
  induction a with
  | nil => rfl
  | cons c a ih => simp [le, ih]

theorem le_total (a b : List Char) : le a b = true ∨ le b a = true := by
  induction a generalizing b with
  | nil => exact .inl rfl
  | cons c a ih =>
    cases b with
    | nil => exact .inr rfl
    | cons d b =>
      rcases Nat.lt_trichotomy c.toNat d.toNat with h | h | h
      · simp [le, h]
      · simpa [le, h] using ih b
      · simp [le, h]

theorem le_trans {a b c : List Char} (hab : le a b = true) (hbc : le b c = true) :
    le a c = true := by
  induction a generalizing b c with
  | nil => rfl
  | cons x a ih =>
    cases b with
    | nil => simp [le] at hab
    | cons y b =>
      cases c with
      | nil => simp [le] at hbc
      | cons z c =>
        simp only [le, Bool.or_eq_true, decide_eq_true_eq, Bool.and_eq_true, beq_iff_eq] at *
        rcases hab with h | ⟨h, hab⟩ <;> rcases hbc with h' | ⟨h', hbc⟩
        · exact .inl (by omega)
        · exact .inl (by omega)
        · exact .inl (by omega)
        · exact .inr ⟨by omega, ih hab hbc⟩

theorem le_antisymm {a b : List Char} (hab : le a b = true) (hba : le b a = true) : a = b := by
  induction a generalizing b with
  | nil =>
    cases b with
    | nil => rfl
    | cons y b => simp [le] at hba
  | cons x a ih =>
    cases b with
    | nil => simp [le] at hab
    | cons y b =>
      simp only [le, Bool.or_eq_true, decide_eq_true_eq, Bool.and_eq_true, beq_iff_eq] at *
      rcases hab with h | ⟨h, hab⟩ <;> rcases hba with h' | ⟨_, hba⟩
      · omega
      · omega
      · omega
      · have : x = y := Char.ext (UInt32.toNat_inj.1 h)
        rw [this, ih hab hba]

end WordRing.Text
