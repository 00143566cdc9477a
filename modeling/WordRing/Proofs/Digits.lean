import Mathlib.Algebra.Order.Group.Nat
import Mathlib.Tactic.Common
import WordRing.Text.Digits

/-!
# Numerals determine their numbers

A numeral of a chosen length determines its number up to the power of the base that the length
names, and a padded numeral is always long enough, so it determines the number outright. It is no
longer than it has to be, and reading it back gives the number.
-/
namespace WordRing.Digits

/-! ## Single digits -/

theorem digitChar_inj {m n : Nat} (hm : m < 16) (hn : n < 16)
    (h : digitChar m = digitChar n) : m = n := by
  have all : ∀ m < 16, ∀ n < 16, digitChar m = digitChar n → m = n := by decide
  exact all m hm n hn h

theorem mem_fixed {base count n : Nat} {c : Char} (hpos : 0 < base)
    (h : c ∈ fixed base count n) : ∃ d < base, c = digitChar d := by
  induction count generalizing n with
  | zero => simp at h
  | succ count ih =>
    rw [fixed_succ, List.mem_append, List.mem_singleton] at h
    rcases h with h | h
    · exact ih h
    · exact ⟨n % base, Nat.mod_lt n hpos, h⟩

/-! ## Numerals of a chosen length -/

theorem mod_eq_of_fixed_eq {base count m n : Nat} (hpos : 0 < base) (hle : base ≤ 16)
    (h : fixed base count m = fixed base count n) :
    m % base ^ count = n % base ^ count := by
  induction count generalizing m n with
  | zero => simp [Nat.mod_one]
  | succ count ih =>
    rw [fixed_succ, fixed_succ] at h
    obtain ⟨hinit, hlast⟩ := List.append_inj' h rfl
    have hm : m % base < base := Nat.mod_lt m hpos
    have hn : n % base < base := Nat.mod_lt n hpos
    have hdigit : m % base = n % base :=
      digitChar_inj (by omega) (by omega) (List.singleton_inj.1 hlast)
    rw [Nat.pow_succ', Nat.mod_mul, Nat.mod_mul, hdigit, ih hinit]

/-! ## Padded numerals -/

private theorem lt_pow_countWithin {base : Nat} (hbase : 2 ≤ base) (fuel n : Nat)
    (hfuel : n ≤ fuel) : n < base ^ countWithin base fuel n := by
  induction fuel generalizing n with
  | zero =>
    have hn : n = 0 := by omega
    simp only [countWithin, Nat.pow_one]
    omega
  | succ fuel ih =>
    rw [countWithin]
    split
    · next hlt => simpa using hlt
    · next hge =>
      have hsmaller : n / base < n := Nat.div_lt_self (by omega) (by omega)
      have hquotient : n / base < base ^ countWithin base fuel (n / base) :=
        ih (n / base) (by omega)
      rw [Nat.pow_succ]
      exact (Nat.div_lt_iff_lt_mul (by omega)).1 hquotient

theorem lt_pow_count {base : Nat} (hbase : 2 ≤ base) (n : Nat) : n < base ^ count base n :=
  lt_pow_countWithin hbase n n (Nat.le_refl n)

private theorem countWithin_le {base : Nat} {n k : Nat} (fuel : Nat) (hk : 0 < k)
    (h : n < base ^ k) : countWithin base fuel n ≤ k := by
  induction fuel generalizing n k with
  | zero => exact hk
  | succ fuel ih =>
    rw [countWithin]
    split
    · exact hk
    · next hge =>
      obtain ⟨j, rfl⟩ := Nat.exists_eq_add_of_le' hk
      rcases Nat.eq_zero_or_pos j with rfl | hj
      · exact absurd (by simpa using h) hge
      · have hquotient : n / base < base ^ j := Nat.div_lt_of_lt_mul (by rwa [Nat.pow_succ'] at h)
        exact Nat.succ_le_succ (ih hj hquotient)

/-- A number below the power of the base that the length names has no more digits than that. -/
theorem count_le {base n k : Nat} (hk : 0 < k) (h : n < base ^ k) : count base n ≤ k :=
  countWithin_le n hk h

theorem count_pos (base n : Nat) : 0 < count base n := by
  cases n with
  | zero => exact Nat.one_pos
  | succ n =>
    rw [count, countWithin]
    split
    · exact Nat.one_pos
    · exact Nat.succ_pos _

private theorem pow_countWithin_le {base n : Nat} (hpos : 0 < base) (fuel : Nat) (hn : n ≠ 0) :
    base ^ (countWithin base fuel n - 1) ≤ n := by
  induction fuel generalizing n with
  | zero => exact Nat.pos_of_ne_zero hn
  | succ fuel ih =>
    rw [countWithin]
    split
    · exact Nat.pos_of_ne_zero hn
    · next hge =>
      have hquotient : n / base ≠ 0 := (Nat.div_pos (Nat.not_lt.1 hge) hpos).ne'
      calc
        base ^ countWithin base fuel (n / base)
          ≤ base ^ (countWithin base fuel (n / base) - 1 + 1) :=
            Nat.pow_le_pow_right hpos (by omega)
        _ = base ^ (countWithin base fuel (n / base) - 1) * base := Nat.pow_succ ..
        _ ≤ n / base * base := Nat.mul_le_mul_right _ (ih hquotient)
        _ ≤ n := Nat.div_mul_le_self ..

/-- A number above zero needs all of its digits. -/
theorem pow_count_le {base n : Nat} (hpos : 0 < base) (hn : n ≠ 0) :
    base ^ (count base n - 1) ≤ n :=
  pow_countWithin_le hpos n hn

@[simp] theorem length_padded (base least n : Nat) :
    (padded base least n).length = max least (count base n) := by simp [padded]

/-- A padded numeral has all digits that its number needs. -/
theorem lt_pow_length_padded {base : Nat} (hbase : 2 ≤ base) (least n : Nat) :
    n < base ^ (padded base least n).length := by
  rw [length_padded]
  calc
    n < base ^ count base n := lt_pow_count hbase n
    _ ≤ base ^ max least (count base n) :=
      Nat.pow_le_pow_right (by omega) (Nat.le_max_right _ _)

/-- Padding to enough digits writes exactly so many. -/
theorem padded_eq_fixed {base least n : Nat} (hleast : 0 < least) (h : n < base ^ least) :
    padded base least n = fixed base least n := by
  rw [padded, Nat.max_eq_left (count_le hleast h)]

/-- A padded numeral shows its number and its length, whatever it was padded to. -/
theorem padded_eq_padded_iff {base least least' m n : Nat} (hbase : 2 ≤ base) (hle : base ≤ 16) :
    padded base least m = padded base least' n ↔
      m = n ∧ max least (count base m) = max least' (count base n) := by
  constructor
  · intro h
    have hlength : max least (count base m) = max least' (count base n) := by
      simpa using congrArg List.length h
    have hm := lt_pow_length_padded hbase least m
    have hn := lt_pow_length_padded hbase least' n
    rw [← h] at hn
    have hmod : m % base ^ (padded base least m).length =
        n % base ^ (padded base least m).length := by
      refine mod_eq_of_fixed_eq (by omega) hle ?_
      rw [length_padded]
      conv_rhs => rw [hlength]
      exact h
    rw [Nat.mod_eq_of_lt hm, Nat.mod_eq_of_lt hn] at hmod
    exact ⟨hmod, hlength⟩
  · rintro ⟨rfl, hlength⟩
    rw [padded, padded, hlength]

theorem padded_inj {base least m n : Nat} (hbase : 2 ≤ base) (hle : base ≤ 16) :
    padded base least m = padded base least n ↔ m = n := by
  rw [padded_eq_padded_iff hbase hle]
  refine ⟨And.left, ?_⟩
  rintro rfl
  exact ⟨rfl, rfl⟩

/-! ## Decimal numerals -/

theorem decimal_inj {m n : Nat} : decimal m = decimal n ↔ m = n :=
  padded_inj (by decide) (by decide)

theorem mem_signedDecimal {n : Int} {c : Char} (h : c ∈ signedDecimal n) :
    c = '-' ∨ ∃ d < 10, c = digitChar d := by
  cases n with
  | ofNat n => exact .inr (mem_fixed (by decide) h)
  | negSucc n => exact (List.mem_cons.1 h).imp_right (mem_fixed (by decide))

theorem signedDecimal_ne_nil (n : Int) : signedDecimal n ≠ [] := by
  cases n with
  | ofNat n =>
    have hlength : (signedDecimal (.ofNat n)).length = max 1 (count 10 n) := length_padded 10 1 n
    intro h
    rw [h, List.length_nil] at hlength
    omega
  | negSucc n => exact List.cons_ne_nil _ _

theorem signedDecimal_inj {m n : Int} : signedDecimal m = signedDecimal n ↔ m = n := by
  have hminus (a b : Nat) : decimal a ≠ '-' :: decimal b := by
    intro h
    obtain ⟨d, hd, hchar⟩ := mem_fixed (by decide) (h ▸ List.mem_cons_self : '-' ∈ decimal a)
    have hdigit : ∀ d < 10, '-' ≠ digitChar d := by decide
    exact hdigit d hd hchar
  cases m with
  | ofNat m =>
    cases n with
    | ofNat n => rw [signedDecimal, signedDecimal, decimal_inj, Int.ofNat.injEq]
    | negSucc n => simp [signedDecimal, hminus]
  | negSucc m =>
    cases n with
    | ofNat n => simp [signedDecimal, (hminus _ _).symm]
    | negSucc n => simp [signedDecimal, decimal_inj]

/-! ## Reading back -/

/-- Reading digits back gives the number modulo the power of the base that their count names, also
when the digits are written in another alphabet with the same values. -/
theorem ofDigits_map_fixed {base : Nat} {f : Char → Char} (hpos : 0 < base) (hle : base ≤ 16)
    (hf : ∀ d < 16, digitValue? (f (digitChar d)) = some d) (count n : Nat) :
    ofDigits base ((fixed base count n).map f) = some (n % base ^ count) := by
  induction count generalizing n with
  | zero => simp [ofDigits, Nat.mod_one]
  | succ count ih =>
    have hlt : n % base < base := Nat.mod_lt n hpos
    have hdigit := hf (n % base) (by omega)
    have hvalue : n / base % base ^ count * base + n % base = n % base ^ (count + 1) := by
      rw [Nat.pow_succ', Nat.mod_mul, Nat.mul_comm, Nat.add_comm]
    simp only [ofDigits] at ih
    rw [fixed_succ, List.map_append, ofDigits, List.foldl_append, ih, ← hvalue]
    simp [hdigit, hlt]

theorem ofDigits_fixed {base : Nat} (hpos : 0 < base) (hle : base ≤ 16) (count n : Nat) :
    ofDigits base (fixed base count n) = some (n % base ^ count) := by
  have h := ofDigits_map_fixed (f := id) hpos hle (by decide) count n
  rwa [List.map_id] at h

end WordRing.Digits
