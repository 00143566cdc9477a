import Mathlib.Data.List.Forall2
import WordRing.Proofs.Derivation

/-!
# Operand order and representatives of constants

A term may be rearranged at any depth: operand lists permuted, constants replaced by others of the
same residue. One pass already makes the rearrangements of a term equal, because sorting has one
result and folding reduces, so whatever is computed from canonical forms cannot tell them apart.

## Main definitions

* `Rearranged q t t'` — `t'` arises from `t` by rearranging.
-/
namespace WordRing.Term
variable {q : Quantum} {op : NaryOp} {t t' : Term} {ts us : List Term}

/-- The operands of nodes permuted and constants replaced by congruent ones, at any depth. -/
inductive Rearranged (q : Quantum) : Term → Term → Prop where
  | const {m n : Int} (h : m % q.cycle = n % q.cycle) : Rearranged q (const m) (const n)
  | var (x : VarName) : Rearranged q (var x) (var x)
  | unary (op : UnaryOp) {t t' : Term} (h : Rearranged q t t') :
    Rearranged q (unary op t) (unary op t')
  | nary (op : NaryOp) {ts us ts' : List Term} (h : List.Forall₂ (Rearranged q) ts us)
    (hperm : us.Perm ts') : Rearranged q (nary op ts) (nary op ts')

/-! ## Permuted operands of one node -/

/-- Sorting does not see the order in which operands come. -/
theorem mergeSort_before_perm {width : Nat} (h : ts.Perm us) :
    ts.mergeSort (before width) = us.mergeSort (before width) :=
  mergeSort_before_eq (h.trans (List.mergeSort_perm us (before width)).symm)
    (pairwise_mergeSort_before us)

theorem arrange_perm (h : ts.Perm us) : arrange q (nary op ts) = arrange q (nary op us) := by
  have hflat : (ts.flatMap (spliced op)).Perm (us.flatMap (spliced op)) := h.flatMap_right _
  simp only [arrange, flatten, sortOperands, mergeSort_before_perm hflat]

theorem number_nary_perm (h : ts.Perm us) : (nary op ts).number q = (nary op us).number q := by
  rw [number, value_nary, total_perm h, number, value_nary]

/-- The rules do not see the order of operands. -/
theorem applyAll_nary_perm (h : ts.Perm us) :
    Rule.applyAll q (nary op ts) = Rule.applyAll q (nary op us) := by
  by_cases hopen : ∃ t ∈ ts, t.isConst = false
  · have hopen' : ∃ u ∈ us, u.isConst = false := by
      obtain ⟨t, ht, hconst⟩ := hopen
      exact ⟨t, h.mem_iff.1 ht, hconst⟩
    rw [applyAll_nary, applyAll_nary, foldConstants_nary_of_exists hopen,
      foldConstants_nary_of_exists hopen', arrange_perm h]
  · push Not at hopen
    cases ts with
    | nil => rw [List.nil_perm.1 h]
    | cons t ts =>
      have hconst : ∀ u ∈ t :: ts, u.isConst = true := fun u hu => Bool.not_eq_false _ ▸ hopen u hu
      have hne : us ≠ [] := fun hnil => List.cons_ne_nil t ts (List.perm_nil.1 (hnil ▸ h))
      have hconst' : ∀ u ∈ us, u.isConst = true := fun u hu => hconst u (h.mem_iff.2 hu)
      rw [applyAll_nary_of_isConst op (List.cons_ne_nil t ts) hconst,
        applyAll_nary_of_isConst op hne hconst', number_nary_perm h]

/-! ## Rearranged terms -/

theorem map_eq_of_forall₂ {R : Term → Term → Prop} {f : Term → Term}
    (h : List.Forall₂ R ts us) (hf : ∀ t ∈ ts, ∀ u, R t u → f t = f u) : ts.map f = us.map f := by
  induction h with
  | nil => rfl
  | cons hhead _ ih =>
    rw [List.map_cons, List.map_cons, hf _ List.mem_cons_self _ hhead,
      ih fun t ht => hf t (List.mem_cons_of_mem _ ht)]

namespace Rearranged

/-- One pass makes the rearrangements of a term equal. -/
theorem pass_eq (h : Rearranged q t t') : t.pass q = t'.pass q := by
  induction t using induct generalizing t' with
  | const m =>
    cases h with
    | const h =>
      have hreduced (n : Int) : (Term.const n).pass q = Term.const (n % q.cycle) := rfl
      rw [hreduced, hreduced, h]
  | var x =>
    cases h with
    | var => rfl
  | unary op t ih =>
    cases h with
    | unary _ h => rw [pass_unary, pass_unary, ih h]
  | nary op ts ih =>
    cases h with
    | nary _ hoperands hperm =>
      rw [pass_nary, pass_nary, map_eq_of_forall₂ hoperands fun t ht _ h => ih t ht h]
      exact applyAll_nary_perm (hperm.map (pass q))

/-- Runs that admit a pass agree on rearrangements, though not always after the same number of
passes. -/
theorem fst_settleWithin_eq (h : Rearranged q t t') {limit : Int} (hlimit : 1 ≤ limit) :
    (t.settleWithin q limit).1 = (t'.settleWithin q limit).1 := by
  obtain ⟨n, rfl⟩ := Int.eq_ofNat_of_zero_le (Int.le_trans Int.one_nonneg hlimit)
  obtain ⟨m, rfl⟩ := Nat.exists_eq_add_of_le' (Int.ofNat_le.1 hlimit)
  rw [fst_settleWithin, fst_settleWithin, Int.toNat_natCast, Function.iterate_succ_apply,
    Function.iterate_succ_apply, h.pass_eq]

/-- **Operand order and representatives of constants do not matter.** Rearrangements of a term have
the same canonical form, under every limit that admits a pass, and in every ring, sound or not, the
same derivation or the same error. -/
theorem canonical_eq_and_derive (h : Rearranged q t t') :
    (∀ limit : Int, 1 ≤ limit →
      (t.settleWithin q limit).1 = (t'.settleWithin q limit).1) ∧
    t.canonical q = t'.canonical q ∧
    ∀ (r : ByteRing) (now now' : String), r.quantum = q →
      (∃ d d', r.derive t now = .ok d ∧ r.derive t' now' = .ok d' ∧
        d.canonicalTerm = d'.canonicalTerm ∧ d.resultValue = d'.resultValue ∧
        d.resultIri = d'.resultIri ∧ d.id = d'.id) ∨
      ∃ e, r.derive t now = .error e ∧ r.derive t' now' = .error e := by
  have hcanonical : t.canonical q = t'.canonical q :=
    h.fst_settleWithin_eq (show (1 : Int) ≤ passLimit by decide)
  refine ⟨fun limit hlimit => h.fst_settleWithin_eq hlimit, hcanonical, ?_⟩
  rintro r now now' rfl
  cases hword : r.evaluate (t.canonical r.quantum) with
  | error e =>
    have hword' : r.evaluate (t'.canonical r.quantum) = .error e := hcanonical ▸ hword
    exact .inr ⟨e, ByteRing.derive_of_error hword now, ByteRing.derive_of_error hword' now'⟩
  | ok b =>
    have hword' : r.evaluate (t'.canonical r.quantum) = .ok b := hcanonical ▸ hword
    obtain ⟨d, hd, hrecords⟩ := ByteRing.exists_derive_of_ok hword now
    obtain ⟨d', hd', hrecords'⟩ := ByteRing.exists_derive_of_ok hword' now'
    rw [← hcanonical] at hrecords'
    exact .inl ⟨d, d', hd, hd', hrecords.agree hrecords'⟩

end Rearranged

/-- A conjunction with a variable, its operands turned round and two constants raised by 256, under
a single pass and in a ring with a fault. -/
theorem canonical_eq_and_derive_and :
    let x : VarName := ⟨"x", by decide⟩
    let t : Term := nary .and [const 0, var x, unary .succ (const 300)]
    let t' : Term := nary .and [unary .succ (const 44), const 256, var x]
    let r : ByteRing := .withFaults ⟨0⟩ [⟨.nary .and, [255, 0], [7]⟩]
    Rearranged ⟨0⟩ t t' ∧ (1 : Int) ≤ 1 ∧
    (t.settleWithin ⟨0⟩ 1).1 = (t'.settleWithin ⟨0⟩ 1).1 ∧ r.quantum = ⟨0⟩ ∧
    ((∃ d d', r.derive t "" = .ok d ∧ r.derive t' "" = .ok d' ∧
        d.canonicalTerm = d'.canonicalTerm ∧ d.resultValue = d'.resultValue ∧
        d.resultIri = d'.resultIri ∧ d.id = d'.id) ∨
      ∃ e, r.derive t "" = .error e ∧ r.derive t' "" = .error e) := by
  intro x t t' r
  have hoperands : List.Forall₂ (Rearranged ⟨0⟩)
      [const 0, var x, unary .succ (const 300)] [const 256, var x, unary .succ (const 44)] :=
    .cons (.const rfl) (.cons (.var x) (.cons (.unary .succ (.const rfl)) .nil))
  have h : Rearranged ⟨0⟩ t t' := .nary .and hoperands (by decide)
  obtain ⟨hruns, -, hderive⟩ := h.canonical_eq_and_derive
  exact ⟨h, Int.le_refl 1, hruns 1 (Int.le_refl 1), rfl, hderive r "" "" rfl⟩

end WordRing.Term
