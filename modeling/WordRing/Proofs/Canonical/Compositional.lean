import WordRing.Proofs.Canonical.Steady

/-!
# Canonicalizing operands first

Canonicalization is compositional under the unary operators. Under an operator on any number of
operands it is compositional up to the constants at the root: these are folded only together with
all other operands, so a node that takes over the operands of another before that is folded keeps
the constants side by side, and a node on the folded operand does not.
-/
namespace WordRing.Term
open Weight
variable {q : Quantum} {op : NaryOp} {t : Term} {ts : List Term}

/-! ## Canonicalizing operands first -/

/-- What both ways agree on: the word of the constants at the root, and the operands that are none
unless that word drowns them. -/
theorem constantTotal_canonical_nary (op : NaryOp) (h : ∀ t ∈ ts, Normal q (t.canonical q)) :
    constantTotal q op ((nary op ts).canonical q) =
        constantTotal q op ((nary op (ts.map (canonical q))).canonical q) ∧
      (openOperands op ((nary op ts).canonical q) =
          openOperands op ((nary op (ts.map (canonical q))).canonical q) ∨
        ∃ a ∈ op.annihilator? q, constantTotal q op ((nary op ts).canonical q) = q.word a) :=
  constantTotal_eq_and_openOperands_eq (tidy_canonical q _) (tidy_canonical q _)
    fun _ hw => spread_canonical_map hw op h

/-- Without folding among the operands both ways end in a constant, or neither does. -/
theorem Steady.isConst_canonical_map (h : Steady q op ts)
    (hnormal : Normal q ((nary op ts).canonical q)) :
    ((nary op ts).canonical q).isConst =
      ((nary op (ts.map (canonical q))).canonical q).isConst := by
  have hparts : Normal q ((nary op (ts.map (canonical q))).canonical q) :=
    normal_canonical_nary op (List.forall_mem_map.2 h.normal)
  rw [Bool.eq_iff_iff]
  by_cases hop : op = .xor
  · subst hop
    rw [← openOperands_eq_nil_iff .xor hnormal, ← openOperands_eq_nil_iff .xor hparts]
    rcases (constantTotal_canonical_nary .xor h.normal).2 with hopen | ⟨a, ha, -⟩
    · rw [hopen]
    · exact nomatch ha
  · rw [← not_iff_not, Bool.not_eq_true, Bool.not_eq_true, h.isConst_canonical_iff hop hnormal,
      (steady_map_canonical h.normal).isConst_canonical_iff hop hparts,
      undecided_map_canonical h.normal]

/-- **Without folding among the operands canonicalization is compositional.** -/
theorem Steady.canonical_nary_map_canonical (h : Steady q op ts)
    (hnormal : Normal q ((nary op ts).canonical q)) :
    (nary op (ts.map (canonical q))).canonical q = (nary op ts).canonical q := by
  have hparts : Normal q ((nary op (ts.map (canonical q))).canonical q) :=
    normal_canonical_nary op (List.forall_mem_map.2 h.normal)
  have hconst := h.isConst_canonical_map hnormal
  cases hopen : ((nary op ts).canonical q).isConst with
  | false =>
    refine eq_of_spread_eq op hparts.tidy hnormal.tidy (hconst ▸ hopen) hopen ?_
    intro w hw
    rw [h.spread_canonical hw hnormal hopen,
      (steady_map_canonical h.normal).spread_canonical hw hparts (hconst ▸ hopen),
      total_after_map_canonical w op h.normal]
  | true =>
    exact eq_of_constantTotal_eq hparts.tidy hnormal.tidy (hconst ▸ hopen) hopen
      (constantTotal_canonical_nary op h.normal).1.symm

/-! ## Constants side by side -/

/-- Two constants and two copies of a variable. A first pass cancels the copies, and only the next
folds the constants. -/
def lateConstant : Term := nary .xor [const 1, const 2, towerVar, towerVar]

theorem pass_lateConstant : lateConstant.pass ⟨0⟩ = nary .xor [const 1, const 2] := by
  have hrules : Rule.applyAll ⟨0⟩ lateConstant = nary .xor [const 1, const 2] := by
    rw [lateConstant, applyAll_nary_of_perm ⟨towerVar, by simp, rfl⟩
      (List.Perm.refl _) (by decide)]
    decide
  exact hrules

theorem canonical_lateConstant : lateConstant.canonical ⟨0⟩ = const 3 := by
  have hsettled : (pass ⟨0⟩)^[2] lateConstant = const 3 := by
    rw [Function.iterate_succ_apply, pass_lateConstant]
    exact pass_tower_zero
  exact canonical_eq_of_iterate_eq (by decide) hsettled (by decide)

theorem canonical_succ_lateConstant : (unary .succ lateConstant).canonical ⟨0⟩ = const 4 := by
  have hexpanded : (unary .succ lateConstant).pass ⟨0⟩ =
      unary .neg (unary .bnot (lateConstant.pass ⟨0⟩)) := rfl
  have hfolded : (nary .xor [const 1, const 2]).pass ⟨0⟩ = const 3 := pass_tower_zero
  have hsettled : (pass ⟨0⟩)^[2] (unary .succ lateConstant) = const 4 := by
    rw [Function.iterate_succ_apply, Function.iterate_one, hexpanded, pass_lateConstant,
      pass_unary, pass_unary, hfolded]
    decide
  exact canonical_eq_of_iterate_eq (by decide) hsettled (by decide)

/-- Beside a constant the two constants are taken over, and folded with it by the next pass. -/
theorem canonical_nary_lateConstant_three :
    (nary .xor [lateConstant, const 3]).canonical ⟨0⟩ = const 0 := by
  have htaken : (nary .xor [lateConstant, const 3]).pass ⟨0⟩ =
      nary .xor [const 1, const 2, const 3] := by
    have hthree : (const 3).pass ⟨0⟩ = const 3 := rfl
    rw [pass_nary, List.map_cons, pass_lateConstant, List.map_singleton, hthree,
      applyAll_nary_of_perm ⟨_, List.mem_cons_self, rfl⟩ (List.Perm.refl _) (by decide)]
    decide
  have hsettled : (pass ⟨0⟩)^[2] (nary .xor [lateConstant, const 3]) = const 0 := by
    have hfolded : Rule.applyAll ⟨0⟩ (nary .xor [const 1, const 2, const 3]) = const 0 := by decide
    rw [Function.iterate_succ_apply, Function.iterate_one, htaken, pass_nary]
    exact hfolded
  exact canonical_eq_of_iterate_eq (by decide) hsettled (by decide)

/-- Beside another operand the two constants are taken over before they are folded. -/
theorem canonical_nary_lateConstant :
    (nary .xor [lateConstant, var ⟨"x", by decide⟩]).canonical ⟨0⟩ =
      nary .xor [const 1, const 2, var ⟨"x", by decide⟩] := by
  have htaken : (nary .xor [lateConstant, var ⟨"x", by decide⟩]).pass ⟨0⟩ =
      nary .xor [const 1, const 2, var ⟨"x", by decide⟩] := by
    rw [pass_nary, List.map_cons, pass_lateConstant, List.map_singleton, pass_var,
      applyAll_nary_of_perm ⟨_, List.mem_cons_self, rfl⟩ (List.Perm.refl _) (by decide)]
    decide
  exact canonical_eq_of_pass_eq htaken (by decide)

/-- **Canonicalizing operands first can change the canonical form**: two constants that a node has
taken over stay side by side, and the constant that they fold to stands alone. -/
theorem canonical_nary_canonical_ne :
    let x : Term := var ⟨"x", by decide⟩
    let whole := (nary .xor [lateConstant, x]).canonical ⟨0⟩
    let parts := (nary .xor ([lateConstant, x].map (canonical ⟨0⟩))).canonical ⟨0⟩
    (∀ t ∈ [lateConstant, x], (t.canonical ⟨0⟩).pass ⟨0⟩ = t.canonical ⟨0⟩) ∧
    whole.pass ⟨0⟩ = whole ∧ parts.pass ⟨0⟩ = parts ∧
    whole = nary .xor [const 1, const 2, x] ∧ parts = nary .xor [const 3, x] ∧
    parts ≠ whole := by
  intro x whole parts
  have hx : x.canonical ⟨0⟩ = x := canonical_of_normal (by decide)
  have hwhole : whole = nary .xor [const 1, const 2, x] := canonical_nary_lateConstant
  have hparts : parts = nary .xor [const 3, x] := by
    have hmap : [lateConstant, x].map (canonical ⟨0⟩) = [const 3, x] := by
      rw [List.map_cons, List.map_singleton, canonical_lateConstant, hx]
    have hnormal : Normal ⟨0⟩ (nary .xor [const 3, x]) := by decide
    exact (congrArg (fun ts => (nary .xor ts).canonical ⟨0⟩) hmap).trans
      (canonical_of_normal hnormal)
  refine ⟨?_, ?_, ?_, hwhole, hparts, ?_⟩
  · simp only [List.forall_mem_cons, List.not_mem_nil, false_implies, implies_true, and_true]
    rw [canonical_lateConstant, hx]
    exact ⟨rfl, rfl⟩
  · rw [hwhole]
    exact pass_of_normal (by decide)
  · rw [hparts]
    exact pass_of_normal (by decide)
  · rw [hwhole, hparts]
    decide

/-! ## Operands canonicalized first -/

/-- **What becomes of operands that are canonicalized first.** Under a unary operator nothing
changes. Under an operator on any number of operands the constants at the root come to the same
word, and the operands that are no constants are the same unless that word is an annihilator; the
canonical forms are equal if neither keeps two constants at its root, and also if no operand that
is a node of the operator after some passes becomes a constant. All this is said of terms that
reach a fixed point of a pass within the limit. -/
theorem canonical_of_canonical_operands (q : Quantum) :
    (∀ (op : UnaryOp) (t : Term), (t.canonical q).pass q = t.canonical q →
      ((unary op t).canonical q).pass q = (unary op t).canonical q →
      (unary op (t.canonical q)).canonical q = (unary op t).canonical q) ∧
    ∀ (op : NaryOp) (ts : List Term), (∀ t ∈ ts, (t.canonical q).pass q = t.canonical q) →
      let whole := (nary op ts).canonical q
      let parts := (nary op (ts.map (canonical q))).canonical q
      constantTotal q op parts = constantTotal q op whole ∧
      (openOperands op parts = openOperands op whole ∨
        ∃ a ∈ op.annihilator? q, constantTotal q op whole = q.word a) ∧
      (((spliced op parts).filter isConst).length ≤ 1 →
        ((spliced op whole).filter isConst).length ≤ 1 → parts = whole) ∧
      (whole.pass q = whole →
        (∀ t ∈ ts, (t.canonical q).isConst = true →
          ∀ k ≥ 1, ((pass q)^[k] t).isNaryOf op = false) → parts = whole) := by
  constructor
  · intro op t ht hnode
    exact canonical_unary_canonical op (normal_iff.2 ht) (normal_iff.2 hnode)
  · intro op ts hts whole parts
    have hnormal : ∀ t ∈ ts, Normal q (t.canonical q) := fun t ht => normal_iff.2 (hts t ht)
    obtain ⟨htotal, hopens⟩ := constantTotal_canonical_nary op hnormal
    refine ⟨htotal.symm, hopens.imp_left Eq.symm, ?_, ?_⟩
    · intro hparts hwhole
      exact eq_of_length_filter_isConst_le_one (tidy_canonical q _) (tidy_canonical q _)
        (fun w hw => (spread_canonical_map hw op hnormal).symm) hparts hwhole
    · intro hwhole hunfolded
      exact Steady.canonical_nary_map_canonical ⟨hnormal, hunfolded⟩ (normal_iff.2 hwhole)

/-- The successor of the late constant; the late constant beside the constant it becomes, where the
constants are kept side by side for one pass only; and a conjunction whose first operand is turned
from a double negation into a conjunction. -/
theorem canonical_of_canonical_operands_late :
    let x : Term := var ⟨"x", by decide⟩
    let y : Term := var ⟨"y", by decide⟩
    let t : Term := unary .neg (unary .neg (nary .and [const 3, x]))
    (unary .succ (lateConstant.canonical ⟨0⟩)).canonical ⟨0⟩ =
      (unary .succ lateConstant).canonical ⟨0⟩ ∧
    (nary .xor ([lateConstant, const 3].map (canonical ⟨0⟩))).canonical ⟨0⟩ =
      (nary .xor [lateConstant, const 3]).canonical ⟨0⟩ ∧
    (t.pass ⟨0⟩).isNaryOf .and = true ∧
    (nary .and ([t, y].map (canonical ⟨0⟩))).canonical ⟨0⟩ =
      (nary .and [t, y]).canonical ⟨0⟩ := by
  intro x y t
  obtain ⟨hunary, hnary⟩ := canonical_of_canonical_operands ⟨0⟩
  have hlate : (lateConstant.canonical ⟨0⟩).pass ⟨0⟩ = lateConstant.canonical ⟨0⟩ := by
    rw [canonical_lateConstant]
    rfl
  have hthree : (const 3).canonical ⟨0⟩ = const 3 := canonical_of_normal (by decide)
  have hlates : ∀ t ∈ [lateConstant, const 3], (t.canonical ⟨0⟩).pass ⟨0⟩ = t.canonical ⟨0⟩ := by
    simp only [List.forall_mem_cons, List.not_mem_nil, false_implies, implies_true, and_true]
    exact ⟨hlate, by rw [hthree]; rfl⟩
  have hsucc : ((unary .succ lateConstant).canonical ⟨0⟩).pass ⟨0⟩ =
      (unary .succ lateConstant).canonical ⟨0⟩ := by
    rw [canonical_succ_lateConstant]
    rfl
  have hparts : (nary .xor ([lateConstant, const 3].map (canonical ⟨0⟩))).canonical ⟨0⟩ =
      const 0 := by
    rw [List.map_cons, List.map_singleton, canonical_lateConstant, hthree]
    exact canonical_eq_of_pass_eq (by rw [pass_nary]; decide) (by decide)
  have hwhole : (nary .xor [lateConstant, const 3]).canonical ⟨0⟩ = const 0 :=
    canonical_nary_lateConstant_three
  have hu : Normal ⟨0⟩ (nary .and [const 3, x]) := by decide
  have hopen : Rule.applyAll ⟨0⟩ (unary .neg (nary .and [const 3, x])) =
      unary .neg (nary .and [const 3, x]) := applyAll_unary_of_open (by decide) rfl rfl
  have ht : t.pass ⟨0⟩ = nary .and [const 3, x] := by
    rw [pass_unary, pass_unary, pass_of_normal hu, hopen, applyAll_unary_pair (by decide) hu.tidy,
      foldConstants_of_normalNode hu.root]
  have htcanonical : t.canonical ⟨0⟩ = nary .and [const 3, x] := canonical_eq_of_pass_eq ht hu
  have hy : y.canonical ⟨0⟩ = y := canonical_of_normal (by decide)
  have hoperands : ∀ v ∈ [t, y],
      (v.canonical ⟨0⟩).pass ⟨0⟩ = v.canonical ⟨0⟩ ∧ (v.canonical ⟨0⟩).isConst = false := by
    simp only [List.forall_mem_cons, List.not_mem_nil, false_implies, implies_true, and_true]
    rw [htcanonical, hy]
    exact ⟨⟨pass_of_normal hu, rfl⟩, rfl, rfl⟩
  have hfixed : ((nary .and [t, y]).canonical ⟨0⟩).pass ⟨0⟩ = (nary .and [t, y]).canonical ⟨0⟩ := by
    have hpass : (nary .and [t, y]).pass ⟨0⟩ = nary .and [const 3, x, y] := by
      rw [pass_nary, List.map_cons, ht, List.map_singleton, pass_var,
        applyAll_nary_of_perm ⟨_, List.mem_cons_self, rfl⟩ (List.Perm.refl _) (by decide)]
      decide
    rw [canonical_eq_of_pass_eq hpass (by decide)]
    exact pass_of_normal (by decide)
  refine ⟨hunary .succ lateConstant hlate hsucc, ?_, by rw [ht]; rfl, ?_⟩
  · exact (hnary .xor [lateConstant, const 3] hlates).2.2.1 (by rw [hparts]; decide)
      (by rw [hwhole]; decide)
  · refine (hnary .and [t, y] fun v hv => (hoperands v hv).1).2.2.2 hfixed ?_
    intro v hv hconst
    rw [(hoperands v hv).2] at hconst
    exact nomatch hconst

end WordRing.Term
