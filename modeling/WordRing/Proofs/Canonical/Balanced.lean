import WordRing.Proofs.Canonical.Joined
import WordRing.Proofs.Canonical.Readout

/-!
# Operand lists that make one term

After a pass a node shows of its operands what the weights see that respect its operator. Operand
lists that no such weight tells apart make the same term, in the same pass or in the next, where
one of the nodes has nothing but constants to fold and the other has operands to cancel before.
Copies of an operand and the grouping of operands are not seen, as long as no group is folded.

## Main definitions

* `Balanced q op ts us` — after a pass no respecting weight tells the operand lists apart.
-/
namespace WordRing.Term
open Weight
variable {q : Quantum} {op : NaryOp} {t : Term} {ts us vs : List Term}

/-- No weight that respects the operator tells the operands apart that a pass makes of two lists. -/
def Balanced (q : Quantum) (op : NaryOp) (ts us : List Term) : Prop :=
  ∀ w : Weight q, w.Respects op → (w.advance op).total op ts = (w.advance op).total op us

/-- Two passes are enough to make one term of balanced operands. -/
theorem Balanced.pass_pass_eq (h : Balanced q op ts us) :
    ((nary op ts).pass q).pass q = ((nary op us).pass q).pass q := by
  have hspread (w : Weight q) (hw : w.Respects op) (ts : List Term) :
      w.spread op (arrange q (nary op (ts.map (pass q)))) = (w.advance op).total op ts := by
    rw [spread_arrange hw (tidy_map_pass q ts), Weight.total, Weight.total, List.map_map]
    rfl
  have harrange : arrange q (nary op (ts.map (pass q))) =
      arrange q (nary op (us.map (pass q))) := by
    refine eq_of_forall_spread_eq op (tidy_arrange (tidy_map_pass q ts))
      (tidy_arrange (tidy_map_pass q us)) ?_
    intro w hw
    rw [hspread w hw, hspread w hw, h w hw]
  rw [pass_nary, pass_nary, pass_applyAll_nary op (tidy_map_pass q ts), harrange,
    pass_applyAll_nary op (tidy_map_pass q us)]

/-- **Balanced operands have one canonical form.** -/
theorem Balanced.canonical_eq (h : Balanced q op ts us) :
    (nary op ts).canonical q = (nary op us).canonical q := by
  rw [canonical_eq_iterate_pass_pass, h.pass_pass_eq, ← canonical_eq_iterate_pass_pass]

/-! ## Copies of an operand -/

/-- Lists of which a node keeps the same operands are balanced. -/
theorem balanced_of_mem_kept_iff (h : ∀ t, t ∈ kept op ts ↔ t ∈ kept op us) :
    Balanced q op ts us := by
  have hperm := (List.perm_ext_iff_of_nodup (nodup_kept op ts) (nodup_kept op us)).2 h
  intro w _
  rw [← Weight.total_kept, Weight.total_perm _ hperm, Weight.total_kept]

/-- A node with one operand is that operand. -/
theorem arrange_singleton (op : NaryOp) (h : Tidy q t) : arrange q (nary op [t]) = t := by
  have htidy : ∀ u ∈ [t], Tidy q u := List.forall_mem_singleton.2 h
  refine eq_of_forall_spread_eq op (tidy_arrange htidy) h ?_
  intro w hw
  rw [spread_arrange hw htidy, Weight.total_singleton]

theorem canonical_nary_singleton (q : Quantum) (op : NaryOp) (t : Term) :
    (nary op [t]).canonical q = t.canonical q := by
  have hpass : ((nary op [t]).pass q).pass q = (t.pass q).pass q := by
    rw [pass_nary, pass_applyAll_nary op (tidy_map_pass q [t]), List.map_singleton,
      arrange_singleton op (tidy_pass q t)]
  rw [canonical_eq_iterate_pass_pass, hpass, ← canonical_eq_iterate_pass_pass]

/-- **A node depends on what its operator sees of the multiplicities of its operands**: under
exclusive or on which operands occur an odd number of times, under the others on which occur at
all. A pair cancels under exclusive or, and in every other case a node on copies of one operand is
that operand. -/
theorem canonical_nary_of_multiplicity (q : Quantum) (ts us : List Term) :
    ((∀ t, ts.count t % 2 = 1 ↔ us.count t % 2 = 1) →
      (nary .xor ts).canonical q = (nary .xor us).canonical q) ∧
    ((∀ t, t ∈ ts ↔ t ∈ us) →
      (nary .and ts).canonical q = (nary .and us).canonical q ∧
      (nary .or ts).canonical q = (nary .or us).canonical q) ∧
    ∀ t, (nary .xor [t, t]).canonical q = const 0 ∧
      (nary .and [t, t]).canonical q = t.canonical q ∧
      (nary .or [t, t]).canonical q = t.canonical q ∧
      ∀ op, (nary op [t]).canonical q = t.canonical q := by
  have hparity {ts us : List Term} (h : ∀ t, ts.count t % 2 = 1 ↔ us.count t % 2 = 1) :
      (nary .xor ts).canonical q = (nary .xor us).canonical q := by
    refine (balanced_of_mem_kept_iff fun t => ?_).canonical_eq
    rw [mem_kept_xor, mem_kept_xor, h t]
  have hmembers {op : NaryOp} (hop : op ≠ .xor) {ts us : List Term} (h : ∀ t, t ∈ ts ↔ t ∈ us) :
      (nary op ts).canonical q = (nary op us).canonical q := by
    refine (balanced_of_mem_kept_iff fun t => ?_).canonical_eq
    rw [mem_kept hop, mem_kept hop, h t]
  refine ⟨hparity, fun h => ⟨hmembers (by decide) h, hmembers (by decide) h⟩, ?_⟩
  intro t
  have hnone : ∀ u, [t, t].count u % 2 = 1 ↔ ([] : List Term).count u % 2 = 1 := by
    intro u
    by_cases h : t = u <;> simp [h]
  have hone : ∀ u, u ∈ [t, t] ↔ u ∈ [t] := by simp
  refine ⟨?_, ?_, ?_, fun op => canonical_nary_singleton q op t⟩
  · rw [hparity hnone, canonical_nary_nil]
    rfl
  · rw [hmembers (by decide) hone, canonical_nary_singleton]
  · rw [hmembers (by decide) hone, canonical_nary_singleton]

/-- Two successors around two constants, which the pass cancels and only the next pass folds. -/
theorem canonical_nary_of_multiplicity_late :
    let t : Term := unary .succ (var ⟨"x", by decide⟩)
    (∀ u, [t, const 1, const 2, t].count u % 2 = 1 ↔ [const 1, const 2].count u % 2 = 1) ∧
    (nary .xor [t, const 1, const 2, t]).canonical ⟨0⟩ =
      (nary .xor [const 1, const 2]).canonical ⟨0⟩ ∧
    (∀ u, u ∈ [t, const 1, t] ↔ u ∈ [const 1, t]) ∧
    (nary .and [t, const 1, t]).canonical ⟨0⟩ = (nary .and [const 1, t]).canonical ⟨0⟩ ∧
    (nary .or [t, const 1, t]).canonical ⟨0⟩ = (nary .or [const 1, t]).canonical ⟨0⟩ := by
  intro t
  have hparity : ∀ u,
      [t, const 1, const 2, t].count u % 2 = 1 ↔ [const 1, const 2].count u % 2 = 1 := by
    intro u
    simp only [List.count_cons, List.count_nil]
    split <;> omega
  have hmembers : ∀ u, u ∈ [t, const 1, t] ↔ u ∈ [const 1, t] := by
    intro u
    simp only [List.mem_cons, List.not_mem_nil, or_false]
    tauto
  exact ⟨hparity, (canonical_nary_of_multiplicity ⟨0⟩ _ _).1 hparity, hmembers,
    (canonical_nary_of_multiplicity ⟨0⟩ _ _).2.1 hmembers⟩

/-! ## Groups of operands -/

/-- A group is balanced with its operands, unless the pass folds it. -/
theorem balanced_group (hopen : ¬ FoldsNext q op (nary op us)) :
    Balanced q op (ts ++ [nary op us] ++ vs) (ts ++ us ++ vs) := by
  intro w hw
  have hgroup : w.advance op (nary op us) = (w.advance op).total op us := by
    rw [advance_apply, spread_pass hw (.inr hopen), spread_apply, spliced_nary_self]
  simp only [Weight.total_append, Weight.total_singleton, hgroup]

/-- A group that the next pass folds may be replaced by the constant of its value. -/
theorem pass_const_number_of_foldsNext (h : FoldsNext q op t) :
    (const (t.number q : Int)).pass q = t.pass q := by
  have hnumber : (t.pass q).number q = t.number q := number_iterate_pass 1 t
  rw [eq_const_number (tidy_pass q t) h.isConst_pass, hnumber,
    pass_of_normal (normal_const_of_lt (number_lt_cycle q t))]

/-- **A group of operands counts as the operands in it**, unless a pass makes constants of all of
them, one at least: then it counts as the constant of its value. -/
theorem canonical_nary_group (q : Quantum) (op : NaryOp) (ts us vs : List Term) :
    ((us = [] ∨ ∃ u ∈ us, (u.pass q).isConst = false) →
      (nary op (ts ++ [nary op us] ++ vs)).canonical q =
        (nary op (ts ++ us ++ vs)).canonical q) ∧
    (us ≠ [] → (∀ u ∈ us, (u.pass q).isConst = true) →
      (nary op (ts ++ [nary op us] ++ vs)).canonical q =
        (nary op (ts ++ [const ((nary op us).number q)] ++ vs)).canonical q) := by
  constructor
  · intro hopen
    refine (balanced_group ?_).canonical_eq
    rintro ⟨_, heq, hne, hconst⟩
    obtain rfl := (nary.inj heq).2
    rcases hopen with hnil | ⟨u, hu, hopen⟩
    · exact hne hnil
    · exact Bool.false_ne_true (hopen.symm.trans (hconst u hu))
  · intro hne hconst
    have hfolds : FoldsNext q op (nary op us) := ⟨us, rfl, hne, hconst⟩
    have hgroup := pass_const_number_of_foldsNext hfolds
    rw [canonical_eq_iterate_pass, canonical_eq_iterate_pass, pass_nary, pass_nary]
    simp only [List.map_append, List.map_singleton, hgroup]

/-- A conjunction with an unreduced mask beside a variable, which collapses on its own before it is
taken over; and an exclusive or of a negated constant and another, which folds. -/
theorem canonical_nary_group_collapsing :
    let x : Term := var ⟨"x", by decide⟩
    let y : Term := var ⟨"y", by decide⟩
    let us : List Term := [unary .neg (const 300), const 2]
    (x.pass ⟨0⟩).isConst = false ∧
    (nary .and ([y, x] ++ [nary .and [const (-1), x]] ++ [const 7])).canonical ⟨0⟩ =
      (nary .and ([y, x] ++ [const (-1), x] ++ [const 7])).canonical ⟨0⟩ ∧
    us ≠ [] ∧ (∀ u ∈ us, (u.pass ⟨0⟩).isConst = true) ∧
    (nary .xor ([x] ++ [nary .xor us] ++ [y])).canonical ⟨0⟩ =
      (nary .xor ([x] ++ [const ((nary .xor us).number ⟨0⟩)] ++ [y])).canonical ⟨0⟩ := by
  intro x y us
  have hopen : (x.pass ⟨0⟩).isConst = false := rfl
  have hne : us ≠ [] := List.cons_ne_nil _ _
  have hconst : ∀ u ∈ us, (u.pass ⟨0⟩).isConst = true := by
    simp only [us, List.forall_mem_cons, List.not_mem_nil, false_implies, implies_true, and_true]
    exact ⟨rfl, rfl⟩
  exact ⟨hopen, (canonical_nary_group ⟨0⟩ .and _ _ _).1 (.inr ⟨x, by simp, hopen⟩), hne, hconst,
    (canonical_nary_group ⟨0⟩ .xor _ _ _).2 hne hconst⟩

end WordRing.Term
