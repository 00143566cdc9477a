import WordRing.Proofs.Canonical.Settle
import WordRing.Proofs.Value

/-!
# Canonicalization brings in no variable

Every rule is made of parts of the term it is applied to and of constants, so the variables of a
canonical form are among those of the term. Some may be gone, where operands cancel or an
annihilator decides.
-/
namespace WordRing.Term
variable {q : Quantum} {op : NaryOp} {ts us : List Term}

theorem vars_rebuild_subset (op : NaryOp) (empty : Int) (ts : List Term) :
    (rebuild op empty ts).vars ⊆ (nary op ts).vars := by
  match ts with
  | [] => exact List.Subset.refl []
  | [t] => simp [rebuild]
  | t :: u :: us => exact List.Subset.refl _

theorem vars_nary_subset (h : ts ⊆ us) : (nary op ts).vars ⊆ (nary op us).vars := by
  intro x hx
  obtain ⟨t, ht, hxt⟩ := mem_vars_nary.1 hx
  exact mem_vars_nary.2 ⟨t, h ht, hxt⟩

theorem vars_flatten (op : NaryOp) (ts : List Term) :
    (flatten (nary op ts)).vars = (nary op ts).vars := by
  have hspliced (t : Term) : (spliced op t).flatMap vars = t.vars := by
    rcases spliced_eq_or op t with ⟨us, rfl, heq⟩ | ⟨-, heq⟩
    · rw [heq, vars_nary]
    · rw [heq, List.flatMap_singleton]
  rw [flatten, vars_nary, vars_nary, List.flatMap_assoc]
  simp only [hspliced]

theorem vars_eliminateIdentity_subset (q : Quantum) (op : NaryOp) (ts : List Term) :
    (eliminateIdentity q (nary op ts)).vars ⊆ (nary op ts).vars := by
  rcases eliminateIdentity_eq_or q op ts with ⟨a, -, -, heq⟩ | ⟨-, heq⟩
  · rw [heq]
    exact List.nil_subset _
  · rw [heq]
    exact List.Subset.trans (vars_rebuild_subset op _ _)
      (vars_nary_subset List.filter_sublist.subset)

/-- No rule brings in a variable. -/
theorem vars_apply_subset (q : Quantum) (rule : Rule) (t : Term) :
    (rule.apply q t).vars ⊆ t.vars := by
  cases rule with
  | involutionCancellation =>
    rw [Rule.apply]
    unfold cancelInvolution
    split <;> exact List.Subset.refl _
  | derivedExpansion =>
    rw [Rule.apply]
    unfold expandDerived
    split <;> exact List.Subset.refl _
  | constantFolding =>
    rw [Rule.apply]
    rcases foldConstants_eq_or q t with heq | ⟨n, heq, -⟩
    · rw [heq]
      exact List.Subset.refl _
    · rw [heq]
      exact List.nil_subset _
  | associativeFlattening =>
    cases t with
    | nary op ts => exact (vars_flatten op ts) ▸ List.Subset.refl _
    | _ => exact List.Subset.refl _
  | commutativeSorting =>
    cases t with
    | nary op ts => exact vars_nary_subset (List.mergeSort_perm ts _).subset
    | _ => exact List.Subset.refl _
  | identityElimination =>
    cases t with
    | nary op ts => exact vars_eliminateIdentity_subset q op ts
    | _ => exact List.Subset.refl _
  | selfCancellation =>
    cases t with
    | nary op ts =>
      rw [Rule.apply, cancelCopies_nary]
      exact List.Subset.trans (vars_rebuild_subset op 0 _)
        (vars_nary_subset (kept_sublist op ts).subset)
    | _ => exact List.Subset.refl _

theorem vars_applyAll_subset (q : Quantum) (t : Term) :
    (Rule.applyAll q t).vars ⊆ t.vars := by
  have hrules (rules : List Rule) (t : Term) :
      (rules.foldl (fun t rule => rule.apply q t) t).vars ⊆ t.vars := by
    induction rules generalizing t with
    | nil => exact List.Subset.refl _
    | cons rule rules ih => exact List.Subset.trans (ih _) (vars_apply_subset q rule t)
  exact hrules Rule.all t

theorem vars_arrange_subset (q : Quantum) (t : Term) : (arrange q t).vars ⊆ t.vars :=
  List.Subset.trans (vars_apply_subset q .selfCancellation _) <|
    List.Subset.trans (vars_apply_subset q .identityElimination _) <|
      List.Subset.trans (vars_apply_subset q .commutativeSorting _)
        (vars_apply_subset q .associativeFlattening t)

theorem vars_pass_subset (q : Quantum) (t : Term) : (t.pass q).vars ⊆ t.vars := by
  induction t using induct with
  | const n => exact vars_applyAll_subset q (const n)
  | var x => exact vars_applyAll_subset q (var x)
  | unary op t ih => exact List.Subset.trans (vars_applyAll_subset q _) ih
  | nary op ts ih =>
    rw [pass_nary]
    refine List.Subset.trans (vars_applyAll_subset q _) ?_
    intro x hx
    obtain ⟨u, hu, hxu⟩ := mem_vars_nary.1 hx
    obtain ⟨t, ht, rfl⟩ := List.mem_map.1 hu
    exact mem_vars_nary.2 ⟨t, ht, ih t ht hxu⟩

/-- **Whatever the limit, a run brings in no variable.** -/
theorem vars_settleWithin_subset (q : Quantum) (limit : Int) (t : Term) :
    (t.settleWithin q limit).1.vars ⊆ t.vars := by
  have hiterate (m : Nat) (t : Term) : ((pass q)^[m] t).vars ⊆ t.vars := by
    induction m generalizing t with
    | zero => exact List.Subset.refl _
    | succ m ih =>
      rw [Function.iterate_succ_apply]
      exact List.Subset.trans (ih _) (vars_pass_subset q t)
  rw [fst_settleWithin]
  exact hiterate limit.toNat t

end WordRing.Term
