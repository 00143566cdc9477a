import Mathlib.Algebra.GroupWithZero.Nat
import Mathlib.Algebra.Order.BigOperators.Group.List
import Mathlib.Algebra.Order.Group.Nat
import WordRing.Proofs.Canonical.Pass
import WordRing.Term.Metrics

/-!
# How passes change the size of a term

The rules never add nodes, with one exception: expanding a successor or predecessor adds one. A
first pass therefore adds at most one node for each of these. After it there are none left, and a
node at which a rule still has something to do loses nodes, whatever the rule.
-/
namespace WordRing.Term
variable {q : Quantum} {op : NaryOp} {t : Term} {ts : List Term}

/-! ## Counting -/

theorem nodeCount_nary_eq_sum (op : NaryOp) (ts : List Term) :
    (nary op ts).nodeCount = (ts.map nodeCount).sum + 1 := by
  have foldr_eq (ns : List Nat) : ns.foldr (· + ·) 1 = ns.sum + 1 := by
    induction ns with
    | nil => rfl
    | cons n ns ih => rw [List.foldr_cons, ih, List.sum_cons, Nat.add_assoc]
  rw [nodeCount_nary, foldr_eq]

theorem nodeCount_pos (t : Term) : 0 < t.nodeCount := by
  cases t with
  | const n => simp
  | var x => simp
  | unary op t => simp
  | nary op ts => rw [nodeCount_nary_eq_sum]; omega

theorem length_le_sum_nodeCount (ts : List Term) : ts.length ≤ (ts.map nodeCount).sum := by
  have hpos : ∀ n ∈ ts.map nodeCount, 1 ≤ n := by
    intro n hn
    obtain ⟨t, -, rfl⟩ := List.mem_map.1 hn
    exact nodeCount_pos t
  simpa using List.card_nsmul_le_sum (ts.map nodeCount) 1 hpos

theorem sum_nodeCount_le_of_sublist {us : List Term} (h : us.Sublist ts) :
    (us.map nodeCount).sum ≤ (ts.map nodeCount).sum :=
  (h.map nodeCount).sum_le_sum fun _ _ => Nat.zero_le _

/-- How many nodes of a term are successors or predecessors. -/
def derivedCount (t : Term) : Nat :=
  t.occurrences (.unary .succ) + t.occurrences (.unary .pred)

theorem derivedCount_unary (op : UnaryOp) (t : Term) :
    (unary op t).derivedCount = t.derivedCount + if op ∈ UnaryOp.involutions then 0 else 1 := by
  have hunary (o : Operator) : (unary op t).occurrences o =
      t.occurrences o + if o = .unary op then 1 else 0 := rfl
  rw [derivedCount, hunary, hunary, derivedCount]
  cases op <;> simp [UnaryOp.involutions] <;> omega

theorem derivedCount_nary (op : NaryOp) (ts : List Term) :
    (nary op ts).derivedCount = (ts.map derivedCount).sum := by
  have hnary (o : UnaryOp) : (nary op ts).occurrences (.unary o) =
      (ts.map (occurrences (.unary o))).sum := by
    simp [occurrences, List.sum_eq_foldr]
  rw [derivedCount, hnary, hnary, ← List.sum_map_add]
  rfl

/-! ## No rule on operand lists adds nodes -/

theorem nodeCount_rebuild_le (op : NaryOp) (empty : Int) (ts : List Term) :
    (rebuild op empty ts).nodeCount ≤ (ts.map nodeCount).sum + 1 := by
  match ts with
  | [] => simp [rebuild]
  | [t] => simp [rebuild]
  | t :: u :: us => rw [rebuild_of_two_le op empty (by simp), nodeCount_nary_eq_sum]

theorem sum_nodeCount_spliced_le (op : NaryOp) (t : Term) :
    ((spliced op t).map nodeCount).sum ≤ t.nodeCount := by
  rcases spliced_eq_or op t with ⟨ts, rfl, heq⟩ | ⟨-, heq⟩
  · rw [heq, nodeCount_nary_eq_sum]
    omega
  · simp [heq]

theorem nodeCount_flatten_le (op : NaryOp) (ts : List Term) :
    (flatten (nary op ts)).nodeCount ≤ (nary op ts).nodeCount := by
  rw [flatten, nodeCount_nary_eq_sum, nodeCount_nary_eq_sum]
  have hsum : ((ts.flatMap (spliced op)).map nodeCount).sum ≤ (ts.map nodeCount).sum := by
    induction ts with
    | nil => simp
    | cons t ts ih =>
      have ht := sum_nodeCount_spliced_le op t
      simp only [List.flatMap_cons, List.map_append, List.sum_append, List.map_cons, List.sum_cons]
      omega
  omega

theorem nodeCount_sortOperands (q : Quantum) (op : NaryOp) (ts : List Term) :
    (sortOperands q (nary op ts)).nodeCount = (nary op ts).nodeCount := by
  have hperm := (List.mergeSort_perm ts (before q.width)).map nodeCount
  rw [sortOperands, nodeCount_nary_eq_sum, nodeCount_nary_eq_sum, hperm.sum_eq]

theorem nodeCount_eliminateIdentity_le (q : Quantum) (op : NaryOp) (ts : List Term) :
    (eliminateIdentity q (nary op ts)).nodeCount ≤ (nary op ts).nodeCount := by
  rcases eliminateIdentity_eq_or q op ts with ⟨a, -, -, heq⟩ | ⟨-, heq⟩
  · rw [heq]
    exact nodeCount_pos (nary op ts)
  · rw [heq, nodeCount_nary_eq_sum]
    have hrebuild := nodeCount_rebuild_le op (op.identity q)
      (ts.filter (· ≠ const (op.identity q)))
    have hfilter := sum_nodeCount_le_of_sublist
      (@List.filter_sublist _ (· ≠ const (op.identity q)) ts)
    omega

theorem nodeCount_cancelCopies_le (q : Quantum) (t : Term) :
    (cancelCopies q t).nodeCount ≤ t.nodeCount := by
  cases t with
  | const n => exact Nat.le_refl _
  | var x => exact Nat.le_refl _
  | unary op t => exact Nat.le_refl _
  | nary op ts =>
    rw [cancelCopies_nary, nodeCount_nary_eq_sum]
    have hrebuild := nodeCount_rebuild_le op 0 (kept op ts)
    have hkept := sum_nodeCount_le_of_sublist (kept_sublist op ts)
    omega

theorem nodeCount_arrange_le (q : Quantum) (t : Term) :
    (arrange q t).nodeCount ≤ t.nodeCount := by
  cases t with
  | const n => exact Nat.le_refl _
  | var x => exact Nat.le_refl _
  | unary op t => exact Nat.le_refl _
  | nary op ts =>
    have hflatten := nodeCount_flatten_le op ts
    calc
      (arrange q (nary op ts)).nodeCount
          ≤ (eliminateIdentity q (sortOperands q (flatten (nary op ts)))).nodeCount :=
        nodeCount_cancelCopies_le q _
      _ ≤ (sortOperands q (flatten (nary op ts))).nodeCount :=
        nodeCount_eliminateIdentity_le q op _
      _ = (flatten (nary op ts)).nodeCount := nodeCount_sortOperands q op _
      _ ≤ (nary op ts).nodeCount := hflatten

/-! ## The rules at one node -/

theorem nodeCount_foldConstants_le (q : Quantum) (t : Term) :
    (foldConstants q t).nodeCount ≤ t.nodeCount := by
  rcases foldConstants_eq_or q t with heq | ⟨n, heq, -⟩
  · rw [heq]
  · rw [heq, nodeCount_const]
    exact nodeCount_pos t

theorem nodeCount_applyAll_le (q : Quantum) (t : Term) :
    (Rule.applyAll q t).nodeCount ≤ (expandDerived (cancelInvolution t)).nodeCount := by
  rw [applyAll_eq]
  exact (nodeCount_arrange_le q _).trans (nodeCount_foldConstants_le q _)

theorem nodeCount_applyAll_nary_le (q : Quantum) (op : NaryOp) (ts : List Term) :
    (Rule.applyAll q (nary op ts)).nodeCount ≤ (nary op ts).nodeCount :=
  nodeCount_applyAll_le q (nary op ts)

/-- Only a successor or predecessor makes the rules add a node. -/
theorem nodeCount_applyAll_unary_le (op : UnaryOp) (h : Tidy q t) :
    (Rule.applyAll q (unary op t)).nodeCount ≤
      t.nodeCount + 1 + if op ∈ UnaryOp.involutions then 0 else 1 := by
  refine (nodeCount_applyAll_le q _).trans ?_
  by_cases hop : op ∈ UnaryOp.involutions
  · rw [if_pos hop]
    by_cases hpair : t.isUnaryOf op = true
    · obtain ⟨u, rfl⟩ := isUnaryOf_eq_true.1 hpair
      have hu : TidyNode q u := ((everywhere_unary op u).1 h).2.root
      rw [cancelInvolution_pair hop, expandDerived_of_tidyNode hu, nodeCount_unary]
      omega
    · rw [Bool.not_eq_true] at hpair
      have hnode : TidyNode q (unary op t) := hop
      rw [cancelInvolution_of_ne hpair, expandDerived_of_tidyNode hnode, nodeCount_unary,
        Nat.add_zero]
  · rw [if_neg hop, cancelInvolution_derived hop]
    cases op <;> simp [expandDerived]

/-! ## Passes -/

/-- **A pass adds at most one node for each successor and predecessor.** -/
theorem nodeCount_pass_le (q : Quantum) (t : Term) :
    (t.pass q).nodeCount ≤ t.nodeCount + t.derivedCount := by
  induction t using induct with
  | const n => exact Nat.le_add_right 1 _
  | var x => exact Nat.le_add_right 1 _
  | unary op t ih =>
    have hrules := nodeCount_applyAll_unary_le op (tidy_pass q t)
    rw [pass_unary, nodeCount_unary, derivedCount_unary]
    omega
  | nary op ts ih =>
    have hrules := nodeCount_applyAll_nary_le q op (ts.map (pass q))
    have hsum : (ts.map fun t => (t.pass q).nodeCount).sum ≤
        (ts.map fun t => t.nodeCount + t.derivedCount).sum := List.sum_le_sum ih
    rw [List.sum_map_add] at hsum
    rw [nodeCount_nary_eq_sum, List.map_map] at hrules
    rw [pass_nary, nodeCount_nary_eq_sum, derivedCount_nary]
    simp only [Function.comp_def] at hrules
    omega

theorem exists_foldConstants_eq_const (op : NaryOp) (hne : ts ≠ [])
    (hconst : ∀ t ∈ ts, t.isConst = true) : ∃ n, foldConstants q (nary op ts) = const n := by
  have hvalues : ∃ ns : List Int, ts.mapM constant? = some ns ∧ ns.length = ts.length := by
    clear hne
    induction ts with
    | nil => exact ⟨[], rfl, rfl⟩
    | cons t ts ih =>
      obtain ⟨n, rfl⟩ := isConst_eq_true.1 (hconst t List.mem_cons_self)
      obtain ⟨ns, hns, hlength⟩ := ih fun u hu => hconst u (List.mem_cons_of_mem _ hu)
      exact ⟨n :: ns, by simp [List.mapM_cons, constant?, hns], by simp [hlength]⟩
  obtain ⟨ns, hns, hlength⟩ := hvalues
  cases ns with
  | nil => exact absurd (List.length_eq_zero_iff.1 hlength.symm) hne
  | cons n ns => exact ⟨_, by simp only [foldConstants, hns]; rfl⟩

/-- At a tidy node that is not normal the rules lose nodes. -/
theorem nodeCount_applyAll_lt (htidy : Tidy q t) (hnode : ¬ NormalNode q t) :
    (Rule.applyAll q t).nodeCount < t.nodeCount := by
  cases t with
  | const n => exact absurd htidy.root hnode
  | var x => exact absurd trivial hnode
  | unary op t =>
    obtain ⟨hop, ht⟩ := (everywhere_unary op t).1 htidy
    by_cases hpair : t.isUnaryOf op = true
    · obtain ⟨u, rfl⟩ := isUnaryOf_eq_true.1 hpair
      have hu : TidyNode q u := ((everywhere_unary op u).1 ht).2.root
      have hrules := nodeCount_applyAll_le q (unary op (unary op u))
      rw [cancelInvolution_pair hop, expandDerived_of_tidyNode hu] at hrules
      rw [nodeCount_unary, nodeCount_unary]
      omega
    · rw [Bool.not_eq_true] at hpair
      have hconst : t.isConst = true := by
        by_contra hconst
        exact hnode ⟨hop, Bool.not_eq_true _ ▸ hconst, hpair⟩
      obtain ⟨n, rfl⟩ := isConst_eq_true.1 hconst
      rw [applyAll_eq, cancelInvolution_of_ne hpair, expandDerived_of_tidyNode htidy.root,
        nodeCount_unary]
      exact Nat.lt_succ_self 1
  | nary op ts =>
    have harranged : Arranged q op ts := htidy.root
    have hconst : ∀ t ∈ ts, t.isConst = true := by
      intro t ht
      by_contra hconst
      exact hnode ⟨harranged, t, ht, Bool.not_eq_true _ ▸ hconst⟩
    obtain ⟨n, hfold⟩ := exists_foldConstants_eq_const (q := q) op harranged.ne_nil hconst
    have hlength := length_le_sum_nodeCount ts
    have htwo := harranged.two_le
    rw [applyAll_nary, hfold, arrange_const, nodeCount_const, nodeCount_nary_eq_sum]
    omega

/-- **On a tidy term every change is a loss**: either the term is normal, or a pass makes it
smaller. -/
theorem normal_or_nodeCount_pass_lt (h : Tidy q t) :
    Normal q t ∨ (t.pass q).nodeCount < t.nodeCount := by
  induction t using induct with
  | const n => exact .inl ((everywhere_const n).2 h.root)
  | var x => exact .inl ((everywhere_var x).2 trivial)
  | unary op t ih =>
    obtain ⟨hop, ht⟩ := (everywhere_unary op t).1 h
    rcases ih ht with hnormal | hlt
    · by_cases hnode : NormalNode q (unary op t)
      · exact .inl ((everywhere_unary op t).2 ⟨hnode, hnormal⟩)
      · rw [pass_unary, pass_of_normal hnormal]
        exact .inr (nodeCount_applyAll_lt h hnode)
    · have hinvolution : op ∈ UnaryOp.involutions := hop
      have hrules := nodeCount_applyAll_unary_le op (tidy_pass q t)
      rw [if_pos hinvolution] at hrules
      rw [pass_unary, nodeCount_unary]
      exact .inr (by omega)
  | nary op ts ih =>
    obtain ⟨-, hts⟩ := (everywhere_nary op ts).1 h
    by_cases hall : ∀ t ∈ ts, Normal q t
    · by_cases hnode : NormalNode q (nary op ts)
      · exact .inl ((everywhere_nary op ts).2 ⟨hnode, hall⟩)
      · rw [pass_nary, map_pass_of_normal hall]
        exact .inr (nodeCount_applyAll_lt h hnode)
    · push Not at hall
      obtain ⟨u, hu, hnormal⟩ := hall
      have hle : ∀ t ∈ ts, (t.pass q).nodeCount ≤ t.nodeCount := by
        intro t ht
        rcases ih t ht (hts t ht) with hnormal | hlt
        · rw [pass_of_normal hnormal]
        · exact hlt.le
      have hlt : (u.pass q).nodeCount < u.nodeCount :=
        (ih u hu (hts u hu)).resolve_left hnormal
      have hsum : (ts.map fun t => (t.pass q).nodeCount).sum < (ts.map nodeCount).sum :=
        List.sum_lt_sum _ _ hle ⟨u, hu, hlt⟩
      have hrules := nodeCount_applyAll_nary_le q op (ts.map (pass q))
      rw [nodeCount_nary_eq_sum, List.map_map] at hrules
      simp only [Function.comp_def] at hrules
      rw [pass_nary, nodeCount_nary_eq_sum]
      exact .inr (by omega)

end WordRing.Term
