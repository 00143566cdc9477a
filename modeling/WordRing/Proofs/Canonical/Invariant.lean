import WordRing.Proofs.Canonical.Variables

/-!
# The invariant of passes

One pass makes any term tidy: what is left at a node is an involution, a reduced constant, a
variable, or at least two operands in strict order that suit their operator. It brings in no
variable, and no more nodes than there are successors and predecessors. Every further pass keeps
all of this, so it holds of whatever a run answers, also one that its limit cuts short.

## Main definitions

* `Tidied q t u` — `u` is as passes over `t` leave it.
-/
namespace WordRing.Term
variable {q : Quantum} {t u : Term}

/-- What holds of `u` once passes have gone over `t`. -/
structure Tidied (q : Quantum) (t u : Term) : Prop where
  tidy : Tidy q u
  vars_subset : u.vars ⊆ t.vars
  nodeCount_le : u.nodeCount ≤
    t.nodeCount + (t.occurrences (.unary .succ) + t.occurrences (.unary .pred))

/-- From a tidy term on, passes add no nodes. -/
theorem Tidy.nodeCount_pass_le (h : Tidy q t) : (t.pass q).nodeCount ≤ t.nodeCount := by
  rcases normal_or_nodeCount_pass_lt h with hnormal | hlt
  · rw [pass_of_normal hnormal]
  · exact hlt.le

/-- A first pass establishes the invariant. -/
theorem tidied_pass (q : Quantum) (t : Term) : Tidied q t (t.pass q) where
  tidy := tidy_pass q t
  vars_subset := vars_pass_subset q t
  nodeCount_le := nodeCount_pass_le q t

/-- Every further pass keeps it. -/
theorem Tidied.pass (h : Tidied q t u) : Tidied q t (u.pass q) where
  tidy := tidy_pass q u
  vars_subset := List.Subset.trans (vars_pass_subset q u) h.vars_subset
  nodeCount_le := h.tidy.nodeCount_pass_le.trans h.nodeCount_le

theorem tidied_iterate_pass (q : Quantum) (t : Term) (k : Nat) :
    Tidied q t ((Term.pass q)^[k + 1] t) := by
  induction k with
  | zero => exact tidied_pass q t
  | succ k ih =>
    rw [Function.iterate_succ_apply']
    exact ih.pass

/-- **One pass establishes the invariant and a run keeps it.** Whatever the limit, if it admits a
pass at all, the answer of a run is tidy at every node, has no variable that the term does not
have, and has at most one node more for each successor and predecessor of the term. -/
theorem tidied_settleWithin (q : Quantum) (t : Term) :
    Tidied q t (t.pass q) ∧
    (∀ u, Tidied q t u → Tidied q t (u.pass q)) ∧
    (∀ limit : Int, 1 ≤ limit → Tidied q t (t.settleWithin q limit).1) ∧
    Tidied q t (t.canonical q) := by
  refine ⟨tidied_pass q t, fun u => Tidied.pass, ?_, ?_⟩
  · intro limit hlimit
    obtain ⟨k, hk⟩ : ∃ k, limit.toNat = k + 1 := Nat.exists_eq_add_of_le' (by omega)
    rw [fst_settleWithin, hk]
    exact tidied_iterate_pass q t k
  · rw [canonical_eq]
    exact tidied_iterate_pass q t 99

/-- The predecessor of a successor under a limit of one pass. The answer has as many nodes as it
may, and it is tidy but not normal: a second pass still finds a pair of involutions. -/
theorem tidied_settleWithin_pred :
    let t : Term := unary .pred (unary .succ (var ⟨"x", by decide⟩))
    let u := (t.settleWithin ⟨0⟩ 1).1
    (1 : Int) ≤ 1 ∧ Tidied ⟨0⟩ t u ∧ Tidied ⟨0⟩ t (u.pass ⟨0⟩) ∧
    u.nodeCount = 5 ∧ t.nodeCount + t.derivedCount = 5 ∧ ¬ Normal ⟨0⟩ u := by
  intro t u
  obtain ⟨-, hpass, hrun, -⟩ := tidied_settleWithin ⟨0⟩ t
  have htidied : Tidied ⟨0⟩ t u := hrun 1 (by decide)
  exact ⟨by decide, htidied, hpass u htidied, by decide, by decide, by decide⟩

end WordRing.Term
