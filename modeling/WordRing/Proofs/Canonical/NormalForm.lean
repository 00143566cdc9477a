import WordRing.Proofs.Canonical.Settle

/-!
# Canonical forms are normal forms

Two statements about whole runs. Termination: the number of passes is bounded by the size of the
term, so a limit above that bound is never what ends a run. Characterization: a pass leaves
exactly the normal terms alone, so a run stops at once exactly on these, and whatever a run
answers before its limit is normal.
-/
namespace WordRing.Term

/-! ## Termination -/

/-- **A run ends by itself.** After the first pass each pass changes nothing or loses nodes. Under
any limit above the number of nodes, successors and predecessors counted twice, a run answers
after `k` changing passes and one that confirms the result. -/
theorem settleWithin_settles (q : Quantum) (t : Term) :
    (∀ k, 1 ≤ k →
      ((pass q)^[k] t).pass q = (pass q)^[k] t ∨
        (((pass q)^[k] t).pass q).nodeCount < ((pass q)^[k] t).nodeCount) ∧
    ∀ limit : Int,
      t.nodeCount + (t.occurrences (.unary .succ) + t.occurrences (.unary .pred)) + 1 ≤ limit →
      ∃ k, k + 1 ≤
          t.nodeCount + (t.occurrences (.unary .succ) + t.occurrences (.unary .pred)) + 1 ∧
        SettlesAfter q t k ∧ t.settleWithin q limit = ((pass q)^[k] t, (k : Int) + 1) := by
  constructor
  · intro k hk
    obtain ⟨j, rfl⟩ := Nat.exists_eq_add_of_le' hk
    have htidy : Tidy q ((pass q)^[j + 1] t) := by
      rw [Function.iterate_succ_apply']
      exact tidy_pass q _
    exact (normal_or_nodeCount_pass_lt htidy).imp_left pass_of_normal
  · intro limit hlimit
    obtain ⟨k, hk, hsettles⟩ := exists_settlesAfter q t
    rw [derivedCount] at hk
    have hlt : (k : Int) < limit := by omega
    exact ⟨k, by omega, hsettles, by rw [settleWithin_eq hsettles, if_pos hlt]⟩

/-- A successor under a negation, at the first limit that is large enough: five nodes, one of them
a successor, seven passes at most. -/
theorem settleWithin_settles_succ :
    let x : Term := var ⟨"x", by decide⟩
    let t : Term := unary .neg (unary .succ (nary .xor [const 300, x]))
    (1 ≤ 2 ∧ (((pass ⟨0⟩)^[2] t).pass ⟨0⟩ = (pass ⟨0⟩)^[2] t ∨
      (((pass ⟨0⟩)^[2] t).pass ⟨0⟩).nodeCount < ((pass ⟨0⟩)^[2] t).nodeCount)) ∧
    ((5 : Nat) + ((1 : Nat) + (0 : Nat)) + 1 : Int) ≤ 7 ∧
    ∃ k, k + 1 ≤ 5 + (1 + 0) + 1 ∧ SettlesAfter ⟨0⟩ t k ∧
      t.settleWithin ⟨0⟩ 7 = ((pass ⟨0⟩)^[k] t, (k : Int) + 1) := by
  intro x t
  have h := settleWithin_settles ⟨0⟩ t
  exact ⟨⟨by decide, h.1 2 (by decide)⟩, by decide, h.2 7 (by decide)⟩

/-! ## Characterization -/

/-- **The canonical forms are the normal forms.** A pass changes every term but the normal ones; a
run whose limit admits two passes stops after one exactly on these; and what a run answers before
its limit is normal. -/
theorem pass_eq_self_iff_normal (q : Quantum) (t : Term) :
    (t.pass q = t ↔ Normal q t) ∧
    (∀ limit : Int, 1 < limit →
      (t.settleWithin q limit = (t, 1) ↔ Normal q t) ∧
      ((t.settleWithin q limit).2 = 1 ↔ Normal q t)) ∧
    ∀ limit : Int, (t.settleWithin q limit).2 < limit →
      Normal q (t.settleWithin q limit).1 := by
  obtain ⟨k, -, hsettles⟩ := exists_settlesAfter q t
  refine ⟨normal_iff.symm, ?_, ?_⟩
  · intro limit hlimit
    have hcount : (t.settleWithin q limit).2 = 1 → Normal q t := by
      intro hone
      rw [settleWithin_eq hsettles] at hone
      split at hone
      · have hzero : k = 0 := by
          have : (k : Int) + 1 = 1 := hone
          omega
        rw [hzero] at hsettles
        exact hsettles.normal
      · have : limit = 1 := hone
        omega
    have hnormal : Normal q t → t.settleWithin q limit = (t, 1) := by
      intro hnormal
      have hzero := settlesAfter_zero.2 (pass_of_normal hnormal)
      have hlt : ((0 : Nat) : Int) < limit := by omega
      rw [settleWithin_eq hzero, if_pos hlt]
      rfl
    exact ⟨⟨fun h => hcount (by rw [h]), hnormal⟩, ⟨hcount, fun h => by rw [hnormal h]⟩⟩
  · intro limit hcount
    rw [settleWithin_eq hsettles] at hcount ⊢
    split at hcount
    · next hlt =>
      rw [if_pos hlt]
      exact hsettles.normal
    · exact absurd hcount (Int.lt_irrefl limit)

/-- A successor of a constant takes three of at most four passes; its result takes one of two. -/
theorem pass_eq_self_iff_normal_succ :
    let t : Term := unary .succ (const 5)
    (1 < (2 : Int) ∧ (t.settleWithin ⟨0⟩ 2 = (t, 1) ↔ Normal ⟨0⟩ t) ∧
      ((t.settleWithin ⟨0⟩ 2).2 = 1 ↔ Normal ⟨0⟩ t)) ∧
    (t.settleWithin ⟨0⟩ 4).2 < 4 ∧ Normal ⟨0⟩ (t.settleWithin ⟨0⟩ 4).1 := by
  intro t
  have h := pass_eq_self_iff_normal ⟨0⟩ t
  have hcount : (t.settleWithin ⟨0⟩ 4).2 < 4 := by decide
  exact ⟨⟨by decide, h.2.1 2 (by decide)⟩, hcount, h.2.2 4 hcount⟩

end WordRing.Term
