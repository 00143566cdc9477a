import Mathlib.Logic.Function.Iterate
import WordRing.Proofs.Canonical.Size

/-!
# Passes settle on normal forms

The terms that a pass leaves alone are exactly the normal ones. Every term gets there: a first
pass adds no more nodes than there are successors and predecessors, and from then on each pass
that changes anything loses a node. `SettlesAfter q t k` says that `t` takes `k` changing passes,
and `settleWithin_eq` says what a run under any limit answers in terms of it.
-/
namespace WordRing.Term
variable {q : Quantum} {t : Term} {k : Nat}

/-! ## Fixed points of a pass -/

theorem normal_of_pass_eq_self (h : t.pass q = t) : Normal q t := by
  have htidy := tidy_pass q t
  rw [h] at htidy
  rcases normal_or_nodeCount_pass_lt htidy with hnormal | hlt
  · exact hnormal
  · rw [h] at hlt
    exact absurd hlt (Nat.lt_irrefl _)

theorem normal_iff : Normal q t ↔ t.pass q = t := ⟨pass_of_normal, normal_of_pass_eq_self⟩

theorem tidy_iterate_pass (q : Quantum) (t : Term) (hk : k ≥ 1) : Tidy q ((pass q)^[k] t) := by
  obtain ⟨j, rfl⟩ := Nat.exists_eq_add_of_le' hk
  rw [Function.iterate_succ_apply']
  exact tidy_pass q _

/-! ## Number of passes -/

/-- The first `k` passes each change the term and the next one does not. -/
structure SettlesAfter (q : Quantum) (t : Term) (k : Nat) : Prop where
  settled : ((pass q)^[k] t).pass q = (pass q)^[k] t
  changing : ∀ j < k, ((pass q)^[j] t).pass q ≠ (pass q)^[j] t

theorem settlesAfter_zero : SettlesAfter q t 0 ↔ t.pass q = t :=
  ⟨fun h => h.settled, fun h => ⟨h, fun _ hj => absurd hj (Nat.not_lt_zero _)⟩⟩

theorem settlesAfter_succ :
    SettlesAfter q t (k + 1) ↔ t.pass q ≠ t ∧ SettlesAfter q (t.pass q) k := by
  constructor
  · rintro ⟨hsettled, hchanging⟩
    refine ⟨hchanging 0 (Nat.succ_pos k), hsettled, ?_⟩
    intro j hj
    exact hchanging (j + 1) (Nat.succ_lt_succ hj)
  · rintro ⟨hchange, hsettled, hchanging⟩
    refine ⟨hsettled, ?_⟩
    intro j hj
    cases j with
    | zero => exact hchange
    | succ j => exact hchanging j (Nat.lt_of_succ_lt_succ hj)

theorem exists_settlesAfter_of_tidy (h : Tidy q t) : ∃ k < t.nodeCount, SettlesAfter q t k := by
  induction hsize : t.nodeCount using Nat.strong_induction_on generalizing t with
  | _ size ih =>
    rcases normal_or_nodeCount_pass_lt h with hnormal | hlt
    · exact ⟨0, hsize ▸ nodeCount_pos t, settlesAfter_zero.2 (pass_of_normal hnormal)⟩
    · rw [hsize] at hlt
      obtain ⟨k, hk, hsettles⟩ := ih _ hlt (tidy_pass q t) rfl
      have hchange : t.pass q ≠ t := by
        intro heq
        rw [heq, hsize] at hlt
        exact absurd hlt (Nat.lt_irrefl _)
      exact ⟨k + 1, by omega, settlesAfter_succ.2 ⟨hchange, hsettles⟩⟩

/-- **Every term settles**, after no more changing passes than it has nodes, successors and
predecessors counted twice. -/
theorem exists_settlesAfter (q : Quantum) (t : Term) :
    ∃ k ≤ t.nodeCount + t.derivedCount, SettlesAfter q t k := by
  by_cases hfixed : t.pass q = t
  · exact ⟨0, Nat.zero_le _, settlesAfter_zero.2 hfixed⟩
  · obtain ⟨k, hk, hsettles⟩ := exists_settlesAfter_of_tidy (tidy_pass q t)
    have hsize := nodeCount_pass_le q t
    exact ⟨k + 1, by omega, settlesAfter_succ.2 ⟨hfixed, hsettles⟩⟩

theorem SettlesAfter.normal (h : SettlesAfter q t k) : Normal q ((pass q)^[k] t) :=
  normal_of_pass_eq_self h.settled

/-! ## Runs under a limit -/

/-- A run under a positive limit stops where a pass leaves the term itself alone, as writing tells
terms apart. -/
theorem settle_succ (q : Quantum) (limit : Nat) (t : Term) :
    settle q (limit + 1) t =
      if t.pass q = t then (t, 1)
      else ((settle q limit (t.pass q)).1, (settle q limit (t.pass q)).2 + 1) := by
  by_cases hfixed : t.pass q = t
  · simp [settle, hfixed]
  · rw [if_neg hfixed, settle, if_neg (mt text_inj.1 hfixed)]

/-- A run answers with the term after as many passes as its limit admits: where it stops earlier,
the passes it leaves out would change nothing. -/
theorem fst_settle (q : Quantum) (limit : Nat) (t : Term) :
    (settle q limit t).1 = (pass q)^[limit] t := by
  induction limit generalizing t with
  | zero => rfl
  | succ limit ih =>
    rw [settle_succ]
    by_cases hfixed : t.pass q = t
    · rw [if_pos hfixed, Function.iterate_fixed hfixed]
    · rw [if_neg hfixed]
      exact ih (t.pass q)

theorem fst_settleWithin (q : Quantum) (limit : Int) (t : Term) :
    (t.settleWithin q limit).1 = (pass q)^[limit.toNat] t := fst_settle q limit.toNat t

/-- The canonical form is the term after as many passes as canonicalization admits. -/
theorem canonical_eq (q : Quantum) (t : Term) : t.canonical q = (pass q)^[passLimit] t :=
  fst_settle q passLimit t

theorem settle_eq (h : SettlesAfter q t k) (limit : Nat) :
    settle q limit t =
      if k < limit then ((pass q)^[k] t, k + 1) else ((pass q)^[limit] t, limit) := by
  induction limit generalizing t k with
  | zero => rfl
  | succ limit ih =>
    cases k with
    | zero =>
      have hfixed : t.pass q = t := h.settled
      simp [settle_succ, hfixed]
    | succ k =>
      obtain ⟨hchange, hnext⟩ := settlesAfter_succ.1 h
      rw [settle_succ, if_neg hchange, ih hnext]
      by_cases hlt : k < limit
      · rw [if_pos hlt, if_pos (Nat.succ_lt_succ hlt)]
        rfl
      · rw [if_neg hlt, if_neg (mt Nat.lt_of_succ_lt_succ hlt)]
        rfl

/-- What a run answers: the settled term with the confirming pass counted, if the limit admits
it, and otherwise the term at the limit with the limit itself. -/
theorem settleWithin_eq (h : SettlesAfter q t k) (limit : Int) :
    t.settleWithin q limit =
      if (k : Int) < limit then ((pass q)^[k] t, (k : Int) + 1)
      else ((pass q)^[limit.toNat] t, limit) := by
  rw [settleWithin, settle_eq h]
  by_cases hlt : (k : Int) < limit
  · have hnat : k < limit.toNat := by omega
    have hpos : ¬ limit < 0 := by omega
    simp [hlt, hnat, hpos]
  · have hnat : ¬ k < limit.toNat := by omega
    by_cases hneg : limit < 0
    · simp [hlt, hnat, hneg]
    · have hcast : (limit.toNat : Int) = limit := Int.toNat_of_nonneg (by omega)
      simp [hlt, hnat, hneg, hcast]

/-! ## Comparing in writing -/

/-- **Terms may be compared in writing.** At every width a term is told from every other by how it
is written, whatever its constants, its names and its numbers of operands. So the order of operands
leaves no two of them tied and sorted operands show exactly which operands there were, cancelling
counts the copies of the operands themselves, and the test that ends a run is whether the pass
changed the term. -/
theorem written_inj (width : Nat) (q : Quantum) :
    (∀ s t : Term, s.written width = t.written width ↔ s = t) ∧
    (∀ s t, before width s t = true ∧ before width t s = true ↔ s = t) ∧
    (∀ op ts us, sortOperands q (nary op ts) = sortOperands q (nary op us) ↔ ts.Perm us) ∧
    (∀ t ts, copies (t.text width) (entries width ts) = ts.count t) ∧
    ∀ limit t, settle q (limit + 1) t =
      if t.pass q = t then (t, 1)
      else ((settle q limit (t.pass q)).1, (settle q limit (t.pass q)).2 + 1) := by
  refine ⟨?_, ?_, ?_, copies_entries, settle_succ q⟩
  · intro s t
    rw [written, written, String.ofList_inj, text_inj]
  · intro s t
    refine ⟨fun h => before_antisymm h.1 h.2, ?_⟩
    rintro rfl
    have htotal : (before width s s || before width s s) = true := before_total s s
    simpa using htotal
  · intro op ts us
    have hsort (ts : List Term) : sortOperands q (nary op ts) =
      nary op (ts.mergeSort (before q.width)) := rfl
    rw [hsort, hsort, nary.injEq, and_iff_right rfl]
    constructor
    · intro h
      exact (List.mergeSort_perm ts _).symm.trans (h ▸ List.mergeSort_perm us _)
    · intro h
      exact mergeSort_before_eq (h.trans (List.mergeSort_perm us _).symm)
        (pairwise_mergeSort_before us)

end WordRing.Term
