import Mathlib.Data.List.Basic
import Mathlib.Data.List.Nodup
import WordRing.Canonical.Rule
import WordRing.Proofs.Written

/-!
# Operand lists

The order of operands is total, and antisymmetric because writing tells terms apart, so sorting
has one result and leaves a sorted list alone. Cancelling copies by their writings is the same as
cancelling equal terms: `kept` says on the terms themselves which operands remain.

## Main definitions

* `Precedes width s t` — `s` stands strictly before `t`.
* `distinct ts` — the operands without their repetitions.
* `kept op ts` — the operands that a node of an operator keeps.
-/
namespace WordRing.Term
variable {width : Nat} {s t u : Term} {ts : List Term}

/-! ## Order -/

theorem before_of_isConst_eq (h : s.isConst = t.isConst) :
    before width s t = Text.le (s.text width) (t.text width) := if_pos h

theorem before_of_isConst_ne (h : s.isConst ≠ t.isConst) : before width s t = s.isConst :=
  if_neg h

theorem before_total (s t : Term) : (before width s t || before width t s) = true := by
  rw [Bool.or_eq_true]
  by_cases h : s.isConst = t.isConst
  · rw [before_of_isConst_eq h, before_of_isConst_eq h.symm]
    exact Text.le_total _ _
  · rw [before_of_isConst_ne h, before_of_isConst_ne (Ne.symm h)]
    cases hs : s.isConst <;> cases ht : t.isConst <;> simp_all

theorem before_trans (hst : before width s t = true) (htu : before width t u = true) :
    before width s u = true := by
  by_cases h : s.isConst = t.isConst
  · by_cases h' : t.isConst = u.isConst
    · rw [before_of_isConst_eq h] at hst
      rw [before_of_isConst_eq h'] at htu
      rw [before_of_isConst_eq (h.trans h')]
      exact Text.le_trans hst htu
    · rw [before_of_isConst_ne h'] at htu
      rwa [before_of_isConst_ne (h ▸ h'), h]
  · rw [before_of_isConst_ne h] at hst
    by_cases h' : t.isConst = u.isConst
    · rwa [before_of_isConst_ne (h' ▸ h)]
    · rw [before_of_isConst_ne h'] at htu
      exact absurd (hst.trans htu.symm) h

theorem before_antisymm (hst : before width s t = true) (hts : before width t s = true) :
    s = t := by
  by_cases h : s.isConst = t.isConst
  · rw [before_of_isConst_eq h] at hst
    rw [before_of_isConst_eq h.symm] at hts
    exact text_inj.1 (Text.le_antisymm hst hts)
  · rw [before_of_isConst_ne h] at hst
    rw [before_of_isConst_ne (Ne.symm h)] at hts
    exact absurd (hst.trans hts.symm) h

/-- `s` stands strictly before `t`: a constant before what is none, and otherwise by writing. -/
def Precedes (width : Nat) (s t : Term) : Prop :=
  before width s t = true ∧ s.text width ≠ t.text width

instance (width : Nat) : DecidableRel (Precedes width) := fun _ _ => instDecidableAnd

theorem precedes_iff : Precedes width s t ↔ before width s t = true ∧ s ≠ t := by
  rw [Precedes, Ne, text_inj]

/-- Strictly increasing is sorted without repetition. -/
theorem pairwise_precedes_iff :
    ts.Pairwise (Precedes width) ↔ ts.Pairwise (before width · ·) ∧ ts.Nodup := by
  have hrel : Precedes width = fun s t => before width s t = true ∧ s ≠ t := by
    funext s t
    exact propext precedes_iff
  rw [hrel, List.pairwise_and_iff, List.Nodup]

theorem pairwise_mergeSort_before (ts : List Term) :
    (ts.mergeSort (before width)).Pairwise (before width · ·) :=
  @List.pairwise_mergeSort _ (before width) (fun _ _ _ => before_trans) before_total ts

/-- Sorting has one result: a sorted arrangement of the operands is what it gives. -/
theorem mergeSort_before_eq {us : List Term} (hperm : ts.Perm us)
    (hsorted : us.Pairwise (before width · ·)) : ts.mergeSort (before width) = us :=
  ((List.mergeSort_perm ts (before width)).trans hperm).eq_of_pairwise
    (fun _ _ _ _ => before_antisymm) (pairwise_mergeSort_before ts) hsorted

/-! ## Repetitions -/

/-- The operands without their repetitions; of equal ones the first remains. -/
def distinct : List Term → List Term
  | [] => []
  | t :: ts => t :: (distinct ts).filter (· ≠ t)

@[simp] theorem mem_distinct : t ∈ distinct ts ↔ t ∈ ts := by
  induction ts with
  | nil => simp [distinct]
  | cons u ts ih =>
    by_cases h : t = u
    · simp [distinct, h]
    · simp [distinct, h, ih]

theorem nodup_distinct (ts : List Term) : (distinct ts).Nodup := by
  induction ts with
  | nil => exact List.nodup_nil
  | cons u ts ih =>
    rw [distinct, List.nodup_cons]
    exact ⟨by simp, ih.filter _⟩

theorem distinct_sublist (ts : List Term) : (distinct ts).Sublist ts := by
  induction ts with
  | nil => exact List.Sublist.refl []
  | cons u ts ih => exact (List.filter_sublist.trans ih).cons_cons u

theorem distinct_eq_self (h : ts.Nodup) : distinct ts = ts := by
  induction ts with
  | nil => rfl
  | cons u ts ih =>
    obtain ⟨hu, hts⟩ := List.nodup_cons.1 h
    have hne : ∀ t ∈ ts, decide (t ≠ u) = true := by
      intro t ht
      exact decide_eq_true fun heq => hu (heq ▸ ht)
    rw [distinct, ih hts, List.filter_eq_self.2 hne]

/-- The operands that a node keeps: under exclusive or those that occur an odd number of times,
under the others one of each. -/
def kept (op : NaryOp) (ts : List Term) : List Term :=
  match op with
  | .xor => (distinct ts).filter fun t => ts.count t % 2 = 1
  | _ => distinct ts

theorem kept_sublist (op : NaryOp) (ts : List Term) : (kept op ts).Sublist ts := by
  cases op with
  | xor => exact List.filter_sublist.trans (distinct_sublist ts)
  | and => exact distinct_sublist ts
  | or => exact distinct_sublist ts

theorem nodup_kept (op : NaryOp) (ts : List Term) : (kept op ts).Nodup := by
  cases op with
  | xor => exact (nodup_distinct ts).filter _
  | and => exact nodup_distinct ts
  | or => exact nodup_distinct ts

theorem kept_eq_self (op : NaryOp) (h : ts.Nodup) : kept op ts = ts := by
  cases op with
  | xor =>
    have hodd : ∀ t ∈ ts, decide (ts.count t % 2 = 1) = true := by
      intro t ht
      rw [List.count_eq_one_of_mem h ht]
      rfl
    rw [kept, distinct_eq_self h, List.filter_eq_self.2 hodd]
  | and => exact distinct_eq_self h
  | or => exact distinct_eq_self h

theorem kept_ne_nil {op : NaryOp} (hop : op ≠ .xor) (hne : ts ≠ []) : kept op ts ≠ [] := by
  obtain ⟨t, ts, rfl⟩ := List.exists_cons_of_ne_nil hne
  cases op with
  | xor => exact absurd rfl hop
  | and => exact List.cons_ne_nil _ _
  | or => exact List.cons_ne_nil _ _

theorem mem_kept_xor : t ∈ kept .xor ts ↔ ts.count t % 2 = 1 := by
  rw [kept, List.mem_filter, mem_distinct, decide_eq_true_iff]
  refine and_iff_right_of_imp ?_
  intro hodd
  by_contra hmem
  rw [List.count_eq_zero_of_not_mem hmem] at hodd
  simp at hodd

theorem mem_kept {op : NaryOp} (hop : op ≠ .xor) : t ∈ kept op ts ↔ t ∈ ts := by
  cases op with
  | xor => exact absurd rfl hop
  | and => exact mem_distinct
  | or => exact mem_distinct

/-- Under exclusive or one more operand takes away its like, if that is kept, and is kept itself
otherwise. -/
theorem kept_xor_cons (t : Term) (ts : List Term) :
    kept .xor (t :: ts) =
      if t ∈ kept .xor ts then (kept .xor ts).filter (· ≠ t) else t :: kept .xor ts := by
  have hothers : ((distinct ts).filter (· ≠ t)).filter (fun u => (t :: ts).count u % 2 = 1) =
      (kept .xor ts).filter (· ≠ t) := by
    rw [kept, List.filter_filter, List.filter_filter]
    refine List.filter_congr ?_
    intro u _
    by_cases h : u = t
    · simp [h]
    · simp [h, List.count_cons_of_ne (Ne.symm h)]
  have hcount : (t :: ts).count t = ts.count t + 1 := List.count_cons_self
  by_cases hmem : t ∈ kept .xor ts
  · have heven : ¬ (t :: ts).count t % 2 = 1 := by
      have := mem_kept_xor.1 hmem
      omega
    rw [if_pos hmem, kept, distinct, List.filter_cons_of_neg (by simpa using heven), hothers]
  · have hodd : (t :: ts).count t % 2 = 1 := by
      have := mt mem_kept_xor.2 hmem
      omega
    have hothers_eq : (kept .xor ts).filter (· ≠ t) = kept .xor ts :=
      List.filter_eq_self.2 fun u hu => decide_eq_true fun heq => hmem (heq ▸ hu)
    rw [if_neg hmem, kept, distinct, List.filter_cons_of_pos (by simpa using hodd), hothers,
      hothers_eq]

/-! ## Copies by writing -/

theorem firsts_entries (ts : List Term) :
    firsts (entries width ts) = entries width (distinct ts) := by
  induction ts with
  | nil => rfl
  | cons u ts ih =>
    have hcons : entries width (u :: ts) = (u.text width, u) :: entries width ts := rfl
    rw [hcons, firsts, ih, distinct, entries, entries, List.map_cons, List.filter_map]
    simp [Function.comp_def, text_inj]

theorem copies_entries (t : Term) (ts : List Term) :
    copies (t.text width) (entries width ts) = ts.count t := by
  rw [copies, entries, List.countP_map, List.count]
  refine List.countP_congr ?_
  intro u _
  simp [text_inj]

/-- Cancelling copies keeps the operands that `kept` names. -/
theorem cancelCopies_nary (q : Quantum) (op : NaryOp) (ts : List Term) :
    cancelCopies q (nary op ts) = rebuild op 0 (kept op ts) := by
  have hsnd (us : List Term) : (entries q.width us).map Prod.snd = us := by
    simp [entries, Function.comp_def]
  cases op with
  | xor =>
    have hodd (us : List Term) :
        ((entries q.width us).filter fun e => copies e.1 (entries q.width ts) % 2 = 1).map
          Prod.snd = us.filter fun t => ts.count t % 2 = 1 := by
      conv_lhs => rw [entries.eq_def q.width us, List.filter_map, List.map_map]
      simp [Function.comp_def, copies_entries]
    simp only [cancelCopies, kept, firsts_entries, hodd]
  | and => simp only [cancelCopies, kept, firsts_entries, hsnd]
  | or => simp only [cancelCopies, kept, firsts_entries, hsnd]

end WordRing.Term
