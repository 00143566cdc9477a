import WordRing.Proofs.Canonical.Ground

/-!
# Weights along passes

As an operand a term counts with what it contributes when it is spliced. A pass over a node then
leaves the weight of the node what the weights of its operands come to after the pass, and so, pass
for pass, does a whole run: the node rewritten together with its operands weighs what the operands
come to when each is rewritten alone. One rule stands in the way. Folding a node of constants keeps
only the word that they come to, so either the weight puts on every constant the word it writes, or
no node of the operator may be folded on the way.

## Main definitions

* `w.spread op` — the weight of a term as an operand: the total of what it contributes.
* `w.advance op` — the weight of a term as an operand after one pass.
* `w.Respects op`, `w.Folds` — what the weight puts on identities and annihilators, on constants.
* `Term.FoldsNext q op t` — the next pass folds a node of constants.
-/
namespace WordRing

/-- The next pass finds nothing but constants under a node of the operator, and folds it. -/
def Term.FoldsNext (q : Quantum) (op : NaryOp) (t : Term) : Prop :=
  ∃ ts, t = nary op ts ∧ ts ≠ [] ∧ ∀ u ∈ ts, (u.pass q).isConst = true

theorem Term.FoldsNext.isConst_pass {q : Quantum} {op : NaryOp} {t : Term}
    (h : FoldsNext q op t) : (t.pass q).isConst = true := by
  obtain ⟨ts, rfl, hne, hconst⟩ := h
  have hne' : ts.map (pass q) ≠ [] := mt List.map_eq_nil_iff.1 hne
  rw [pass_nary, applyAll_nary_of_isConst op hne' (by simpa using hconst)]
  rfl

namespace Weight
open Term
variable {q : Quantum} {op : NaryOp} {t : Term} {ts : List Term} {w w' : Weight q}

/-- The weight puts on the identity and the annihilator of an operator the words they write. -/
structure Respects (w : Weight q) (op : NaryOp) : Prop where
  identity : w (const (op.identity q)) = q.word (op.identity q)
  annihilator : ∀ a ∈ op.annihilator? q, w (const a) = q.word a

/-- The weight puts on every constant the word it writes. -/
def Folds (w : Weight q) : Prop := ∀ n, w (const n) = q.word n

theorem Folds.respects (h : w.Folds) (op : NaryOp) : w.Respects op :=
  ⟨h _, fun a _ => h a⟩

/-! ## Operands that are spliced -/

/-- The weight of a term as an operand. -/
def spread (w : Weight q) (op : NaryOp) : Weight q :=
  ⟨fun t => w.total op (spliced op t), fun t => w.length_total op (spliced op t)⟩

theorem spread_apply (w : Weight q) (op : NaryOp) (t : Term) :
    w.spread op t = w.total op (spliced op t) := rfl

@[simp] theorem spread_const (w : Weight q) (op : NaryOp) (n : Int) :
    w.spread op (const n) = w (const n) := w.total_singleton op (const n)

theorem spread_of_not_nested (w : Weight q) (h : t.isNaryOf op = false) :
    w.spread op t = w t := by
  rw [spread_apply, spliced_of_not_nested h, total_singleton]

theorem total_flatMap_spliced (w : Weight q) (op : NaryOp) (ts : List Term) :
    w.total op (ts.flatMap (spliced op)) = (w.spread op).total op ts := by
  induction ts with
  | nil => rfl
  | cons t ts ih => rw [List.flatMap_cons, total_append, total_cons, ih, spread_apply]

/-- Arranging a node leaves it the weight of its operands. -/
theorem spread_arrange (hw : w.Respects op) (h : ∀ t ∈ ts, Tidy q t) :
    w.spread op (arrange q (nary op ts)) = (w.spread op).total op ts := by
  rw [← total_flatMap_spliced]
  rcases arrange_nary_eq_or op h with ⟨a, ha, hmem, heq⟩ | ⟨us, hperm, -, -, heq⟩
  · have hconst := hw.annihilator a ha
    rw [heq, spread_const, hconst, w.total_of_mem ha hmem hconst]
  · have hdropped : w.total op (us.filter (· ≠ const (op.identity q))) = w.total op us := by
      refine w.total_filter _ ?_
      intro t _ ht
      obtain rfl : t = const (op.identity q) := by simpa using ht
      exact hw.identity
    have hnested : ∀ t ∈ kept op (us.filter (· ≠ const (op.identity q))),
        t.isNaryOf op = false := by
      intro t ht
      obtain ⟨u, hu, htu⟩ := List.mem_flatMap.1
        (hperm.mem_iff.1 (List.mem_of_mem_filter ((kept_sublist op _).subset ht)))
      exact (tidy_of_mem_spliced (h u hu) htu).2
    rw [heq, ← w.total_perm hperm, ← hdropped, ← w.total_kept, spread_apply,
      spliced_rebuild hnested]
    split
    · next hnil => rw [hnil, total_singleton, total_nil, hw.identity]
    · rfl

/-- The rules leave a node the weight of its operands, unless they fold it. -/
theorem spread_applyAll_nary (hw : w.Respects op) (h : ∀ t ∈ ts, Tidy q t)
    (hopen : w.Folds ∨ ts = [] ∨ ∃ t ∈ ts, t.isConst = false) :
    w.spread op (Rule.applyAll q (nary op ts)) = (w.spread op).total op ts := by
  by_cases hnone : ts = [] ∨ ∃ t ∈ ts, t.isConst = false
  · have hfold : foldConstants q (nary op ts) = nary op ts := by
      rcases hnone with rfl | hnone
      · rfl
      · exact foldConstants_nary_of_exists hnone
    rw [applyAll_nary, hfold, spread_arrange hw h]
  · have hfolds := hopen.resolve_right hnone
    push Not at hnone
    obtain ⟨hne, hconst⟩ := hnone
    have hconst : ∀ t ∈ ts, t.isConst = true := fun t ht => Bool.not_eq_false _ ▸ hconst t ht
    have hagree : ∀ t ∈ ts, valueWeight q (fun _ => 0) t = w.spread op t := by
      intro t ht
      obtain ⟨n, rfl⟩ := isConst_eq_true.1 (hconst t ht)
      rw [spread_const, hfolds n]
      rfl
    rw [applyAll_nary_of_isConst op hne hconst, spread_const, hfolds, word_number, value_nary,
      total_eq, total_congr _ hagree]

/-! ## One pass -/

/-- The weight of a term as an operand after one pass. -/
def advance (w : Weight q) (op : NaryOp) : Weight q :=
  ⟨fun t => w.spread op (t.pass q), fun t => (w.spread op).length_word (t.pass q)⟩

theorem advance_apply (w : Weight q) (op : NaryOp) (t : Term) :
    w.advance op t = w.spread op (t.pass q) := rfl

theorem advance_const_of_lt (w : Weight q) (op : NaryOp) {n : Nat} (h : n < q.cycle) :
    w.advance op (const n) = w (const n) := by
  have hpass : (const (n : Int)).pass q = const n :=
    pass_of_normal (normal_const_of_lt h)
  rw [advance_apply, hpass, spread_const]

theorem Respects.advance (h : w.Respects op) : (w.advance op).Respects op := by
  refine ⟨?_, ?_⟩
  · rw [advance_const_of_lt w op op.identity_lt_cycle, h.identity]
  · intro a ha
    rw [advance_const_of_lt w op (op.annihilator_lt_cycle ha), h.annihilator a ha]

theorem Folds.advance (h : w.Folds) (op : NaryOp) : (w.advance op).Folds := by
  intro n
  have hpass : (const n).pass q = const (n % q.cycle) := rfl
  rw [advance_apply, hpass, spread_const, h, q.word_emod]

/-- **After a pass a term weighs what it came to with the pass ahead**, unless the pass folds it. -/
theorem spread_pass (hw : w.Respects op) (hopen : w.Folds ∨ ¬ FoldsNext q op t) :
    w.spread op (t.pass q) = (w.advance op).spread op t := by
  rcases spliced_eq_or op t with ⟨ts, rfl, -⟩ | ⟨hnested, -⟩
  · have hopen' : w.Folds ∨ ts.map (pass q) = [] ∨ ∃ u ∈ ts.map (pass q), u.isConst = false := by
      refine hopen.imp_right ?_
      intro hnot
      by_contra hall
      push Not at hall
      refine hnot ⟨ts, rfl, mt List.map_eq_nil_iff.2 hall.1, ?_⟩
      intro u hu
      exact Bool.not_eq_false _ ▸ hall.2 _ (List.mem_map_of_mem hu)
    rw [pass_nary, spread_applyAll_nary hw (tidy_map_pass q ts) hopen', spread_apply,
      spliced_nary_self, total, total, List.map_map]
    rfl
  · rw [spread_of_not_nested _ hnested, advance_apply]

/-- Where a pass ends in a constant, nothing but the weights of constants enters into what the term
came to. -/
theorem spread_advance_congr (hw : w.Respects op) (hw' : w'.Respects op)
    (hagree : ∀ n, w (const n) = w' (const n)) (hconst : (t.pass q).isConst = true) :
    (w.advance op).spread op t = (w'.advance op).spread op t := by
  by_cases hfolds : FoldsNext q op t
  · obtain ⟨ts, rfl, -, hall⟩ := hfolds
    rw [spread_apply, spread_apply, spliced_nary_self]
    refine total_congr _ ?_
    intro u hu
    obtain ⟨n, hn⟩ := isConst_eq_true.1 (hall u hu)
    rw [advance_apply, advance_apply, hn, spread_const, spread_const, hagree]
  · obtain ⟨n, hn⟩ := isConst_eq_true.1 hconst
    rw [← spread_pass hw (.inr hfolds), ← spread_pass hw' (.inr hfolds), hn, spread_const,
      spread_const, hagree]

/-! ## Runs -/

/-- The weight of a term as an operand after a number of passes. -/
def after (w : Weight q) (op : NaryOp) (k : Nat) : Weight q :=
  ⟨fun t => w.spread op ((pass q)^[k] t), fun _ => (w.spread op).length_word _⟩

theorem after_apply (w : Weight q) (op : NaryOp) (k : Nat) (t : Term) :
    w.after op k t = w.spread op ((pass q)^[k] t) := rfl

/-- What a node comes to with its next pass ahead is what its operands come to after it. -/
theorem spread_advance_iterate_pass (k : Nat) (hw : w.Respects op)
    (hopen : w.Folds ∨ (∀ t ∈ ts, ∀ j ≥ 1, ¬ FoldsNext q op ((pass q)^[j] t)) ∧
      ∀ j < k, ¬ FoldsNext q op ((pass q)^[j] (nary op ts))) :
    (w.advance op).spread op ((pass q)^[k] (nary op ts)) = (w.after op (k + 1)).total op ts := by
  induction k generalizing w with
  | zero =>
    rw [Function.iterate_zero_apply, spread_apply, spliced_nary_self]
    rfl
  | succ k ih =>
    have hadvance : (w.advance op).Folds ∨
        (∀ t ∈ ts, ∀ j ≥ 1, ¬ FoldsNext q op ((pass q)^[j] t)) ∧
          ∀ j < k, ¬ FoldsNext q op ((pass q)^[j] (nary op ts)) :=
      hopen.imp (fun h => h.advance op) fun h => ⟨h.1, fun j hj => h.2 j (Nat.lt_succ_of_lt hj)⟩
    have hroot : (w.advance op).Folds ∨ ¬ FoldsNext q op ((pass q)^[k] (nary op ts)) :=
      hopen.imp (fun h => h.advance op) fun h => h.2 k (Nat.lt_succ_self k)
    have hoperand : ∀ t ∈ ts, (w.advance op).after op (k + 1) t = w.after op (k + 2) t := by
      intro t ht
      have hsteady : w.Folds ∨ ¬ FoldsNext q op ((pass q)^[k + 1] t) :=
        hopen.imp_right fun h => h.1 t ht (k + 1) (Nat.succ_pos k)
      rw [after_apply, after_apply, Function.iterate_succ_apply' _ (k + 1), spread_pass hw hsteady]
    rw [Function.iterate_succ_apply', spread_pass hw.advance hroot, ih hw.advance hadvance,
      total_congr _ hoperand]

/-- **A node weighs what its operands come to when each is rewritten alone**, if the weight tells
constants by their words or no node of the operator is folded on the way. -/
theorem spread_iterate_pass (k : Nat) (hw : w.Respects op)
    (hopen : w.Folds ∨ (∀ t ∈ ts, ∀ j ≥ 1, ¬ FoldsNext q op ((pass q)^[j] t)) ∧
      ∀ j ≤ k, ¬ FoldsNext q op ((pass q)^[j] (nary op ts))) :
    w.spread op ((pass q)^[k + 1] (nary op ts)) = (w.after op (k + 1)).total op ts := by
  have hroot : w.Folds ∨ ¬ FoldsNext q op ((pass q)^[k] (nary op ts)) :=
    hopen.imp_right fun h => h.2 k (Nat.le_refl k)
  have hbefore := hopen.imp_right fun h => And.intro h.1 fun j hj => h.2 j (Nat.le_of_lt hj)
  rw [Function.iterate_succ_apply', spread_pass hw hroot, spread_advance_iterate_pass k hw hbefore]

end Weight

end WordRing
