import WordRing.Proofs.Canonical.Joined
import WordRing.Proofs.Canonical.Readout

/-!
# Nodes whose operands are not folded

A node of an operator that becomes a constant keeps nothing of its operands but a word. Where this
happens to no operand that another node of the operator has taken over, a node weighs what its
canonical operands come to, for all weights that respect the operator, as long as it does not
become a constant itself; and under an operator with an annihilator the operands tell whether it
does.

## Main definitions

* `Steady q op ts` — no operand is folded after it has become a node of the operator.
* `Undecided q op ts` — no operand becomes an annihilator, and not all become constants.
-/
namespace WordRing.Term
open Weight
variable {q : Quantum} {op : NaryOp} {t : Term} {ts : List Term}

/-! ## Passes that fold a node -/

/-- No node is folded on the way to a canonical form that is no constant. -/
theorem not_foldsNext_of_open (h : Normal q (t.canonical q))
    (hopen : (t.canonical q).isConst = false) (k : Nat) :
    ¬ FoldsNext q op ((pass q)^[k] t) := by
  intro hfolds
  have hconst := hfolds.isConst_pass
  rw [← Function.iterate_succ_apply' (pass q)] at hconst
  rw [isConst_canonical_of_iterate h hconst] at hopen
  exact nomatch hopen

theorem not_foldsNext_of_normal (h : Normal q t) : ¬ FoldsNext q op t := by
  rintro ⟨ts, rfl, hne, hconst⟩
  obtain ⟨-, u, hu, hopen⟩ : NormalNode q (nary op ts) := h.root
  have hnormal : Normal q u := ((everywhere_nary op ts).1 h).2 u hu
  have hfolded := hconst u hu
  rw [pass_of_normal hnormal, hopen] at hfolded
  exact nomatch hfolded

/-! ## Nodes on normal operands -/

/-- **A node on normal operands is normal after two passes.** -/
theorem normal_pass_pass_nary (op : NaryOp) (h : ∀ t ∈ ts, Normal q t) :
    Normal q (((nary op ts).pass q).pass q) := by
  have hroot := tidy_pass q (nary op ts)
  have hoperands : ∀ u ∈ spliced op ((nary op ts).pass q), Normal q u := by
    intro u hu
    have htidy : Tidy q u := (tidy_of_mem_spliced hroot hu).1
    rw [pass_nary, map_pass_of_normal h] at hu
    rcases mem_spliced_applyAll_nary (fun t ht => (h t ht).tidy) hu with hconst | hmem
    · exact normal_of_isConst htidy hconst
    · obtain ⟨t, ht, hut⟩ := List.mem_flatMap.1 hmem
      exact normal_of_mem_spliced (h t ht) hut
  generalize (nary op ts).pass q = t at hroot hoperands
  rcases spliced_eq_or op t with ⟨us, rfl, heq⟩ | ⟨-, heq⟩
  · rw [heq] at hoperands
    by_cases hopen : ∃ u ∈ us, u.isConst = false
    · have hnormal : Normal q (nary op us) :=
        (everywhere_nary op us).2 ⟨⟨hroot.root, hopen⟩, hoperands⟩
      rwa [pass_of_normal hnormal]
    · push Not at hopen
      have hfolds : FoldsNext q op (nary op us) := by
        refine ⟨us, rfl, Arranged.ne_nil hroot.root, ?_⟩
        intro u hu
        rw [pass_of_normal (hoperands u hu)]
        exact eq_true_of_ne_false (hopen u hu)
      exact normal_of_isConst (tidy_pass q _) hfolds.isConst_pass
  · have hnormal : Normal q t := hoperands t (heq ▸ List.mem_singleton_self t)
    rwa [pass_of_normal hnormal]

theorem normal_canonical_nary (op : NaryOp) (h : ∀ t ∈ ts, Normal q t) :
    Normal q ((nary op ts).canonical q) :=
  normal_canonical_of_iterate (k := 2) (by decide) (normal_pass_pass_nary op h)

/-! ## Operands rewritten alone -/

/-- The operands settle within the limit, and none that is a node of the operator after some passes
becomes a constant. -/
structure Steady (q : Quantum) (op : NaryOp) (ts : List Term) : Prop where
  normal : ∀ t ∈ ts, Normal q (t.canonical q)
  not_folded : ∀ t ∈ ts, (t.canonical q).isConst = true →
    ∀ k ≥ 1, ((pass q)^[k] t).isNaryOf op = false

theorem Steady.not_foldsNext (h : Steady q op ts) (ht : t ∈ ts) {k : Nat} (hk : k ≥ 1) :
    ¬ FoldsNext q op ((pass q)^[k] t) := by
  cases hopen : (t.canonical q).isConst with
  | true =>
    rintro ⟨us, heq, -⟩
    have hnested := h.not_folded t ht hopen k hk
    rw [heq] at hnested
    simp [isNaryOf] at hnested
  | false => exact not_foldsNext_of_open (h.normal t ht) hopen k

/-- Canonical operands are steady. -/
theorem steady_map_canonical (h : ∀ t ∈ ts, Normal q (t.canonical q)) :
    Steady q op (ts.map (canonical q)) := by
  refine ⟨?_, ?_⟩
  · intro u hu
    obtain ⟨t, ht, rfl⟩ := List.mem_map.1 hu
    rw [canonical_of_normal (h t ht)]
    exact h t ht
  · intro u hu hconst k _
    obtain ⟨t, ht, rfl⟩ := List.mem_map.1 hu
    rw [canonical_of_normal (h t ht)] at hconst
    rw [Function.iterate_fixed (pass_of_normal (h t ht))]
    obtain ⟨n, hn⟩ := isConst_eq_true.1 hconst
    rw [hn]
    rfl

theorem after_passLimit (w : Weight q) (op : NaryOp) (t : Term) :
    w.after op passLimit t = w.spread op (t.canonical q) := by
  rw [after_apply, canonical_eq]

/-- What canonical operands come to does not change when they are canonicalized again. -/
theorem total_after_map_canonical (w : Weight q) (op : NaryOp)
    (h : ∀ t ∈ ts, Normal q (t.canonical q)) :
    (w.after op passLimit).total op (ts.map (canonical q)) =
      (w.after op passLimit).total op ts := by
  have hmap : (ts.map (canonical q)).map (w.after op passLimit) =
      ts.map (w.after op passLimit) := by
    rw [List.map_map]
    refine List.map_congr_left ?_
    intro t ht
    rw [Function.comp_apply, after_passLimit, after_passLimit, canonical_of_normal (h t ht)]
  rw [Weight.total, hmap, Weight.total]

/-- A weight that tells constants by their words sees no difference between canonicalizing operands
first and not. -/
theorem spread_canonical_map {w : Weight q} (hw : w.Folds) (op : NaryOp)
    (h : ∀ t ∈ ts, Normal q (t.canonical q)) :
    w.spread op ((nary op ts).canonical q) =
      w.spread op ((nary op (ts.map (canonical q))).canonical q) := by
  have hspread (ts : List Term) : w.spread op ((nary op ts).canonical q) =
      (w.after op passLimit).total op ts := by
    have hrun := @spread_iterate_pass q op ts w (passLimit - 1) (hw.respects op) (.inl hw)
    rwa [Nat.sub_add_cancel passLimit_pos, ← canonical_eq] at hrun
  rw [hspread, hspread, total_after_map_canonical w op h]

/-- The same for a respecting weight, if the canonical form is no constant and no operand is folded
as a node of the operator. -/
theorem Steady.spread_canonical {w : Weight q} (h : Steady q op ts) (hw : w.Respects op)
    (hnormal : Normal q ((nary op ts).canonical q))
    (hopen : ((nary op ts).canonical q).isConst = false) :
    w.spread op ((nary op ts).canonical q) = (w.after op passLimit).total op ts := by
  have hrun := spread_iterate_pass (passLimit - 1) hw (.inr
    ⟨fun t ht k hk => h.not_foldsNext ht hk, fun k _ => not_foldsNext_of_open hnormal hopen k⟩)
  rwa [Nat.sub_add_cancel passLimit_pos, ← canonical_eq] at hrun

/-! ## When a node becomes a constant -/

/-- No operand becomes an annihilator, and one at least does not become a constant. -/
structure Undecided (q : Quantum) (op : NaryOp) (ts : List Term) : Prop where
  ne_annihilator : ∀ t ∈ ts, ∀ a ∈ op.annihilator? q, t.canonical q ≠ const a
  exists_open : ∃ t ∈ ts, (t.canonical q).isConst = false

/-- What becomes no annihilator shows none on the way. -/
theorem spread_annihilators_iterate_pass (h : Normal q (t.canonical q))
    (hne : ∀ a ∈ op.annihilator? q, t.canonical q ≠ const a) {k : Nat} (hk : k ≥ 1) :
    (annihilators q op).spread op ((pass q)^[k] t) = q.word (op.identity q) := by
  have htidy := tidy_iterate_pass q t hk
  cases hconst : ((pass q)^[k] t).isConst with
  | false => exact spread_annihilators_of_open htidy hconst
  | true =>
    have hnormal := normal_of_isConst htidy hconst
    have hsettled : (pass q)^[k] t = t.canonical q := by
      rw [← iterate_pass_canonical h k, Function.iterate_fixed (pass_of_normal hnormal)]
    obtain ⟨n, hn⟩ := isConst_eq_true.1 hconst
    rw [hn, spread_const, annihilators_of_forall_ne]
    intro a ha
    rw [← hn, hsettled]
    exact hne a ha

/-- A steady operand that does not become a constant shows something open all the way. -/
theorem Steady.spread_opens_iterate_pass (h : Steady q op ts) (hop : op ≠ .xor) (ht : t ∈ ts)
    (hopen : (t.canonical q).isConst = false) {k : Nat} (hk : k ≥ 1) :
    (opens q op).spread op ((pass q)^[k] t) = op.mark q := by
  refine spread_opens_of_open hop (tidy_iterate_pass q t hk) ?_ (h.not_foldsNext ht hk)
  by_contra hconst
  rw [isConst_canonical_of_iterate (h.normal t ht) (eq_true_of_ne_false hconst)] at hopen
  exact nomatch hopen

/-- **An undecided node never becomes a constant.** -/
theorem Steady.isConst_iterate_pass_eq_false (h : Steady q op ts) (hop : op ≠ .xor)
    (hundecided : Undecided q op ts) (k : Nat) :
    ((pass q)^[k + 1] (nary op ts)).isConst = false := by
  induction k using Nat.strong_induction_on with
  | _ k ih =>
    by_contra hconst
    rw [Bool.not_eq_false, Function.iterate_succ_apply'] at hconst
    -- Before the pass that gave the constant nothing was folded at the root.
    have hsteady : ∀ j < k, ¬ FoldsNext q op ((pass q)^[j] (nary op ts)) := by
      intro j hj hfolds
      have hfolded := hfolds.isConst_pass
      rw [← Function.iterate_succ_apply' (pass q), ih j hj] at hfolded
      exact nomatch hfolded
    have hopen : (∀ t ∈ ts, ∀ j ≥ 1, ¬ FoldsNext q op ((pass q)^[j] t)) ∧
        ∀ j < k, ¬ FoldsNext q op ((pass q)^[j] (nary op ts)) :=
      ⟨fun t ht j hj => h.not_foldsNext ht hj, hsteady⟩
    -- So the operands show an annihilator if they show anything open, and they do.
    have hagree : ((annihilators q op).after op (k + 1)).total op ts =
        ((opens q op).after op (k + 1)).total op ts := by
      rw [← spread_advance_iterate_pass k (respects_annihilators q op) (.inr hopen),
        ← spread_advance_iterate_pass k (respects_opens q op) (.inr hopen)]
      exact spread_advance_congr (respects_annihilators q op) (respects_opens q op)
        (fun n => (opens_const n).symm) hconst
    have hannihilators : ((annihilators q op).after op (k + 1)).total op ts =
        q.word (op.identity q) := by
      refine total_of_forall_identity _ ?_
      intro t ht
      exact spread_annihilators_iterate_pass (h.normal t ht) (hundecided.ne_annihilator t ht)
        (Nat.succ_pos k)
    obtain ⟨u, hu, huopen⟩ := hundecided.exists_open
    obtain ⟨a, ha, hmark⟩ := NaryOp.exists_word_annihilator q hop
    have hshown : (opens q op).after op (k + 1) u = op.mark q :=
      h.spread_opens_iterate_pass hop hu huopen (Nat.succ_pos k)
    have hopens : ((opens q op).after op (k + 1)).total op ts = op.mark q := by
      rw [Weight.total_of_mem _ ha hu (hshown.trans hmark.symm), hmark]
    exact NaryOp.mark_ne_identity q op (hopens.symm.trans (hagree.symm.trans hannihilators))

/-- A canonical form that is no constant comes from undecided operands. -/
theorem Steady.undecided (h : Steady q op ts) (hop : op ≠ .xor)
    (hnormal : Normal q ((nary op ts).canonical q))
    (hopen : ((nary op ts).canonical q).isConst = false) : Undecided q op ts := by
  have hne := NaryOp.mark_ne_identity q op
  have hannihilator : ∀ t ∈ ts, ∀ a ∈ op.annihilator? q, t.canonical q ≠ const a := by
    intro t ht a ha heq
    have htotal := h.spread_canonical (respects_annihilators q op) hnormal hopen
    have hshown : (annihilators q op).after op passLimit t = q.word a := by
      rw [after_passLimit, heq, spread_const]
      exact (respects_annihilators q op).annihilator a ha
    rw [spread_annihilators_of_open hnormal.tidy hopen, Weight.total_of_mem _ ha ht hshown,
      NaryOp.word_annihilator ha] at htotal
    exact hne htotal.symm
  refine ⟨hannihilator, ?_⟩
  by_contra hnone
  push Not at hnone
  have htotal := h.spread_canonical (respects_opens q op) hnormal hopen
  have hhidden : ∀ t ∈ ts, (opens q op).after op passLimit t = q.word (op.identity q) := by
    intro t ht
    obtain ⟨n, hn⟩ := isConst_eq_true.1 (eq_true_of_ne_false (hnone t ht))
    rw [after_passLimit, hn, spread_const, opens_const, annihilators_of_forall_ne]
    exact hn ▸ hannihilator t ht
  rw [spread_opens_of_open hop hnormal.tidy hopen (not_foldsNext_of_normal hnormal),
    Weight.total_of_forall_identity _ hhidden] at htotal
  exact hne htotal

/-- For an operator with an annihilator the operands decide whether a node becomes a constant. -/
theorem Steady.isConst_canonical_iff (h : Steady q op ts) (hop : op ≠ .xor)
    (hnormal : Normal q ((nary op ts).canonical q)) :
    ((nary op ts).canonical q).isConst = false ↔ Undecided q op ts := by
  refine ⟨h.undecided hop hnormal, ?_⟩
  intro hundecided
  have hrun := h.isConst_iterate_pass_eq_false hop hundecided (passLimit - 1)
  rwa [Nat.sub_add_cancel passLimit_pos, ← canonical_eq] at hrun

theorem undecided_map_canonical (h : ∀ t ∈ ts, Normal q (t.canonical q)) :
    Undecided q op (ts.map (canonical q)) ↔ Undecided q op ts := by
  have hsame : ∀ t ∈ ts, (t.canonical q).canonical q = t.canonical q :=
    fun t ht => canonical_of_normal (h t ht)
  constructor
  · rintro ⟨hne, u, hu, hopen⟩
    obtain ⟨t, ht, rfl⟩ := List.mem_map.1 hu
    refine ⟨?_, t, ht, hsame t ht ▸ hopen⟩
    intro t ht
    rw [← hsame t ht]
    exact hne _ (List.mem_map_of_mem ht)
  · rintro ⟨hne, t, ht, hopen⟩
    refine ⟨?_, t.canonical q, List.mem_map_of_mem ht, (hsame t ht).symm ▸ hopen⟩
    intro u hu
    obtain ⟨t, ht, rfl⟩ := List.mem_map.1 hu
    rw [hsame t ht]
    exact hne t ht

end WordRing.Term
