import WordRing.Proofs.Canonical.Spread

/-!
# Reading terms off their weights

A tidy term that is no constant is determined by what it weighs under an operator, for all weights
that respect the operator. Weights that tell constants by their words see less: the word that the
constants among the operands come to, and the operands that are no constants, unless that word is
an annihilator and drowns them.

## Main definitions

* `openOperands op t` — the operands of `t` under an operator that are no constants.
* `constantTotal q op t` — the word of those that are.
* `Weight.constants`, `Weight.annihilators`, `Weight.opens` — the weights that are read.
-/
namespace WordRing

namespace Term

/-- The operands that a term is or contributes under an operator and that are no constants. -/
def openOperands (op : NaryOp) (t : Term) : List Term := (spliced op t).filter fun u => !u.isConst

/-- The word that the constants among the operands of a term come to. -/
def constantTotal (q : Quantum) (op : NaryOp) (t : Term) : Bytes :=
  total q (fun _ => 0) op ((spliced op t).filter isConst)

variable {q : Quantum} {op : NaryOp} {t u : Term}

theorem mem_openOperands : u ∈ openOperands op t ↔ u ∈ spliced op t ∧ u.isConst = false := by
  simp [openOperands]

theorem constantTotal_const (op : NaryOp) (n : Int) : constantTotal q op (const n) = q.word n :=
  total_singleton

/-- Tidy constants that come to the same word are equal. -/
theorem eq_of_constantTotal_eq {s : Term} (hs : Tidy q s) (ht : Tidy q t)
    (hsconst : s.isConst = true) (htconst : t.isConst = true)
    (h : constantTotal q op s = constantTotal q op t) : s = t := by
  obtain ⟨m, rfl⟩ := isConst_eq_true.1 hsconst
  obtain ⟨n, rfl⟩ := isConst_eq_true.1 htconst
  rw [constantTotal_const, constantTotal_const] at h
  rw [← ofWord_word hs, h, ofWord_word ht]

/-- At most one constant beside other operands shows in the word of the constants. -/
theorem filter_isConst_eq (ht : Tidy q t) (hopen : t.isConst = false)
    (hone : ((spliced op t).filter isConst).length ≤ 1) :
    (∀ a ∈ op.annihilator? q, constantTotal q op t ≠ q.word a) ∧
      (spliced op t).filter isConst =
        if constantTotal q op t = q.word (op.identity q) then []
        else [ofWord (constantTotal q op t)] := by
  have hword : constantTotal q op t = total q (fun _ => 0) op ((spliced op t).filter isConst) := rfl
  match hfilter : (spliced op t).filter isConst with
  | [] =>
    rw [hfilter, total_nil] at hword
    refine ⟨?_, by rw [if_pos hword]⟩
    intro a ha
    rw [hword, NaryOp.word_annihilator ha]
    exact (NaryOp.mark_ne_identity q op).symm
  | [u] =>
    have hmem : u ∈ (spliced op t).filter isConst := hfilter ▸ List.mem_singleton_self u
    obtain ⟨hu, hconst⟩ := List.mem_filter.1 hmem
    have htidy : Tidy q u := (tidy_of_mem_spliced ht hu).1
    have hsuits := suits_of_mem_spliced ht hopen hu
    obtain ⟨n, rfl⟩ := isConst_eq_true.1 hconst
    rw [hfilter, total_singleton, value_const] at hword
    have hother {m : Nat} (hm : m < q.cycle) (hne : const n ≠ const m) :
        constantTotal q op t ≠ q.word m := by
      intro heq
      rw [hword] at heq
      exact hne (by rw [← ofWord_word htidy, heq, ofWord_word (normal_const_of_lt hm).tidy])
    refine ⟨fun a ha => hother (op.annihilator_lt_cycle ha) (hsuits.ne_annihilator a ha), ?_⟩
    rw [if_neg (hother op.identity_lt_cycle hsuits.ne_identity), hword, ofWord_word htidy]
  | _ :: _ :: _ =>
    rw [hfilter] at hone
    simp at hone

theorem isConst_of_mem_spliced (hnil : openOperands op t = []) (hu : u ∈ spliced op t) :
    u.isConst = true := by
  by_contra hopen
  rw [Bool.not_eq_true] at hopen
  exact List.not_mem_nil (hnil ▸ mem_openOperands.2 ⟨hu, hopen⟩)

/-- A term with one constant at most and nothing else is that constant. -/
theorem isConst_of_openOperands_eq_nil (ht : Tidy q t)
    (hone : ((spliced op t).filter isConst).length ≤ 1) (hnil : openOperands op t = []) :
    t.isConst = true := by
  rcases spliced_eq_or op t with ⟨ts, rfl, heq⟩ | ⟨-, heq⟩
  · have htwo : 2 ≤ ts.length := Arranged.two_le ht.root
    rw [List.filter_eq_self.2 fun u hu => isConst_of_mem_spliced hnil hu, heq] at hone
    omega
  · exact isConst_of_mem_spliced hnil (heq ▸ List.mem_singleton_self t)

/-- A normal term without operands other than constants is a constant. -/
theorem openOperands_eq_nil_iff (op : NaryOp) (h : Normal q t) :
    openOperands op t = [] ↔ t.isConst = true := by
  constructor
  · intro hnil
    rcases spliced_eq_or op t with ⟨ts, rfl, heq⟩ | ⟨-, heq⟩
    · obtain ⟨-, u, hu, hopen⟩ : NormalNode q (nary op ts) := h.root
      rw [← heq] at hu
      exact absurd (isConst_of_mem_spliced hnil hu) (by simp [hopen])
    · exact isConst_of_mem_spliced hnil (heq ▸ List.mem_singleton_self t)
  · intro hconst
    obtain ⟨n, rfl⟩ := isConst_eq_true.1 hconst
    rfl

end Term

namespace Weight
open Term
variable {q : Quantum} {op : NaryOp} {s t u : Term} {w : Weight q}

/-! ## Marks under an operator -/

theorem Respects.marking (hw : w.Respects op) (hu : Suits q op u) :
    (w.marking op u).Respects op := by
  refine ⟨?_, ?_⟩
  · rw [w.marking_of_ne hu.ne_identity.symm, hw.identity]
  · intro a ha
    rw [w.marking_of_ne (hu.ne_annihilator a ha).symm, hw.annihilator a ha]

theorem Folds.marking (hw : w.Folds) (op : NaryOp) (hu : u.isConst = false) :
    (w.marking op u).Folds := by
  intro n
  have hne : const n ≠ u := by
    rintro rfl
    simp [isConst] at hu
  rw [w.marking_of_ne hne, hw n]

/-! ## Constants -/

/-- The weight of constants alone. -/
def constants (q : Quantum) (op : NaryOp) : Weight q where
  word
    | const n => q.word n
    | _ => q.word (op.identity q)
  length_word t := by cases t <;> simp

theorem folds_constants (q : Quantum) (op : NaryOp) : (constants q op).Folds := fun _ => rfl

theorem constants_of_open (hopen : t.isConst = false) :
    constants q op t = q.word (op.identity q) := by
  cases t with
  | const n => simp [isConst] at hopen
  | var x => rfl
  | unary op t => rfl
  | nary op ts => rfl

theorem spread_constants (op : NaryOp) (t : Term) :
    (constants q op).spread op t = constantTotal q op t := by
  have hagree : ∀ u ∈ (spliced op t).filter isConst,
      constants q op u = valueWeight q (fun _ => 0) u := by
    intro u hu
    obtain ⟨n, rfl⟩ := isConst_eq_true.1 (List.mem_filter.1 hu).2
    rfl
  rw [spread_apply, ← total_filter _ isConst fun _ _ => constants_of_open, total_congr _ hagree,
    constantTotal, total_eq]

/-- **What weights see that tell constants by their words.** -/
theorem constantTotal_eq_and_openOperands_eq (hs : Tidy q s) (ht : Tidy q t)
    (h : ∀ w : Weight q, w.Folds → w.spread op s = w.spread op t) :
    constantTotal q op s = constantTotal q op t ∧
      (openOperands op s = openOperands op t ∨
        ∃ a ∈ op.annihilator? q, constantTotal q op s = q.word a) := by
  have hconstants := h _ (folds_constants q op)
  have htotal : constantTotal q op s = constantTotal q op t := by
    rw [← spread_constants, ← spread_constants, hconstants]
  refine ⟨htotal, ?_⟩
  by_cases hdrowned : ∃ a ∈ op.annihilator? q, constantTotal q op s = q.word a
  · exact .inr hdrowned
  · have hclear : op = .xor ∨ (constants q op).total op (spliced op s) ≠ op.mark q := by
      by_cases hop : op = .xor
      · exact .inl hop
      · obtain ⟨a, ha, hmark⟩ := NaryOp.exists_word_annihilator q hop
        refine .inr fun heq => hdrowned ⟨a, ha, ?_⟩
        rw [← spread_constants, spread_apply, heq, hmark]
    have hinc := pairwise_spliced op hs
    have hinc' := pairwise_spliced op ht
    refine .inl (eq_of_mem_iff (hinc.sublist List.filter_sublist)
      (hinc'.sublist List.filter_sublist) ?_)
    intro u
    rw [mem_openOperands, mem_openOperands]
    cases hopen : u.isConst with
    | true => simp
    | false =>
      have hmarked := h _ ((folds_constants q op).marking op hopen)
      have hmem := mem_iff_of_total_eq (constants_of_open hopen)
        (pairwise_precedes_iff.1 hinc).2 (pairwise_precedes_iff.1 hinc').2 hconstants hmarked hclear
      rw [hmem]

/-- A term that keeps one constant at most is a constant if it shows no more than one does. -/
theorem isConst_of_isConst (ht : Tidy q t) (htone : ((spliced op t).filter isConst).length ≤ 1)
    (hsconst : s.isConst = true) (hshown : openOperands op s = openOperands op t ∨
      ∃ a ∈ op.annihilator? q, constantTotal q op t = q.word a) : t.isConst = true := by
  by_contra hopen
  rw [Bool.not_eq_true] at hopen
  have hnil : openOperands op t = [] := by
    rcases hshown with heq | ⟨a, ha, hword⟩
    · obtain ⟨n, rfl⟩ := isConst_eq_true.1 hsconst
      exact heq.symm
    · exact absurd hword ((filter_isConst_eq ht hopen htone).1 a ha)
  rw [isConst_of_openOperands_eq_nil ht htone hnil] at hopen
  exact nomatch hopen

/-- Terms that these weights do not tell apart are equal if neither keeps two constants. -/
theorem eq_of_length_filter_isConst_le_one (hs : Tidy q s) (ht : Tidy q t)
    (h : ∀ w : Weight q, w.Folds → w.spread op s = w.spread op t)
    (hsone : ((spliced op s).filter isConst).length ≤ 1)
    (htone : ((spliced op t).filter isConst).length ≤ 1) : s = t := by
  obtain ⟨htotal, hshown⟩ := constantTotal_eq_and_openOperands_eq hs ht h
  have hconst : s.isConst = t.isConst := by
    rw [Bool.eq_iff_iff]
    exact ⟨fun hsconst => isConst_of_isConst ht htone hsconst (htotal ▸ hshown),
      fun htconst => isConst_of_isConst hs hsone htconst (hshown.imp_left Eq.symm)⟩
  cases hopen : s.isConst with
  | true => exact eq_of_constantTotal_eq hs ht hopen (hconst ▸ hopen) htotal
  | false =>
    obtain ⟨hclear, hfilter⟩ := filter_isConst_eq hs hopen hsone
    obtain ⟨-, hfilter'⟩ := filter_isConst_eq ht (hconst ▸ hopen) htone
    have hconstants : (spliced op s).filter isConst = (spliced op t).filter isConst := by
      rw [hfilter, hfilter', htotal]
    have hopens : openOperands op s = openOperands op t := by
      refine hshown.resolve_right ?_
      rintro ⟨a, ha, hword⟩
      exact hclear a ha hword
    refine eq_of_spliced_eq op hs ht
      (eq_of_mem_iff (pairwise_spliced op hs) (pairwise_spliced op ht) ?_)
    intro u
    cases hu : u.isConst with
    | true =>
      have hmem : u ∈ (spliced op s).filter isConst ↔ u ∈ (spliced op t).filter isConst := by
        rw [hconstants]
      simpa [hu] using hmem
    | false =>
      have hmem : u ∈ openOperands op s ↔ u ∈ openOperands op t := by rw [hopens]
      simpa [mem_openOperands, hu] using hmem

/-! ## Operands of every kind -/

/-- The weight of annihilators alone. -/
def annihilators (q : Quantum) (op : NaryOp) : Weight q where
  word t :=
    if (op.annihilator? q).any fun a => t = const a then op.mark q else q.word (op.identity q)
  length_word t := by split <;> simp

theorem annihilators_const {a : Nat} (ha : a ∈ op.annihilator? q) :
    annihilators q op (const a) = op.mark q := by
  refine if_pos ?_
  rw [Option.mem_def.1 ha]
  simp

theorem annihilators_of_forall_ne (h : ∀ a ∈ op.annihilator? q, t ≠ const a) :
    annihilators q op t = q.word (op.identity q) := by
  refine if_neg ?_
  cases ha : op.annihilator? q with
  | none => simp
  | some a => simpa using h a ha

theorem const_identity_ne {a : Nat} (ha : a ∈ op.annihilator? q) :
    const (op.identity q) ≠ const a := by
  intro h
  have hword : q.word (op.identity q) = op.mark q := by
    rw [← NaryOp.word_annihilator ha, (const.inj h : (op.identity q : Int) = a)]
  exact NaryOp.mark_ne_identity q op hword.symm

theorem respects_annihilators (q : Quantum) (op : NaryOp) : (annihilators q op).Respects op :=
  ⟨annihilators_of_forall_ne fun _ => const_identity_ne,
    fun _ ha => (annihilators_const ha).trans (NaryOp.word_annihilator ha).symm⟩

theorem spread_annihilators_of_open (ht : Tidy q t) (hopen : t.isConst = false) :
    (annihilators q op).spread op t = q.word (op.identity q) :=
  total_of_forall_identity _ fun _ hu =>
    annihilators_of_forall_ne (suits_of_mem_spliced ht hopen hu).ne_annihilator

/-- Respecting weights tell tidy terms apart that are no constants. -/
theorem eq_of_spread_eq (op : NaryOp) (hs : Tidy q s) (ht : Tidy q t) (hsopen : s.isConst = false)
    (htopen : t.isConst = false)
    (h : ∀ w : Weight q, w.Respects op → w.spread op s = w.spread op t) : s = t := by
  have hinc := pairwise_spliced op hs
  have hinc' := pairwise_spliced op ht
  refine eq_of_spliced_eq op hs ht (eq_of_mem_iff hinc hinc' ?_)
  intro u
  by_cases hu : Suits q op u
  · have hrespects := respects_annihilators q op
    have hclear : (annihilators q op).total op (spliced op s) ≠ op.mark q := by
      rw [← spread_apply, spread_annihilators_of_open hs hsopen]
      exact (NaryOp.mark_ne_identity q op).symm
    exact mem_iff_of_total_eq (annihilators_of_forall_ne hu.ne_annihilator)
      (pairwise_precedes_iff.1 hinc).2 (pairwise_precedes_iff.1 hinc').2 (h _ hrespects)
      (h _ (hrespects.marking hu)) (.inr hclear)
  · exact iff_of_false (mt (suits_of_mem_spliced hs hsopen) hu)
      (mt (suits_of_mem_spliced ht htopen) hu)

/-- Respecting weights do not mistake a constant for a term that is none. -/
theorem isConst_of_forall_spread_eq (op : NaryOp) (ht : Tidy q t) (hsconst : s.isConst = true)
    (h : ∀ w : Weight q, w.Respects op → w.spread op s = w.spread op t) : t.isConst = true := by
  obtain ⟨n, rfl⟩ := isConst_eq_true.1 hsconst
  by_contra hopen
  rw [Bool.not_eq_true] at hopen
  have hrespects := respects_annihilators q op
  have hnodup : (spliced op t).Nodup := (pairwise_precedes_iff.1 (pairwise_spliced op ht)).2
  have hclear : (annihilators q op).total op (spliced op t) ≠ op.mark q := by
    rw [← spread_apply, spread_annihilators_of_open ht hopen]
    exact (NaryOp.mark_ne_identity q op).symm
  -- A mark on an operand of `t` would show, so no operand differs from the constant.
  have hall : spliced op t ⊆ [const n] := by
    intro u hu
    have hsuits := suits_of_mem_spliced ht hopen hu
    exact (mem_iff_of_total_eq (annihilators_of_forall_ne hsuits.ne_annihilator) hnodup
      (List.nodup_singleton (const n)) (h _ hrespects).symm (h _ (hrespects.marking hsuits)).symm
      (.inr hclear)).1 hu
  have hone : ((spliced op t).filter isConst).length ≤ 1 :=
    (List.subperm_of_subset (hnodup.filter isConst)
      (List.Subset.trans (List.filter_subset_self _) hall)).length_le
  have hnil : openOperands op t = [] := by
    rw [openOperands, List.filter_eq_nil_iff]
    intro u hu
    rw [List.mem_singleton.1 (hall hu)]
    simp [isConst]
  rw [isConst_of_openOperands_eq_nil ht hone hnil] at hopen
  exact Bool.false_ne_true hopen.symm

/-- **Respecting weights tell tidy terms apart.** -/
theorem eq_of_forall_spread_eq (op : NaryOp) (hs : Tidy q s) (ht : Tidy q t)
    (h : ∀ w : Weight q, w.Respects op → w.spread op s = w.spread op t) : s = t := by
  have hconst : s.isConst = t.isConst := by
    rw [Bool.eq_iff_iff]
    exact ⟨fun hsconst => isConst_of_forall_spread_eq op ht hsconst h,
      fun htconst => isConst_of_forall_spread_eq op hs htconst fun w hw => (h w hw).symm⟩
  cases hopen : s.isConst with
  | false => exact eq_of_spread_eq op hs ht hopen (hconst ▸ hopen) h
  | true =>
    have htotal : constantTotal q op s = constantTotal q op t := by
      rw [← spread_constants, ← spread_constants, h _ ((folds_constants q op).respects op)]
    exact eq_of_constantTotal_eq hs ht hopen (hconst ▸ hopen) htotal

/-- The weight of annihilators and of whatever is no constant. -/
def opens (q : Quantum) (op : NaryOp) : Weight q where
  word t := if t.isConst then annihilators q op t else op.mark q
  length_word t := by split <;> simp

theorem opens_const (n : Int) : opens q op (const n) = annihilators q op (const n) := rfl

theorem opens_of_open (hopen : t.isConst = false) : opens q op t = op.mark q := by
  refine if_neg ?_
  rw [hopen]
  exact Bool.false_ne_true

theorem respects_opens (q : Quantum) (op : NaryOp) : (opens q op).Respects op :=
  ⟨(respects_annihilators q op).identity, (respects_annihilators q op).annihilator⟩

/-- A tidy term that is no constant and not about to be one shows something open. -/
theorem spread_opens_of_open (hop : op ≠ .xor) (ht : Tidy q t) (hopen : t.isConst = false)
    (hsteady : ¬ FoldsNext q op t) : (opens q op).spread op t = op.mark q := by
  obtain ⟨a, ha, hmark⟩ := NaryOp.exists_word_annihilator q hop
  have hshown : ∃ u ∈ spliced op t, u.isConst = false := by
    rcases spliced_eq_or op t with ⟨ts, rfl, heq⟩ | ⟨-, heq⟩
    · by_contra hnone
      push Not at hnone
      refine hsteady ⟨ts, rfl, Arranged.ne_nil ht.root, ?_⟩
      intro u hu
      rw [heq] at hnone
      obtain ⟨n, rfl⟩ := isConst_eq_true.1 (eq_true_of_ne_false (hnone u hu))
      rfl
    · exact ⟨t, heq ▸ List.mem_singleton_self t, hopen⟩
  obtain ⟨u, hu, huopen⟩ := hshown
  rw [spread_apply, total_of_mem _ ha hu ((opens_of_open huopen).trans hmark.symm), hmark]

end Weight

end WordRing
