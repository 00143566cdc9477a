import WordRing.Canonical.Form
import WordRing.Proofs.Canonical.Shape
import WordRing.Proofs.Word

/-!
# What a pass establishes

One pass makes any term tidy, and the rules leave a normal node alone. The four rules on operand
lists run one after another as `arrange`; between them nothing else happens, so what they do to a
list is stated once.
-/
namespace WordRing.Term
variable {q : Quantum} {op : NaryOp} {t : Term} {ts : List Term}

/-- The rules on operand lists, in the order of a pass. -/
def arrange (q : Quantum) (t : Term) : Term :=
  cancelCopies q (eliminateIdentity q (sortOperands q (flatten t)))

theorem applyAll_eq (q : Quantum) (t : Term) :
    Rule.applyAll q t = arrange q (foldConstants q (expandDerived (cancelInvolution t))) := rfl

/-- The rules on unary nodes do not touch operand lists. -/
theorem applyAll_nary (q : Quantum) (op : NaryOp) (ts : List Term) :
    Rule.applyAll q (nary op ts) = arrange q (foldConstants q (nary op ts)) := rfl

@[simp] theorem arrange_const (q : Quantum) (n : Int) : arrange q (const n) = const n := rfl

@[simp] theorem arrange_var (q : Quantum) (x : VarName) : arrange q (var x) = var x := rfl

@[simp] theorem arrange_unary (q : Quantum) (op : UnaryOp) (t : Term) :
    arrange q (unary op t) = unary op t := rfl

/-! ## Single rules on operand lists -/

@[simp] theorem spliced_nary_self (op : NaryOp) (ts : List Term) :
    spliced op (nary op ts) = ts := if_pos rfl

theorem spliced_of_not_nested (h : t.isNaryOf op = false) : spliced op t = [t] := by
  cases t with
  | const n => rfl
  | var x => rfl
  | unary op' t => rfl
  | nary op' ts =>
    have hne : op' ≠ op := by simpa [isNaryOf] using h
    exact if_neg hne

/-- Splicing looks at one case only: a node of the same operator. -/
theorem spliced_eq_or (op : NaryOp) (t : Term) :
    (∃ ts, t = nary op ts ∧ spliced op t = ts) ∨ (t.isNaryOf op = false ∧ spliced op t = [t]) := by
  by_cases hnested : t.isNaryOf op = true
  · obtain ⟨ts, rfl⟩ := isNaryOf_eq_true.1 hnested
    exact .inl ⟨ts, rfl, spliced_nary_self op ts⟩
  · rw [Bool.not_eq_true] at hnested
    exact .inr ⟨hnested, spliced_of_not_nested hnested⟩

theorem flatMap_spliced_eq_self (h : ∀ t ∈ ts, t.isNaryOf op = false) :
    ts.flatMap (spliced op) = ts := by
  induction ts with
  | nil => rfl
  | cons t ts ih =>
    rw [List.flatMap_cons, spliced_of_not_nested (h t List.mem_cons_self),
      ih fun u hu => h u (List.mem_cons_of_mem t hu), List.singleton_append]

/-- An annihilator among the operands is the result. -/
theorem eliminateIdentity_of_mem {a : Nat} (ha : a ∈ op.annihilator? q) (hmem : const a ∈ ts) :
    eliminateIdentity q (nary op ts) = const a := by
  simp only [eliminateIdentity, Option.mem_def.1 ha, if_pos hmem]

/-- Without an annihilator the identities are dropped. -/
theorem eliminateIdentity_of_not_mem (h : ∀ a ∈ op.annihilator? q, const a ∉ ts) :
    eliminateIdentity q (nary op ts) =
      rebuild op (op.identity q) (ts.filter (· ≠ const (op.identity q))) := by
  cases ha : op.annihilator? q with
  | none => simp only [eliminateIdentity, ha]
  | some a => simp only [eliminateIdentity, ha, if_neg (h a ha)]

/-- Either an annihilator is the result, or there is none and the identities are dropped. -/
theorem eliminateIdentity_eq_or (q : Quantum) (op : NaryOp) (ts : List Term) :
    (∃ a ∈ op.annihilator? q, const (a : Nat) ∈ ts ∧
      eliminateIdentity q (nary op ts) = const a) ∨
    ((∀ a ∈ op.annihilator? q, const (a : Nat) ∉ ts) ∧
      eliminateIdentity q (nary op ts) =
        rebuild op (op.identity q) (ts.filter (· ≠ const (op.identity q)))) := by
  by_cases h : ∃ a ∈ op.annihilator? q, const (a : Nat) ∈ ts
  · obtain ⟨a, ha, hmem⟩ := h
    exact .inl ⟨a, ha, hmem, eliminateIdentity_of_mem ha hmem⟩
  · push Not at h
    exact .inr ⟨h, eliminateIdentity_of_not_mem h⟩

theorem rebuild_of_two_le (op : NaryOp) (empty : Int) (h : 2 ≤ ts.length) :
    rebuild op empty ts = nary op ts := by
  match ts, h with
  | _ :: _ :: _, _ => rfl

/-! ## Normal and tidy nodes stay -/

theorem Arranged.ne_nil (h : Arranged q op ts) : ts ≠ [] := by
  intro hnil
  have htwo := h.two_le
  rw [hnil] at htwo
  simp at htwo

theorem cancelCopies_of_arranged (h : Arranged q op ts) :
    cancelCopies q (nary op ts) = nary op ts := by
  rw [cancelCopies_nary, kept_eq_self op h.nodup, rebuild_of_two_le op 0 h.two_le]

theorem arrange_of_arranged (h : Arranged q op ts) : arrange q (nary op ts) = nary op ts := by
  have hflat : flatten (nary op ts) = nary op ts := by
    rw [flatten, flatMap_spliced_eq_self fun t ht => (h.suits t ht).not_nested]
  have hsort : sortOperands q (nary op ts) = nary op ts := by
    rw [sortOperands, List.mergeSort_of_pairwise h.sorted]
  have hidentity : eliminateIdentity q (nary op ts) = nary op ts := by
    have hkeep : ∀ t ∈ ts, decide (t ≠ const (op.identity q)) = true :=
      fun t ht => decide_eq_true (h.suits t ht).ne_identity
    rw [eliminateIdentity_of_not_mem fun a ha hmem => (h.suits _ hmem).ne_annihilator a ha rfl,
      List.filter_eq_self.2 hkeep, rebuild_of_two_le op _ h.two_le]
  rw [arrange, hflat, hsort, hidentity, cancelCopies_of_arranged h]

theorem arrange_of_tidyNode (h : TidyNode q t) : arrange q t = t := by
  cases t with
  | const n => rfl
  | var x => rfl
  | unary op t => rfl
  | nary op ts => exact arrange_of_arranged h

theorem cancelCopies_of_tidyNode (h : TidyNode q t) : cancelCopies q t = t := by
  cases t with
  | const n => rfl
  | var x => rfl
  | unary op t => rfl
  | nary op ts => exact cancelCopies_of_arranged h

theorem expandDerived_of_tidyNode (h : TidyNode q t) : expandDerived t = t := by
  cases t with
  | const n => rfl
  | var x => rfl
  | unary op t =>
    cases op with
    | neg => rfl
    | bnot => rfl
    | succ => exact absurd h (by simp [TidyNode, UnaryOp.involutions])
    | pred => exact absurd h (by simp [TidyNode, UnaryOp.involutions])
  | nary op ts => rfl

/-! ## Rules on unary nodes -/

theorem cancelInvolution_pair {op : UnaryOp} (hop : op ∈ UnaryOp.involutions) (t : Term) :
    cancelInvolution (unary op (unary op t)) = t := by
  cases op with
  | neg => rfl
  | bnot => rfl
  | succ => simp [UnaryOp.involutions] at hop
  | pred => simp [UnaryOp.involutions] at hop

theorem cancelInvolution_of_ne {op : UnaryOp} (h : t.isUnaryOf op = false) :
    cancelInvolution (unary op t) = unary op t := by
  unfold cancelInvolution
  split
  · next heq =>
    obtain ⟨rfl, rfl⟩ := unary.inj heq
    simp [isUnaryOf] at h
  · next heq =>
    obtain ⟨rfl, rfl⟩ := unary.inj heq
    simp [isUnaryOf] at h
  · rfl

theorem cancelInvolution_derived {op : UnaryOp} (hop : op ∉ UnaryOp.involutions) (t : Term) :
    cancelInvolution (unary op t) = unary op t := by
  cases op with
  | neg => simp [UnaryOp.involutions] at hop
  | bnot => simp [UnaryOp.involutions] at hop
  | succ => rfl
  | pred => rfl

/-! ## Folding -/

theorem length_foldl_word (op : NaryOp) (n : Int) (ns : List Int) :
    (ns.foldl (fun b m => op.apply b (q.word m)) (q.word n)).length = q.width := by
  have hwords : ∀ b ∈ ns.map q.word, b.length = q.width := by simp
  simpa only [List.foldl_map] using op.length_foldl_apply (q.length_word n) hwords

/-- Folding either leaves a term alone or gives a reduced constant. -/
theorem foldConstants_eq_or (q : Quantum) (t : Term) :
    foldConstants q t = t ∨
      ∃ n : Int, foldConstants q t = const n ∧ TidyNode q (const n) := by
  have word (b : Bytes) (hb : b.length = q.width) : TidyNode q (ofWord b) :=
    ⟨Int.natCast_nonneg _, Int.ofNat_lt.2 (q.toNat_lt_cycle hb)⟩
  cases t with
  | const n =>
    have hpos : (0 : Int) < q.cycle := Int.ofNat_lt.2 q.cycle_pos
    exact .inr ⟨n % q.cycle, rfl, Int.emod_nonneg n (by omega), Int.emod_lt_of_pos n hpos⟩
  | var x => exact .inl rfl
  | unary op t =>
    cases t with
    | const n => exact .inr ⟨_, rfl, word _ (by simp)⟩
    | var x => exact .inl rfl
    | unary op' t => exact .inl rfl
    | nary op' ts => exact .inl rfl
  | nary op ts =>
    rw [foldConstants]
    split
    · next n ns _ => exact .inr ⟨_, rfl, word _ (length_foldl_word op n ns)⟩
    · exact .inl rfl

theorem tidy_foldConstants (h : Tidy q t) : Tidy q (foldConstants q t) := by
  rcases foldConstants_eq_or q t with heq | ⟨n, heq, hn⟩
  · rwa [heq]
  · rw [heq]
    exact (everywhere_const n).2 hn

/-! ## Tidiness -/

theorem tidy_rebuild {empty : Int} (hempty : TidyNode q (const empty))
    (htidy : ∀ t ∈ ts, Tidy q t) (harranged : 2 ≤ ts.length → Arranged q op ts) :
    Tidy q (rebuild op empty ts) := by
  match ts, htidy, harranged with
  | [], _, _ => exact (everywhere_const empty).2 hempty
  | [t], htidy, _ => exact htidy t List.mem_cons_self
  | t :: u :: us, htidy, harranged =>
    exact (everywhere_nary op _).2 ⟨harranged (by simp), htidy⟩

/-- The operands of a tidy node are not nested in it again when they are spliced. -/
theorem tidy_of_mem_spliced {u : Term} (ht : Tidy q t) (hu : u ∈ spliced op t) :
    Tidy q u ∧ u.isNaryOf op = false := by
  rcases spliced_eq_or op t with ⟨ts, rfl, heq⟩ | ⟨hnested, heq⟩
  · rw [heq] at hu
    obtain ⟨harranged, hoperands⟩ := (everywhere_nary op ts).1 ht
    exact ⟨hoperands u hu, (harranged.suits u hu).not_nested⟩
  · rw [heq, List.mem_singleton] at hu
    exact hu ▸ ⟨ht, hnested⟩

theorem normal_of_mem_spliced {u : Term} (h : Normal q t) (hu : u ∈ spliced op t) :
    Normal q u := by
  rcases spliced_eq_or op t with ⟨ts, rfl, heq⟩ | ⟨-, heq⟩
  · exact ((everywhere_nary op ts).1 h).2 u (heq ▸ hu)
  · exact List.mem_singleton.1 (heq ▸ hu) ▸ h

/-- Where a tidy term is no constant, what it contributes suits the operator. -/
theorem suits_of_mem_spliced {u : Term} (ht : Tidy q t) (hopen : t.isConst = false)
    (hu : u ∈ spliced op t) : Suits q op u := by
  rcases spliced_eq_or op t with ⟨ts, rfl, heq⟩ | ⟨hnested, heq⟩
  · have harranged : Arranged q op ts := ht.root
    exact harranged.suits u (heq ▸ hu)
  · obtain rfl : u = t := List.mem_singleton.1 (heq ▸ hu)
    refine ⟨hnested, ?_, ?_⟩
    · rintro rfl
      simp [isConst] at hopen
    · rintro a - rfl
      simp [isConst] at hopen

theorem pairwise_spliced (op : NaryOp) (ht : Tidy q t) :
    (spliced op t).Pairwise (Precedes q.width) := by
  rcases spliced_eq_or op t with ⟨ts, rfl, heq⟩ | ⟨-, heq⟩
  · have harranged : Arranged q op ts := ht.root
    rw [heq]
    exact harranged.increasing
  · rw [heq]
    exact List.pairwise_singleton _ t

/-- A tidy term is determined by what it contributes to a node. -/
theorem eq_of_spliced_eq (op : NaryOp) {s : Term} (hs : Tidy q s) (ht : Tidy q t)
    (h : spliced op s = spliced op t) : s = t := by
  have htwo (ts : List Term) (u : Term) (hts : Tidy q (nary op ts)) : ts ≠ [u] := by
    rintro rfl
    exact absurd (Arranged.two_le hts.root) (by simp)
  rcases spliced_eq_or op s with ⟨ss, rfl, hss⟩ | ⟨-, hss⟩
  · rcases spliced_eq_or op t with ⟨ts, rfl, hts⟩ | ⟨-, hts⟩
    · rw [← hss, h, hts]
    · exact absurd (hss.symm.trans (h.trans hts)) (htwo ss t hs)
  · rcases spliced_eq_or op t with ⟨ts, rfl, hts⟩ | ⟨-, hts⟩
    · exact absurd (hts.symm.trans (h.symm.trans hss)) (htwo ts s ht)
    · exact List.singleton_inj.1 (hss.symm.trans (h.trans hts))

theorem spliced_rebuild {empty : Int} (h : ∀ t ∈ ts, t.isNaryOf op = false) :
    spliced op (rebuild op empty ts) = if ts = [] then [const empty] else ts := by
  match ts, h with
  | [], _ => rfl
  | [t], h =>
    rw [if_neg (List.cons_ne_nil t [])]
    exact spliced_of_not_nested (h t List.mem_cons_self)
  | t :: u :: us, _ =>
    rw [rebuild_of_two_le op empty (by simp), spliced_nary_self, if_neg (List.cons_ne_nil t _)]

/-- Cancelling copies in a rebuilt node is rebuilding on the operands that are kept. -/
theorem cancelCopies_rebuild (h : ∀ t ∈ ts, TidyNode q t) :
    cancelCopies q (rebuild op (op.identity q) ts) = rebuild op (op.identity q) (kept op ts) := by
  match ts, h with
  | [], _ => cases op <;> rfl
  | [t], h =>
    rw [kept_eq_self op (List.nodup_singleton t)]
    exact cancelCopies_of_tidyNode (h t List.mem_cons_self)
  | t :: u :: us, _ =>
    rw [rebuild_of_two_le op _ (by simp), cancelCopies_nary]
    by_cases hop : op = .xor
    · rw [hop]
      rfl
    · obtain ⟨v, vs, hkept⟩ := List.exists_cons_of_ne_nil
        (kept_ne_nil hop (List.cons_ne_nil t (u :: us)))
      rw [hkept]
      cases vs <;> rfl

/-- **What the rules on operand lists do**: either one of the spliced operands is an annihilator and
is the result, or these are sorted, the identities among them dropped and the copies cancelled. -/
theorem arrange_nary_eq_or (op : NaryOp) (h : ∀ t ∈ ts, Tidy q t) :
    (∃ a ∈ op.annihilator? q, const (a : Nat) ∈ ts.flatMap (spliced op) ∧
      arrange q (nary op ts) = const a) ∨
    ∃ us : List Term, us.Perm (ts.flatMap (spliced op)) ∧ us.Pairwise (before q.width · ·) ∧
      (∀ a ∈ op.annihilator? q, const (a : Nat) ∉ us) ∧ arrange q (nary op ts) =
        rebuild op (op.identity q) (kept op (us.filter (· ≠ const (op.identity q)))) := by
  have hperm := List.mergeSort_perm (ts.flatMap (spliced op)) (before q.width)
  have harrange : arrange q (nary op ts) = cancelCopies q (eliminateIdentity q
      (nary op ((ts.flatMap (spliced op)).mergeSort (before q.width)))) := rfl
  rcases eliminateIdentity_eq_or q op ((ts.flatMap (spliced op)).mergeSort (before q.width)) with
    ⟨a, ha, hmem, heq⟩ | ⟨hnone, heq⟩
  · refine .inl ⟨a, ha, hperm.mem_iff.1 hmem, ?_⟩
    rw [harrange, heq]
    rfl
  · refine .inr ⟨_, hperm, pairwise_mergeSort_before _, hnone, ?_⟩
    rw [harrange, heq, cancelCopies_rebuild]
    intro t ht
    obtain ⟨u, hu, htu⟩ := List.mem_flatMap.1 (hperm.mem_iff.1 (List.mem_of_mem_filter ht))
    exact (tidy_of_mem_spliced (h u hu) htu).1.root

/-- Arranging a node with tidy operands gives a tidy term. -/
theorem tidy_arrange (h : ∀ t ∈ ts, Tidy q t) : Tidy q (arrange q (nary op ts)) := by
  rcases arrange_nary_eq_or op h with ⟨a, ha, -, heq⟩ | ⟨us, hperm, hsorted, hnone, heq⟩
  · rw [heq]
    exact (normal_const_of_lt (op.annihilator_lt_cycle ha)).tidy
  · have hidentity : TidyNode q (const (op.identity q)) :=
      (normal_const_of_lt op.identity_lt_cycle).root
    have hkept := kept_sublist op (us.filter (· ≠ const (op.identity q)))
    have hoperands : ∀ t ∈ kept op (us.filter (· ≠ const (op.identity q))),
        Tidy q t ∧ Suits q op t := by
      intro t ht
      obtain ⟨hmem, hne⟩ := List.mem_filter.1 (hkept.subset ht)
      obtain ⟨u, hu, htu⟩ := List.mem_flatMap.1 (hperm.mem_iff.1 hmem)
      obtain ⟨htidy, hnested⟩ := tidy_of_mem_spliced (h u hu) htu
      refine ⟨htidy, hnested, of_decide_eq_true hne, ?_⟩
      intro a ha hconst
      exact hnone a ha (hconst ▸ hmem)
    rw [heq]
    refine tidy_rebuild hidentity (fun t ht => (hoperands t ht).1) ?_
    intro hlength
    exact ⟨hlength, fun t ht => (hoperands t ht).2, pairwise_precedes_iff.2
      ⟨(hsorted.sublist List.filter_sublist).sublist hkept, nodup_kept op _⟩⟩

/-- What the rules leave of a node is a constant, or has only operands that were there before. -/
theorem isConst_or_spliced_subset (h : ∀ t ∈ ts, Tidy q t) :
    (Rule.applyAll q (nary op ts)).isConst = true ∨
      spliced op (Rule.applyAll q (nary op ts)) ⊆ ts.flatMap (spliced op) := by
  rw [applyAll_nary]
  rcases foldConstants_eq_or q (nary op ts) with heq | ⟨n, heq, -⟩
  · rw [heq]
    rcases arrange_nary_eq_or op h with ⟨a, -, -, heq⟩ | ⟨us, hperm, -, -, heq⟩
    · rw [heq]
      exact .inl rfl
    · have hkept : kept op (us.filter (· ≠ const (op.identity q))) ⊆ ts.flatMap (spliced op) := by
        intro t ht
        exact hperm.mem_iff.1 (List.mem_of_mem_filter ((kept_sublist op _).subset ht))
      have hnested : ∀ t ∈ kept op (us.filter (· ≠ const (op.identity q))),
          t.isNaryOf op = false := by
        intro t ht
        obtain ⟨v, hv, htv⟩ := List.mem_flatMap.1 (hkept ht)
        exact (tidy_of_mem_spliced (h v hv) htv).2
      rw [heq, spliced_rebuild hnested]
      split
      · next hnil =>
        rw [hnil]
        exact .inl rfl
      · exact .inr hkept
  · rw [heq]
    exact .inl rfl

/-- An operand that the rules leave is a constant or was there before. -/
theorem mem_spliced_applyAll_nary {u : Term} (h : ∀ t ∈ ts, Tidy q t)
    (hu : u ∈ spliced op (Rule.applyAll q (nary op ts))) :
    u.isConst = true ∨ u ∈ ts.flatMap (spliced op) := by
  rcases isConst_or_spliced_subset h with hconst | hsubset
  · obtain ⟨n, hn⟩ := isConst_eq_true.1 hconst
    rw [hn] at hu
    exact .inl (isConst_eq_true.2 ⟨n, List.mem_singleton.1 hu⟩)
  · exact .inr (hsubset hu)

/-- The rules on unary nodes leave a tidy term, whatever the operator. -/
theorem tidy_expandDerived_cancelInvolution (op : UnaryOp) (h : Tidy q t) :
    Tidy q (expandDerived (cancelInvolution (unary op t))) := by
  by_cases hop : op ∈ UnaryOp.involutions
  · by_cases hpair : t.isUnaryOf op = true
    · obtain ⟨u, rfl⟩ := isUnaryOf_eq_true.1 hpair
      have hu : Tidy q u := ((everywhere_unary op u).1 h).2
      rwa [cancelInvolution_pair hop, expandDerived_of_tidyNode hu.root]
    · rw [Bool.not_eq_true] at hpair
      have hnode : Tidy q (unary op t) := (everywhere_unary op t).2 ⟨hop, h⟩
      rwa [cancelInvolution_of_ne hpair, expandDerived_of_tidyNode hnode.root]
  · rw [cancelInvolution_derived hop]
    have hinvolutions : UnaryOp.neg ∈ UnaryOp.involutions ∧ UnaryOp.bnot ∈ UnaryOp.involutions := by
      decide
    cases op with
    | neg => exact absurd hinvolutions.1 hop
    | bnot => exact absurd hinvolutions.2 hop
    | succ => simpa [expandDerived, TidyNode, hinvolutions] using h
    | pred => simpa [expandDerived, TidyNode, hinvolutions] using h

theorem tidy_applyAll_unary (op : UnaryOp) (h : Tidy q t) :
    Tidy q (Rule.applyAll q (unary op t)) := by
  have hfolded := tidy_foldConstants (tidy_expandDerived_cancelInvolution op h)
  rwa [applyAll_eq, arrange_of_tidyNode hfolded.root]

theorem tidy_applyAll_nary (op : NaryOp) (h : ∀ t ∈ ts, Tidy q t) :
    Tidy q (Rule.applyAll q (nary op ts)) := by
  rw [applyAll_nary]
  rcases foldConstants_eq_or q (nary op ts) with heq | ⟨n, heq, hn⟩
  · rw [heq]
    exact tidy_arrange h
  · rw [heq, arrange_const]
    exact (everywhere_const n).2 hn

/-- **One pass makes any term tidy.** -/
theorem tidy_pass (q : Quantum) (t : Term) : Tidy q (t.pass q) := by
  induction t using induct with
  | const n =>
    have hpos : (0 : Int) < q.cycle := Int.ofNat_lt.2 q.cycle_pos
    exact (everywhere_const _).2 ⟨Int.emod_nonneg n (by omega), Int.emod_lt_of_pos n hpos⟩
  | var x => exact (everywhere_var x).2 trivial
  | unary op t ih => rw [pass_unary]; exact tidy_applyAll_unary op ih
  | nary op ts ih =>
    rw [pass_nary]
    refine tidy_applyAll_nary op ?_
    intro u hu
    obtain ⟨t, ht, rfl⟩ := List.mem_map.1 hu
    exact ih t ht

theorem tidy_map_pass (q : Quantum) (ts : List Term) : ∀ u ∈ ts.map (pass q), Tidy q u :=
  List.forall_mem_map.2 fun t _ => tidy_pass q t

/-! ## Normal terms stay -/

theorem mapM_constant?_eq_none (h : ∃ t ∈ ts, t.isConst = false) : ts.mapM constant? = none := by
  obtain ⟨t, ht, hconst⟩ := h
  induction ts with
  | nil => simp at ht
  | cons u ts ih =>
    rw [List.mapM_cons]
    rcases List.mem_cons.1 ht with rfl | ht
    · cases t with
      | const n => simp [isConst] at hconst
      | var x => rfl
      | unary op t => rfl
      | nary op ts => rfl
    · rw [ih ht]
      cases constant? u <;> rfl

/-- An operand that is no constant keeps a node from being folded. -/
theorem foldConstants_nary_of_exists (h : ∃ t ∈ ts, t.isConst = false) :
    foldConstants q (nary op ts) = nary op ts := by
  simp only [foldConstants, mapM_constant?_eq_none h]

theorem foldConstants_of_normalNode (h : NormalNode q t) : foldConstants q t = t := by
  cases t with
  | const n =>
    rw [foldConstants, Int.emod_eq_of_lt h.1 h.2]
  | var x => rfl
  | unary op t =>
    cases t with
    | const n => exact absurd h.2.1 (by simp [isConst])
    | var x => rfl
    | unary op' t => rfl
    | nary op' ts => rfl
  | nary op ts => exact foldConstants_nary_of_exists h.2

/-- Where not every operand is a constant, the rules on operand lists act on the spliced operands in
their order, whichever way the order is found. -/
theorem applyAll_nary_of_perm {us : List Term} (hconst : ∃ t ∈ ts, t.isConst = false)
    (hperm : (ts.flatMap (spliced op)).Perm us) (hsorted : us.Pairwise (before q.width · ·)) :
    Rule.applyAll q (nary op ts) = cancelCopies q (eliminateIdentity q (nary op us)) := by
  rw [applyAll_nary, foldConstants_nary_of_exists hconst, arrange, flatten, sortOperands,
    mergeSort_before_eq hperm hsorted]

/-- No rule changes a normal node. -/
theorem applyAll_of_normalNode (h : NormalNode q t) : Rule.applyAll q t = t := by
  have hinvolution : cancelInvolution t = t := by
    cases t with
    | const n => rfl
    | var x => rfl
    | unary op t => exact cancelInvolution_of_ne h.2.2
    | nary op ts => rfl
  rw [applyAll_eq, hinvolution, expandDerived_of_tidyNode h.tidyNode,
    foldConstants_of_normalNode h, arrange_of_tidyNode h.tidyNode]

/-- A pass leaves a normal term alone. -/
theorem pass_of_normal (h : Normal q t) : t.pass q = t := by
  induction t using induct with
  | const n => exact applyAll_of_normalNode h.root
  | var x => exact applyAll_of_normalNode h.root
  | unary op t ih =>
    rw [pass_unary, ih ((everywhere_unary op t).1 h).2, applyAll_of_normalNode h.root]
  | nary op ts ih =>
    have hoperands : ∀ t ∈ ts, t.pass q = t := by
      intro t ht
      exact ih t ht (((everywhere_nary op ts).1 h).2 t ht)
    have hmap : ts.map (pass q) = ts := (List.map_congr_left hoperands).trans (List.map_id ts)
    rw [pass_nary, hmap, applyAll_of_normalNode h.root]

theorem map_pass_of_normal (h : ∀ t ∈ ts, Normal q t) : ts.map (pass q) = ts :=
  (List.map_congr_left fun t ht => pass_of_normal (h t ht)).trans (List.map_id ts)

end WordRing.Term
