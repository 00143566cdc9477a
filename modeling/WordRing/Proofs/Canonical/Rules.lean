import WordRing.Proofs.Canonical.Pass
import WordRing.Proofs.Value

/-!
# Rules on their own

Each rule keeps the value of any term it is applied to, whatever constants stand for the variables,
with one exception: cancelling copies answers zero where there are no operands, which is not what a
conjunction of nothing stands for. No rule makes such a conjunction where there was none.

## Main definitions

* `Occupied t` — no node of `t` is a conjunction without operands.
-/
namespace WordRing.Term
variable {q : Quantum} {s : VarName → Int} {op : NaryOp} {t u : Term} {ts : List Term}

/-! ## Rules on unary nodes and constants -/

theorem value_cancelInvolution (t : Term) : (cancelInvolution t).value q s = t.value q s := by
  unfold cancelInvolution
  split
  · exact (Bytes.neg_neg _).symm
  · exact (Bytes.bnot_bnot _).symm
  · rfl

theorem value_expandDerived (t : Term) : (expandDerived t).value q s = t.value q s := by
  unfold expandDerived
  split
  · rfl
  · rfl
  · rfl

theorem value_ofWord {b : Bytes} (hb : b.length = q.width) : (ofWord b).value q s = b :=
  q.word_toNat hb

theorem mapM_constant?_eq_some {ns : List Int} (h : ts.mapM constant? = some ns) :
    ts = ns.map const := by
  induction ts generalizing ns with
  | nil =>
    obtain rfl : [] = ns := Option.some_inj.1 h
    rfl
  | cons t ts ih =>
    rw [List.mapM_cons] at h
    cases t with
    | const n =>
      cases hrest : ts.mapM constant? with
      | none => simp [hrest, constant?] at h
      | some ms =>
        obtain rfl : n :: ms = ns := by simpa [hrest, constant?] using h
        rw [ih hrest, List.map_cons]
    | var x => simp [constant?] at h
    | unary op t => simp [constant?] at h
    | nary op ts => simp [constant?] at h

/-- Folding computes what evaluation does: the words of the constants under the operator. -/
theorem value_foldConstants (t : Term) : (foldConstants q t).value q s = t.value q s := by
  cases t with
  | const n => exact q.word_emod n
  | var x => rfl
  | unary op t =>
    cases t with
    | const n => exact value_ofWord (by rw [UnaryOp.length_apply, q.length_word])
    | var x => rfl
    | unary op' t => rfl
    | nary op' ts => rfl
  | nary op ts =>
    rw [foldConstants]
    split
    · next n ns hconst =>
      have hstart : op.apply (ByteRing.start q op) (q.word n) = q.word n := by
        rw [start_eq, op.apply_comm, op.apply_identity (q.length_word n)]
      rw [value_ofWord (length_foldl_word op n ns), value_nary, total,
        mapM_constant?_eq_some hconst, List.map_cons, List.map_cons, List.foldl_cons, value_const,
        hstart, List.map_map, List.foldl_map]
      rfl
    · rfl

/-! ## Rules on operand lists -/

theorem total_spliced (t : Term) : total q s op (spliced op t) = t.value q s := by
  rcases spliced_eq_or op t with ⟨ts, rfl, heq⟩ | ⟨-, heq⟩
  · rw [heq, value_nary]
  · rw [heq, total_singleton]

theorem value_flatten (t : Term) : (flatten t).value q s = t.value q s := by
  cases t with
  | const n => rfl
  | var x => rfl
  | unary op t => rfl
  | nary op ts =>
    rw [flatten, value_nary, value_nary]
    induction ts with
    | nil => rfl
    | cons t ts ih => rw [List.flatMap_cons, total_append, total_spliced, ih, total_cons]

theorem value_sortOperands (t : Term) : (sortOperands q t).value q s = t.value q s := by
  cases t with
  | const n => rfl
  | var x => rfl
  | unary op t => rfl
  | nary op ts =>
    rw [sortOperands, value_nary, value_nary, total_perm (List.mergeSort_perm ts _)]

theorem value_rebuild {empty : Int} (hempty : ts = [] → q.word empty = q.word (op.identity q)) :
    (rebuild op empty ts).value q s = total q s op ts := by
  match ts, hempty with
  | [], hempty => rw [rebuild, value_const, hempty rfl, total_nil]
  | [t], _ => rw [rebuild, total_singleton]
  | t :: u :: us, _ => rw [rebuild_of_two_le op empty (by simp), value_nary]

theorem value_eliminateIdentity (t : Term) :
    (eliminateIdentity q t).value q s = t.value q s := by
  cases t with
  | const n => rfl
  | var x => rfl
  | unary op t => rfl
  | nary op ts =>
    rw [value_nary]
    rcases eliminateIdentity_eq_or q op ts with ⟨a, ha, hmem, heq⟩ | ⟨-, heq⟩
    · rw [heq, value_const, total_eq, Weight.total_of_mem _ ha hmem rfl]
    · rw [heq, value_rebuild fun _ => rfl, total_eq, Weight.total_filter, total_eq]
      intro t _ ht
      obtain rfl : t = const (op.identity q) := by simpa using ht
      rfl

/-! ## Copies -/

theorem value_cancelCopies (h : t ≠ nary .and []) :
    (cancelCopies q t).value q s = t.value q s := by
  cases t with
  | const n => rfl
  | var x => rfl
  | unary op t => rfl
  | nary op ts =>
    have hempty : kept op ts = [] → q.word 0 = q.word (op.identity q) := by
      intro hkept
      cases op with
      | xor => rfl
      | and =>
        have hne : ts ≠ [] := fun hnil => h (by rw [hnil])
        exact absurd hkept (kept_ne_nil (by decide) hne)
      | or => rfl
    rw [cancelCopies_nary, value_rebuild hempty, total_eq, Weight.total_kept, value_nary, total_eq]

/-- **A rule keeps the value of a term**, unless it cancels copies in an empty conjunction. -/
theorem value_apply (rule : Rule) (h : rule ≠ .selfCancellation ∨ t ≠ nary .and []) :
    (rule.apply q t).value q s = t.value q s := by
  cases rule with
  | involutionCancellation => exact value_cancelInvolution t
  | derivedExpansion => exact value_expandDerived t
  | constantFolding => exact value_foldConstants t
  | associativeFlattening => exact value_flatten t
  | commutativeSorting => exact value_sortOperands t
  | identityElimination => exact value_eliminateIdentity t
  | selfCancellation => exact value_cancelCopies (h.resolve_left (absurd rfl))

/-! ## The empty conjunction -/

theorem apply_selfCancellation_nary_nil (q : Quantum) :
    Rule.selfCancellation.apply q (nary .and []) = const 0 := rfl

theorem apply_identityElimination_nary_nil (q : Quantum) :
    Rule.identityElimination.apply q (nary .and []) = const q.mask := rfl

theorem apply_nary_nil {rule : Rule} (hdrop : rule ≠ .identityElimination)
    (hcancel : rule ≠ .selfCancellation) : rule.apply q (nary .and []) = nary .and [] := by
  cases rule with
  | identityElimination => exact absurd rfl hdrop
  | selfCancellation => exact absurd rfl hcancel
  | commutativeSorting => simp [Rule.apply, sortOperands]
  | _ => rfl

theorem value_nary_nil_ne (q : Quantum) (s : VarName → Int) :
    (const 0).value q s ≠ (nary .and []).value q s := by
  have hne := NaryOp.mark_ne_identity q .and
  rw [value_const, value_nary, total_nil, q.word_zero]
  exact hne

/-! ## Terms without empty conjunctions -/

/-- No node is a conjunction without operands. -/
abbrev Occupied (t : Term) : Prop := Everywhere (· ≠ nary .and []) t

theorem occupied_const (n : Int) : Occupied (const n) := (everywhere_const n).2 nofun

theorem occupied_var (x : VarName) : Occupied (var x) := (everywhere_var x).2 nofun

theorem occupied_unary (op : UnaryOp) : Occupied (unary op t) ↔ Occupied t := by
  rw [Occupied, everywhere_unary, and_iff_right nofun]

theorem occupied_of_mem_spliced (h : Occupied t) (hu : u ∈ spliced op t) : Occupied u := by
  rcases spliced_eq_or op t with ⟨us, rfl, heq⟩ | ⟨-, heq⟩
  · exact ((everywhere_nary op us).1 h).2 u (heq ▸ hu)
  · exact List.mem_singleton.1 (heq ▸ hu) ▸ h

theorem occupied_rebuild (op : NaryOp) (empty : Int) (h : ∀ t ∈ ts, Occupied t) :
    Occupied (rebuild op empty ts) := by
  match ts, h with
  | [], _ => exact occupied_const empty
  | [t], h => exact h t List.mem_cons_self
  | t :: u :: us, h => exact (everywhere_nary op _).2 ⟨(fun heq => nomatch (nary.inj heq).2), h⟩

theorem occupied_cancelInvolution (h : Occupied t) : Occupied (cancelInvolution t) := by
  unfold cancelInvolution
  split
  · exact (occupied_unary _).1 ((occupied_unary _).1 h)
  · exact (occupied_unary _).1 ((occupied_unary _).1 h)
  · exact h

theorem occupied_expandDerived (h : Occupied t) : Occupied (expandDerived t) := by
  unfold expandDerived
  split
  · exact (occupied_unary _).2 ((occupied_unary _).2 ((occupied_unary _).1 h))
  · exact (occupied_unary _).2 ((occupied_unary _).2 ((occupied_unary _).1 h))
  · exact h

theorem occupied_foldConstants (q : Quantum) (h : Occupied t) : Occupied (foldConstants q t) := by
  rcases foldConstants_eq_or q t with heq | ⟨n, heq, -⟩
  · rwa [heq]
  · rw [heq]
    exact occupied_const n

/-- Operands are taken over, one at least from each of them. -/
theorem occupied_flatten (h : Occupied (nary op ts)) : Occupied (flatten (nary op ts)) := by
  obtain ⟨hroot, hts⟩ := (everywhere_nary op ts).1 h
  refine (everywhere_nary op _).2 ⟨?_, ?_⟩
  · intro heq
    obtain ⟨rfl, hnil⟩ := nary.inj heq
    have hne : ts ≠ [] := by
      rintro rfl
      exact hroot rfl
    obtain ⟨t, us, rfl⟩ := List.exists_cons_of_ne_nil hne
    have ht : spliced .and t = [] := List.flatMap_eq_nil_iff.1 hnil t List.mem_cons_self
    rcases spliced_eq_or .and t with ⟨vs, rfl, hspliced⟩ | ⟨-, hspliced⟩
    · exact (hts _ List.mem_cons_self).root (by rw [← hspliced, ht])
    · rw [hspliced] at ht
      exact nomatch ht
  · intro u hu
    obtain ⟨t, ht, hut⟩ := List.mem_flatMap.1 hu
    exact occupied_of_mem_spliced (hts t ht) hut

theorem occupied_sortOperands (q : Quantum) (h : Occupied (nary op ts)) :
    Occupied (sortOperands q (nary op ts)) := by
  obtain ⟨hroot, hts⟩ := (everywhere_nary op ts).1 h
  have hperm := List.mergeSort_perm ts (before q.width)
  refine (everywhere_nary op _).2 ⟨?_, fun t ht => hts t (hperm.mem_iff.1 ht)⟩
  intro heq
  obtain ⟨rfl, hnil⟩ := nary.inj heq
  rw [hnil] at hperm
  exact hroot (by rw [hperm.nil_eq])

theorem occupied_eliminateIdentity (q : Quantum) (op : NaryOp) (h : ∀ t ∈ ts, Occupied t) :
    Occupied (eliminateIdentity q (nary op ts)) := by
  rcases eliminateIdentity_eq_or q op ts with ⟨a, -, -, heq⟩ | ⟨-, heq⟩
  · rw [heq]
    exact occupied_const a
  · rw [heq]
    exact occupied_rebuild op _ fun t ht => h t (List.mem_of_mem_filter ht)

theorem occupied_cancelCopies (q : Quantum) (op : NaryOp) (h : ∀ t ∈ ts, Occupied t) :
    Occupied (cancelCopies q (nary op ts)) := by
  rw [cancelCopies_nary]
  exact occupied_rebuild op 0 fun t ht => h t ((kept_sublist op ts).subset ht)

/-- **No rule makes an empty conjunction** of a term that has none. -/
theorem occupied_apply (rule : Rule) (h : Occupied t) : Occupied (rule.apply q t) := by
  cases rule with
  | involutionCancellation => exact occupied_cancelInvolution h
  | derivedExpansion => exact occupied_expandDerived h
  | constantFolding => exact occupied_foldConstants q h
  | associativeFlattening =>
    cases t with
    | nary op ts => exact occupied_flatten h
    | _ => exact h
  | commutativeSorting =>
    cases t with
    | nary op ts => exact occupied_sortOperands q h
    | _ => exact h
  | identityElimination =>
    cases t with
    | nary op ts => exact occupied_eliminateIdentity q op ((everywhere_nary op ts).1 h).2
    | _ => exact h
  | selfCancellation =>
    cases t with
    | nary op ts => exact occupied_cancelCopies q op ((everywhere_nary op ts).1 h).2
    | _ => exact h

end WordRing.Term
