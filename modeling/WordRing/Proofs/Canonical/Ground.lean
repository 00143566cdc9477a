import WordRing.Proofs.Canonical.Soundness

/-!
# Terms without variables

On a term without variables canonicalization is complete: whatever its shape, what comes out is the
constant of its value. Two passes are enough. The first expands successors and predecessors, drops
empty operand lists and leaves a tidy term; the second folds a tidy term from the leaves up.
-/
namespace WordRing.Term
variable {q : Quantum} {t : Term} {ts : List Term}

/-- The number of a term, its variables counting as zero where it has any. -/
def number (q : Quantum) (t : Term) : Nat := Bytes.toNat (t.value q fun _ => 0)

theorem number_lt_cycle (q : Quantum) (t : Term) : t.number q < q.cycle :=
  q.toNat_lt_cycle (length_value q _ t)

theorem word_number (q : Quantum) (t : Term) : q.word (t.number q) = t.value q fun _ => 0 :=
  q.word_toNat (length_value q _ t)

/-! ## Folding from the leaves up -/

/-- A reduced constant is written by its word. -/
theorem ofWord_word {n : Int} (h : Tidy q (const n)) : ofWord (q.word n) = const n := by
  obtain ⟨hnonneg, hlt⟩ : TidyNode q (const n) := h.root
  rw [ofWord, q.toNat_word, Int.emod_eq_of_lt hnonneg hlt]

/-- A reduced constant is the constant of its number. -/
theorem eq_const_number (htidy : Tidy q t) (hconst : t.isConst = true) :
    t = const (t.number q) := by
  obtain ⟨n, rfl⟩ := isConst_eq_true.1 hconst
  exact (ofWord_word htidy).symm

/-- A node folds to the constant of its number, if it has operands and all are constants. -/
theorem foldConstants_eq_const_number (op : NaryOp) (hne : ts ≠ [])
    (hconst : ∀ t ∈ ts, t.isConst = true) :
    foldConstants q (nary op ts) = const ((nary op ts).number q) := by
  obtain ⟨n, hfold⟩ := exists_foldConstants_eq_const (q := q) op hne hconst
  have htidy : Tidy q (const n) := by
    rcases foldConstants_eq_or q (nary op ts) with heq | ⟨m, heq, hm⟩
    · exact nomatch heq.symm.trans hfold
    · rw [← hfold, heq]
      exact (everywhere_const m).2 hm
  have hnumber : (const n).number q = (nary op ts).number q := by
    rw [number, ← hfold, value_foldConstants, number]
  rw [hfold, eq_const_number htidy rfl, hnumber]

theorem exists_applyAll_unary_const (q : Quantum) {op : UnaryOp} (hop : op ∈ UnaryOp.involutions)
    (n : Int) : ∃ m, Rule.applyAll q (unary op (const n)) = const m := by
  have hnode : TidyNode q (unary op (const n)) := hop
  rw [applyAll_eq, cancelInvolution_of_ne rfl, expandDerived_of_tidyNode hnode]
  exact ⟨_, rfl⟩

theorem applyAll_nary_of_isConst (op : NaryOp) (hne : ts ≠ [])
    (hconst : ∀ t ∈ ts, t.isConst = true) :
    Rule.applyAll q (nary op ts) = const ((nary op ts).number q) := by
  rw [applyAll_nary, foldConstants_eq_const_number op hne hconst, arrange_const]

/-- A pass folds a tidy term without variables into a constant. -/
theorem isConst_pass_of_tidy (htidy : Tidy q t) (hground : t.vars = []) :
    (t.pass q).isConst = true := by
  induction t using induct with
  | const n => rfl
  | var x => exact absurd hground (List.cons_ne_nil x [])
  | unary op t ih =>
    obtain ⟨hop, ht⟩ := (everywhere_unary op t).1 htidy
    obtain ⟨n, hn⟩ := isConst_eq_true.1 (ih ht hground)
    rw [pass_unary, hn]
    exact isConst_eq_true.2 (exists_applyAll_unary_const q hop n)
  | nary op ts ih =>
    obtain ⟨harranged, hts⟩ := (everywhere_nary op ts).1 htidy
    rw [vars_nary, List.flatMap_eq_nil_iff] at hground
    have hne : ts.map (pass q) ≠ [] := fun hnil =>
      Arranged.ne_nil harranged (List.map_eq_nil_iff.1 hnil)
    have hconst : ∀ u ∈ ts.map (pass q), u.isConst = true := by
      intro u hu
      obtain ⟨t, ht, rfl⟩ := List.mem_map.1 hu
      exact ih t ht (hts t ht) (hground t ht)
    rw [pass_nary, applyAll_nary_of_isConst op hne hconst]
    rfl

/-! ## Canonical forms -/

theorem number_iterate_pass (m : Nat) (t : Term) : ((pass q)^[m] t).number q = t.number q := by
  rw [number, value_iterate_pass, number]

/-- **A term without variables canonicalizes to the constant of its value.** -/
theorem canonical_of_ground (hground : t.vars = []) : t.canonical q = const (t.number q) := by
  have hvars : (t.pass q).vars = [] := List.subset_nil.1 (hground ▸ vars_pass_subset q t)
  have hfolded := eq_const_number (tidy_pass q (t.pass q))
    (isConst_pass_of_tidy (tidy_pass q t) hvars)
  have hnumber : ((t.pass q).pass q).number q = t.number q := number_iterate_pass 2 t
  rw [hnumber] at hfolded
  have hnormal := normal_const_of_lt (number_lt_cycle q t)
  have hsplit : (pass q)^[passLimit] t = (pass q)^[passLimit - 2] ((t.pass q).pass q) := rfl
  rw [canonical_eq, hsplit, hfolded, Function.iterate_fixed (pass_of_normal hnormal)]

/-- A node without operands canonicalizes to the identity of its operator. -/
theorem canonical_nary_nil (q : Quantum) (op : NaryOp) :
    (nary op []).canonical q = const (op.identity q) := by
  have hnumber : (nary op []).number q = op.identity q := by
    rw [number, value_nary, total_nil, ← Int.ofNat_inj, q.toNat_word,
      Int.emod_eq_of_lt (Int.natCast_nonneg _) (Int.ofNat_lt.2 op.identity_lt_cycle)]
  rw [canonical_of_ground (by simp), hnumber]

end WordRing.Term
