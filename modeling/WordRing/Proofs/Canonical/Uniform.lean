import WordRing.Proofs.Canonical.Joined
import WordRing.Proofs.Canonical.Readout

/-!
# Terms of one operator

Terms built from variables and nodes of one operator have one canonical form exactly if they stand
for the same word whatever the variables do. The constants that a pass makes of such terms are the
identity, and it is dropped from every operand list, so a canonical form keeps one constant at most
and is told from others by weights that put on every constant the word it writes. On terms of one
operator such a weight is an assignment: it gives each variable the word it puts on it.

## Main definitions

* `Uniform op t` — `t` is built from variables and nodes of `op`.
-/
namespace WordRing.Term
open Weight
variable {q : Quantum} {op : NaryOp} {s t u : Term}

/-- What may be a node of a term of one operator. -/
def UniformNode (op : NaryOp) : Term → Prop
  | var _ => True
  | nary op' _ => op' = op
  | _ => False

instance (op : NaryOp) : DecidablePred (UniformNode op)
  | var _ => instDecidableTrue
  | nary _ _ => instDecidableEqNaryOp _ _
  | const _ => instDecidableFalse
  | unary _ _ => instDecidableFalse

/-- A term built from variables and nodes of one operator. -/
abbrev Uniform (op : NaryOp) (t : Term) : Prop := Everywhere (UniformNode op) t

theorem uniform_nary {op' : NaryOp} {ts : List Term} (h : Uniform op (nary op' ts)) :
    op' = op ∧ ∀ t ∈ ts, Uniform op t := (everywhere_nary op' ts).1 h

theorem Uniform.isConst_eq_false (h : Uniform op t) : t.isConst = false := by
  cases t with
  | const n => exact absurd h.root id
  | var x => rfl
  | unary f t => rfl
  | nary op' ts => rfl

/-- A term is of one operator if its operands under that operator are. -/
theorem uniform_iff_spliced : Uniform op t ↔ ∀ u ∈ spliced op t, Uniform op u := by
  rcases spliced_eq_or op t with ⟨us, rfl, heq⟩ | ⟨-, heq⟩
  · have hroot : UniformNode op (nary op us) := rfl
    rw [heq, Uniform, everywhere_nary, and_iff_right hroot]
  · rw [heq, List.forall_mem_singleton]

/-! ## Passes -/

/-- Where every variable stands for the identity, so does the term. -/
theorem value_of_uniform_identity (h : Uniform op t) :
    t.value q (fun _ => op.identity q) = q.word (op.identity q) := by
  induction t using induct with
  | const n => exact absurd h.root id
  | var x => rfl
  | unary f t => exact absurd h.root id
  | nary op' ts ih =>
    obtain ⟨rfl, hts⟩ := uniform_nary h
    rw [value_nary, total_eq]
    exact total_of_forall_identity _ fun t ht => ih t ht (hts t ht)

/-- The identity is the only constant that a pass makes of a term of one operator. -/
theorem Uniform.pass_eq_identity (h : Uniform op t) (hconst : (t.pass q).isConst = true) :
    t.pass q = const (op.identity q) := by
  obtain ⟨n, hn⟩ := isConst_eq_true.1 hconst
  have htidy : Tidy q (const n) := hn ▸ tidy_pass q t
  have hidentity : Normal q (const (op.identity q)) := normal_const_of_lt op.identity_lt_cycle
  have hword : q.word n = q.word (op.identity q) := by
    rw [← value_of_uniform_identity h, ← value_pass, hn, value_const]
  rw [hn, ← ofWord_word htidy, hword, ofWord_word hidentity.tidy]

/-- A pass makes of a term of one operator the identity or another such term. -/
theorem Uniform.pass_eq_or (h : Uniform op t) :
    t.pass q = const (op.identity q) ∨ Uniform op (t.pass q) := by
  induction t using induct with
  | const n => exact absurd h.root id
  | var x => exact .inr h
  | unary f t => exact absurd h.root id
  | nary op' ts ih =>
    obtain ⟨rfl, hts⟩ := uniform_nary h
    cases hconst : ((nary op' ts).pass q).isConst with
    | true => exact .inl (h.pass_eq_identity hconst)
    | false =>
      refine .inr (uniform_iff_spliced.2 ?_)
      intro u hu
      have hsuits := suits_of_mem_spliced (tidy_pass q _) hconst hu
      -- The operand was there before, in one of the operands rewritten alone.
      rw [pass_nary] at hu hconst
      have hsubset : spliced op' (Rule.applyAll q (nary op' (ts.map (pass q)))) ⊆
          (ts.map (pass q)).flatMap (spliced op') :=
        (isConst_or_spliced_subset (tidy_map_pass q ts)).resolve_left (by simp [hconst])
      obtain ⟨v, hv, huv⟩ := List.mem_flatMap.1 (hsubset hu)
      obtain ⟨t, ht, rfl⟩ := List.mem_map.1 hv
      rcases ih t ht (hts t ht) with heq | huniform
      · rw [heq] at huv
        exact absurd (List.mem_singleton.1 huv) hsuits.ne_identity
      · exact uniform_iff_spliced.1 huniform u huv

theorem Uniform.iterate_pass_eq_or (h : Uniform op t) (k : Nat) :
    (pass q)^[k] t = const (op.identity q) ∨ Uniform op ((pass q)^[k] t) := by
  induction k with
  | zero => exact .inr h
  | succ k ih =>
    rw [Function.iterate_succ_apply']
    rcases ih with heq | huniform
    · exact .inl (by rw [heq, pass_of_normal (normal_const_of_lt op.identity_lt_cycle)])
    · exact huniform.pass_eq_or

/-- The canonical form of a term of one operator keeps one constant at most. -/
theorem Uniform.length_filter_isConst_le_one (h : Uniform op t) :
    ((spliced op (t.canonical q)).filter isConst).length ≤ 1 := by
  rw [canonical_eq]
  rcases h.iterate_pass_eq_or passLimit with heq | huniform
  · rw [heq]
    exact List.length_filter_le _ _
  · have hnone : ∀ u ∈ spliced op ((pass q)^[passLimit] t), ¬ u.isConst = true := by
      intro u hu
      simp [(uniform_iff_spliced.1 huniform u hu).isConst_eq_false]
    rw [List.filter_eq_nil_iff.2 hnone]
    exact Nat.zero_le 1

/-! ## Weights as assignments -/

/-- A canonical form weighs what the term is worth where every variable stands for its weight. -/
theorem Uniform.spread_canonical {w : Weight q} (hw : w.Folds) (h : Uniform op t) :
    w.spread op (t.canonical q) = t.value q fun x => Bytes.toNat (w (var x)) := by
  induction t using induct with
  | const n => exact absurd h.root id
  | var x =>
    have hnormal : Normal q (var x) := (everywhere_var x).2 trivial
    rw [canonical_of_normal hnormal, spread_of_not_nested w rfl, value_var,
      q.word_toNat (w.length_word _)]
  | unary f t => exact absurd h.root id
  | nary op' ts ih =>
    obtain ⟨rfl, hts⟩ := uniform_nary h
    have hrun := @spread_iterate_pass q op' ts w (passLimit - 1) (hw.respects op') (.inl hw)
    rw [Nat.sub_add_cancel passLimit_pos, ← canonical_eq] at hrun
    rw [hrun, value_nary, total_eq]
    refine total_congr _ ?_
    intro t ht
    rw [after_apply, ← canonical_eq, ih t ht (hts t ht)]
    rfl

/-- Terms of one operator that agree under every assignment have one canonical form. -/
theorem Uniform.canonical_eq_of_value_eq (hs : Uniform op s) (ht : Uniform op t)
    (h : ∀ a : VarName → Fin q.cycle,
      s.value q (fun x => (a x : Nat)) = t.value q fun x => (a x : Nat)) :
    s.canonical q = t.canonical q := by
  have hspread (w : Weight q) (hw : w.Folds) :
      w.spread op (s.canonical q) = w.spread op (t.canonical q) := by
    rw [hs.spread_canonical hw, ht.spread_canonical hw]
    exact h fun x => ⟨Bytes.toNat (w (var x)), q.toNat_lt_cycle (w.length_word (var x))⟩
  exact eq_of_length_filter_isConst_le_one (tidy_canonical q s) (tidy_canonical q t) hspread
    hs.length_filter_isConst_le_one ht.length_filter_isConst_le_one

/-- **Canonicalization decides equality of terms of one operator**: their canonical forms are equal
if and only if a sound ring evaluates the terms to the same word under every assignment of its
elements to the variables. -/
theorem canonical_eq_iff_evaluate_eq (q : Quantum) (verified : Bool) (op : NaryOp) (s t : Term)
    (hs : Uniform op s) (ht : Uniform op t) :
    let r : ByteRing := { ByteRing.sound q with verified }
    s.canonical q = t.canonical q ↔ ∀ a : VarName → Fin q.cycle, ∃ b,
      r.evaluate (s.instantiate fun x => (a x : Nat)) = .ok b ∧
      r.evaluate (t.instantiate fun x => (a x : Nat)) = .ok b := by
  intro r
  constructor
  · intro h a
    refine ⟨_, ByteRing.evaluate_instantiate q verified _ s, ?_⟩
    rw [← value_iterate_pass passLimit s, ← canonical_eq, h, canonical_eq, value_iterate_pass]
    exact ByteRing.evaluate_instantiate q verified _ t
  · intro h
    refine hs.canonical_eq_of_value_eq ht fun a => ?_
    obtain ⟨b, hsb, htb⟩ := h a
    rw [ByteRing.evaluate_instantiate] at hsb htb
    exact Except.ok.inj (hsb.trans htb.symm)

/-- A variable and an exclusive or in which the copies of another one cancel across the nesting, and
of which the node without operands is dropped. -/
theorem canonical_eq_iff_evaluate_eq_nested :
    let r : ByteRing := { ByteRing.sound ⟨0⟩ with verified := true }
    let x : Term := var ⟨"x", by decide⟩
    let y : Term := var ⟨"y", by decide⟩
    let s : Term := nary .xor [x, nary .xor [y, x], nary .xor []]
    Uniform .xor s ∧ Uniform .xor y ∧
    (s.canonical ⟨0⟩ = y.canonical ⟨0⟩ ↔ ∀ a : VarName → Fin (Quantum.cycle ⟨0⟩), ∃ b,
      r.evaluate (s.instantiate fun x => (a x : Nat)) = .ok b ∧
      r.evaluate (y.instantiate fun x => (a x : Nat)) = .ok b) := by
  intro r x y s
  have hs : Uniform .xor s := by decide
  have hy : Uniform .xor y := by decide
  exact ⟨hs, hy, canonical_eq_iff_evaluate_eq ⟨0⟩ true .xor s y hs hy⟩

end WordRing.Term
