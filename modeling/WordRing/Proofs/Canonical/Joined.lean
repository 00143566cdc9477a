import WordRing.Proofs.Canonical.Ground
import WordRing.Proofs.Canonical.Limit

/-!
# Terms with one normal form

Two terms are joined if after enough passes they are the same term. A pass stays within the terms
joined to the one it is applied to, and on unary nodes so does rewriting the operand alone: an
involution meets the involution under it sooner or later, whichever of them is rewritten first.
For nodes on any number of operands that fails.

## Main definitions

* `Joined q s t` — the same number of passes makes `s` and `t` equal.
-/
namespace WordRing.Term
variable {q : Quantum} {s t u : Term}

/-- After a number of passes two terms are the same. -/
def Joined (q : Quantum) (s t : Term) : Prop := ∃ k, (pass q)^[k] s = (pass q)^[k] t

namespace Joined

theorem refl (q : Quantum) (t : Term) : Joined q t t := ⟨0, rfl⟩

theorem symm (h : Joined q s t) : Joined q t s := by
  obtain ⟨k, hk⟩ := h
  exact ⟨k, hk.symm⟩

theorem trans (h : Joined q s t) (h' : Joined q t u) : Joined q s u := by
  obtain ⟨k, hk⟩ := h
  obtain ⟨j, hj⟩ := h'
  refine ⟨j + k, ?_⟩
  rw [Function.iterate_add_apply, hk, ← Function.iterate_add_apply, Nat.add_comm,
    Function.iterate_add_apply, hj, ← Function.iterate_add_apply]

theorem pass (q : Quantum) (t : Term) : Joined q t (t.pass q) := by
  obtain ⟨k, -, hsettles⟩ := exists_settlesAfter q t
  refine ⟨k, ?_⟩
  rw [← Function.iterate_succ_apply, Function.iterate_succ_apply', hsettles.settled]

theorem of_pass (h : Joined q (s.pass q) (t.pass q)) : Joined q s t :=
  (pass q s).trans (h.trans (pass q t).symm)

theorem of_pass_eq (h : s.pass q = t.pass q) : Joined q s t := ⟨1, h⟩

theorem canonical (q : Quantum) (t : Term) : Joined q t (t.canonical q) := by
  rw [canonical_eq]
  induction passLimit with
  | zero => exact refl q t
  | succ k ih =>
    rw [Function.iterate_succ_apply']
    exact ih.trans (pass q _)

/-- Joined terms that settle within the limit have one canonical form. -/
theorem canonical_eq (h : Joined q s t) (hs : Normal q (s.canonical q))
    (ht : Normal q (t.canonical q)) : s.canonical q = t.canonical q := by
  obtain ⟨k, hk⟩ := ((canonical q s).symm.trans h).trans (canonical q t)
  rwa [Function.iterate_fixed (pass_of_normal hs), Function.iterate_fixed (pass_of_normal ht)] at hk

end Joined

/-! ## Folding early -/

theorem vars_of_foldConstants_ne (h : foldConstants q t ≠ t) : t.vars = [] := by
  cases t with
  | const n => rfl
  | var x => exact absurd rfl h
  | unary op t =>
    cases t with
    | const n => rfl
    | var x => exact absurd rfl h
    | unary op' t => exact absurd rfl h
    | nary op' ts => exact absurd rfl h
  | nary op ts =>
    rw [vars_nary, List.flatMap_eq_nil_iff]
    intro t ht
    cases hconst : t.isConst with
    | true =>
      obtain ⟨n, rfl⟩ := isConst_eq_true.1 hconst
      rfl
    | false => exact absurd (foldConstants_nary_of_exists ⟨t, ht, hconst⟩) h

/-- Tidy terms without variables become the same constant in one pass if they have one value. -/
theorem pass_eq_of_ground (hs : Tidy q s) (ht : Tidy q t) (hvars : s.vars = [])
    (hvars' : t.vars = []) (hvalue : s.number q = t.number q) : s.pass q = t.pass q := by
  have hsconst := eq_const_number (tidy_pass q s) (isConst_pass_of_tidy hs hvars)
  have htconst := eq_const_number (tidy_pass q t) (isConst_pass_of_tidy ht hvars')
  have hnumber (t : Term) : (t.pass q).number q = t.number q := number_iterate_pass 1 t
  rw [hsconst, htconst, hnumber, hnumber, hvalue]

/-- On a tidy term folding the root first does not change what a pass gives. -/
theorem pass_foldConstants (h : Tidy q t) : (foldConstants q t).pass q = t.pass q := by
  by_cases hfold : foldConstants q t = t
  · rw [hfold]
  · have hvars := vars_of_foldConstants_ne hfold
    obtain ⟨n, hn, -⟩ := (foldConstants_eq_or q t).resolve_left hfold
    refine pass_eq_of_ground (tidy_foldConstants h) h (by rw [hn]; rfl) hvars ?_
    rw [number, value_foldConstants, number]

/-- A node of constants is folded now, or arranged now and folded by the next pass. -/
theorem pass_applyAll_nary (op : NaryOp) {ts : List Term} (h : ∀ t ∈ ts, Tidy q t) :
    (Rule.applyAll q (nary op ts)).pass q = (arrange q (nary op ts)).pass q := by
  rw [applyAll_nary]
  by_cases hfold : foldConstants q (nary op ts) = nary op ts
  · rw [hfold]
  · have hvars := vars_of_foldConstants_ne hfold
    obtain ⟨n, hn, hreduced⟩ := (foldConstants_eq_or q (nary op ts)).resolve_left hfold
    have hconst : Tidy q (const n) := (everywhere_const n).2 hreduced
    have hground : (arrange q (nary op ts)).vars = [] :=
      List.subset_nil.1 (hvars ▸ vars_arrange_subset q (nary op ts))
    rw [hn, arrange_const]
    refine pass_eq_of_ground hconst (tidy_arrange h) rfl hground ?_
    rw [number, number, ← hn, value_foldConstants, value_arrange op h]

/-! ## Unary nodes -/

section Involutions
variable {op : UnaryOp}

theorem applyAll_unary_pair (hop : op ∈ UnaryOp.involutions) (h : Tidy q t) :
    Rule.applyAll q (unary op (unary op t)) = foldConstants q t := by
  rw [applyAll_eq, cancelInvolution_pair hop, expandDerived_of_tidyNode h.root,
    arrange_of_tidyNode (tidy_foldConstants h).root]

theorem applyAll_unary_of_open (hop : op ∈ UnaryOp.involutions) (hconst : t.isConst = false)
    (hpair : t.isUnaryOf op = false) : Rule.applyAll q (unary op t) = unary op t :=
  applyAll_of_normalNode ⟨hop, hconst, hpair⟩

/-- An involution on top of what the rules make of it is joined to the operand. A node that the
rules leave alone stands for a larger term, for which the claim is supposed. -/
theorem joined_unary_applyAll (hop : op ∈ UnaryOp.involutions) (h : Tidy q t)
    (hopen : t.isConst = false → t.isUnaryOf op = false →
      Joined q (Rule.applyAll q (unary op (unary op t))) (unary op (unary op t))) :
    Joined q t (unary op (Rule.applyAll q (unary op t))) := by
  by_cases hpair : t.isUnaryOf op = true
  · obtain ⟨u, rfl⟩ := isUnaryOf_eq_true.1 hpair
    have hu : Tidy q u := ((everywhere_unary op u).1 h).2
    refine .of_pass_eq ?_
    rw [applyAll_unary_pair hop hu, pass_unary, pass_unary, pass_foldConstants hu]
  · rw [Bool.not_eq_true] at hpair
    by_cases hconst : t.isConst = true
    · obtain ⟨n, rfl⟩ := isConst_eq_true.1 hconst
      obtain ⟨m, hm⟩ := exists_applyAll_unary_const q hop n
      have hrules : Tidy q (Rule.applyAll q (unary op (const n))) := tidy_applyAll_unary op h
      have hnode : Tidy q (unary op (Rule.applyAll q (unary op (const n)))) :=
        (everywhere_unary op _).2 ⟨hop, hrules⟩
      refine .of_pass_eq (pass_eq_of_ground h hnode rfl (by rw [hm]; rfl) ?_)
      rw [number, number, value_unary, value_applyAll_unary op h, value_unary,
        UnaryOp.apply_apply hop]
    · rw [Bool.not_eq_true] at hconst
      have hroot := hopen hconst hpair
      rw [applyAll_unary_pair hop h] at hroot
      rw [applyAll_unary_of_open hop hconst hpair]
      exact (Joined.of_pass_eq (pass_foldConstants h)).symm.trans hroot

/-- **An involution may be rewritten before its operand**: what the rules make of the root is joined
to the term as it stands. -/
theorem joined_applyAll_unary (hop : op ∈ UnaryOp.involutions) (h : Tidy q t) :
    Joined q (Rule.applyAll q (unary op t)) (unary op t) := by
  induction hsize : t.nodeCount using Nat.strong_induction_on generalizing t with
  | _ size ih =>
    rcases normal_or_nodeCount_pass_lt h with hnormal | hlt
    · have hpass : (unary op t).pass q = Rule.applyAll q (unary op t) := by
        rw [pass_unary, pass_of_normal hnormal]
      rw [← hpass]
      exact (Joined.pass q _).symm
    · by_cases hpair : t.isUnaryOf op = true
      · obtain ⟨u, rfl⟩ := isUnaryOf_eq_true.1 hpair
        have hu : Tidy q u := ((everywhere_unary op u).1 h).2
        have hoperand : Joined q (u.pass q) (unary op ((unary op u).pass q)) := by
          refine joined_unary_applyAll hop (tidy_pass q u) ?_
          intro hconst hpair
          have hnode : Tidy q (unary op (u.pass q)) :=
            (everywhere_unary op _).2 ⟨hop, tidy_pass q u⟩
          rw [pass_unary, applyAll_unary_of_open hop hconst hpair, hsize] at hlt
          exact ih _ hlt hnode rfl
        have hroot : Joined q (unary op ((unary op u).pass q)) (unary op (unary op u)) :=
          .of_pass ((Joined.pass q _).symm.trans
            ((ih _ (hsize ▸ hlt) (tidy_pass q _) rfl).symm))
        rw [applyAll_unary_pair hop hu]
        exact (Joined.of_pass_eq (pass_foldConstants hu)).trans
          ((Joined.pass q u).trans (hoperand.trans hroot))
      · rw [Bool.not_eq_true] at hpair
        have hconst : t.isConst = false := by
          by_contra hconst
          obtain ⟨n, rfl⟩ := isConst_eq_true.1 (Bool.not_eq_false _ ▸ hconst)
          have hnormal : Normal q (const n) := (everywhere_const n).2 h.root
          rw [pass_of_normal hnormal] at hlt
          exact absurd hlt (Nat.lt_irrefl _)
        rw [applyAll_unary_of_open hop hconst hpair]
        exact .refl q _

/-- What a pass makes of the operand of an involution does not matter. -/
theorem joined_unary_pass (hop : op ∈ UnaryOp.involutions) (t : Term) :
    Joined q (unary op t) (unary op (t.pass q)) :=
  (Joined.pass q (unary op t)).trans (joined_applyAll_unary hop (tidy_pass q t))

theorem Joined.unary_of_involution (hop : op ∈ UnaryOp.involutions) (h : Joined q s t) :
    Joined q (unary op s) (unary op t) := by
  obtain ⟨k, hk⟩ := h
  have hiterate (t : Term) : Joined q (unary op t) (unary op ((Term.pass q)^[k] t)) := by
    clear hk
    induction k generalizing t with
    | zero => exact .refl q _
    | succ k ih => exact (joined_unary_pass hop t).trans (ih (t.pass q))
  exact (hiterate s).trans (hk ▸ (hiterate t).symm)

/-- An involution on a normal term is normal after one pass. -/
theorem normal_applyAll_unary (hop : op ∈ UnaryOp.involutions) (h : Normal q t) :
    Normal q (Rule.applyAll q (unary op t)) := by
  by_cases hpair : t.isUnaryOf op = true
  · obtain ⟨u, rfl⟩ := isUnaryOf_eq_true.1 hpair
    have hu : Normal q u := ((everywhere_unary op u).1 h).2
    rwa [applyAll_unary_pair hop hu.tidy, foldConstants_of_normalNode hu.root]
  · rw [Bool.not_eq_true] at hpair
    cases hconst : t.isConst with
    | true =>
      obtain ⟨n, rfl⟩ := isConst_eq_true.1 hconst
      obtain ⟨m, hm⟩ := exists_applyAll_unary_const q hop n
      have htidy : Tidy q (const m) := hm ▸ tidy_applyAll_unary op h.tidy
      rw [hm]
      exact (everywhere_const m).2 htidy.root
    | false =>
      have hnode : NormalNode q (unary op t) := ⟨hop, hconst, hpair⟩
      rw [applyAll_of_normalNode hnode]
      exact (everywhere_unary op t).2 ⟨hnode, h⟩

end Involutions

/-! ## Every unary operator -/

/-- A pass writes a successor or predecessor as the two involutions it is composed of. -/
theorem pass_unary_derived {op : UnaryOp} (hop : op ∉ UnaryOp.involutions) :
    ∃ f ∈ UnaryOp.involutions, ∃ g ∈ UnaryOp.involutions, ∀ t : Term,
      (unary op t).pass q = unary f (unary g (t.pass q)) := by
  cases op with
  | neg => exact absurd (by decide) hop
  | bnot => exact absurd (by decide) hop
  | succ => exact ⟨.neg, by decide, .bnot, by decide, fun _ => rfl⟩
  | pred => exact ⟨.bnot, by decide, .neg, by decide, fun _ => rfl⟩

/-- **Under a unary operator joined operands give joined terms.** -/
theorem Joined.unary (op : UnaryOp) (h : Joined q s t) : Joined q (unary op s) (unary op t) := by
  by_cases hop : op ∈ UnaryOp.involutions
  · exact h.unary_of_involution hop
  · obtain ⟨f, hf, g, hg, hpass⟩ := pass_unary_derived (q := q) hop
    have hoperands : Joined q (s.pass q) (t.pass q) :=
      (Joined.pass q s).symm.trans (h.trans (Joined.pass q t))
    refine .of_pass ?_
    rw [hpass, hpass]
    exact (hoperands.unary_of_involution hg).unary_of_involution hf

/-- A unary node on a normal term settles within the limit. -/
theorem normal_canonical_unary (op : UnaryOp) (h : Normal q t) :
    Normal q ((unary op t).canonical q) := by
  by_cases hop : op ∈ UnaryOp.involutions
  · refine normal_canonical_of_iterate (k := 1) (by decide) ?_
    rw [Function.iterate_one, pass_unary, pass_of_normal h]
    exact normal_applyAll_unary hop h
  · obtain ⟨f, hf, g, hg, hpass⟩ := pass_unary_derived (q := q) hop
    refine normal_canonical_of_iterate (k := 2) (by decide) ?_
    rw [Function.iterate_succ_apply, Function.iterate_one, hpass, pass_unary, pass_unary,
      pass_of_normal h, pass_of_normal h]
    exact normal_applyAll_unary hf (normal_applyAll_unary hg h)

/-- **Canonicalizing the operand first changes nothing under a unary operator.** -/
theorem canonical_unary_canonical (op : UnaryOp) (ht : Normal q (t.canonical q))
    (hnode : Normal q ((unary op t).canonical q)) :
    (unary op (t.canonical q)).canonical q = (unary op t).canonical q :=
  ((Joined.canonical q t).symm.unary op).canonical_eq (normal_canonical_unary op ht) hnode

end WordRing.Term
