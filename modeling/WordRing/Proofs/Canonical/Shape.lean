import WordRing.Proofs.Nodes
import WordRing.Proofs.Operands

/-!
# Tidy and normal terms

A normal term is one without anything left to rewrite, said node by node and without mentioning
the rules. A tidy term satisfies the part of this that a single pass establishes: it may still
hold a cancelling pair of involutions, or a node with nothing but constants under it.

## Main definitions

* `Arranged q op ts` — the operand lists of tidy and normal nodes.
* `Tidy q t`, `Normal q t` — the conditions at every node.
-/
namespace WordRing.Term
variable {q : Quantum} {op : NaryOp} {t : Term} {ts : List Term}

/-! ## Operand lists -/

/-- What may stand among the operands of a node: no node of the same operator, and no constant
that the operator drops or that decides its result alone. -/
structure Suits (q : Quantum) (op : NaryOp) (t : Term) : Prop where
  not_nested : t.isNaryOf op = false
  ne_identity : t ≠ const (op.identity q)
  ne_annihilator : ∀ a ∈ op.annihilator? q, t ≠ const a

/-- At least two operands that suit the operator, strictly increasing. -/
structure Arranged (q : Quantum) (op : NaryOp) (ts : List Term) : Prop where
  two_le : 2 ≤ ts.length
  suits : ∀ t ∈ ts, Suits q op t
  increasing : ts.Pairwise (Precedes q.width)

instance (q : Quantum) (op : NaryOp) (t : Term) : Decidable (Suits q op t) :=
  decidable_of_iff (t.isNaryOf op = false ∧ t ≠ const (op.identity q) ∧
      ∀ a ∈ op.annihilator? q, t ≠ const a)
    ⟨fun h => ⟨h.1, h.2.1, h.2.2⟩, fun h => ⟨h.1, h.2, h.3⟩⟩

instance (q : Quantum) (op : NaryOp) (ts : List Term) : Decidable (Arranged q op ts) :=
  decidable_of_iff (2 ≤ ts.length ∧ (∀ t ∈ ts, Suits q op t) ∧ ts.Pairwise (Precedes q.width))
    ⟨fun h => ⟨h.1, h.2.1, h.2.2⟩, fun h => ⟨h.1, h.2, h.3⟩⟩

/-- Strictly increasing lists with the same members are equal. -/
theorem eq_of_mem_iff {us : List Term} (hts : ts.Pairwise (Precedes q.width))
    (hus : us.Pairwise (Precedes q.width)) (hmem : ∀ u, u ∈ ts ↔ u ∈ us) : ts = us := by
  obtain ⟨hsorted, hnodup⟩ := pairwise_precedes_iff.1 hts
  obtain ⟨hsorted', hnodup'⟩ := pairwise_precedes_iff.1 hus
  exact ((List.perm_ext_iff_of_nodup hnodup hnodup').2 hmem).eq_of_pairwise
    (fun _ _ _ _ => before_antisymm) hsorted hsorted'

theorem Arranged.nodup (h : Arranged q op ts) : ts.Nodup :=
  (pairwise_precedes_iff.1 h.increasing).2

theorem Arranged.sorted (h : Arranged q op ts) : ts.Pairwise (before q.width · ·) :=
  (pairwise_precedes_iff.1 h.increasing).1

/-! ## Terms -/

/-- What one pass establishes at a node. -/
def TidyNode (q : Quantum) : Term → Prop
  | const n => 0 ≤ n ∧ n < q.cycle
  | var _ => True
  | unary op _ => op ∈ UnaryOp.involutions
  | nary op ts => Arranged q op ts

/-- A node at which nothing is left to rewrite: constants are reduced, unary nodes are involutions
with neither a constant nor the same involution under them, and operand lists are arranged and
hold more than constants. -/
def NormalNode (q : Quantum) : Term → Prop
  | const n => 0 ≤ n ∧ n < q.cycle
  | var _ => True
  | unary op t => op ∈ UnaryOp.involutions ∧ t.isConst = false ∧ t.isUnaryOf op = false
  | nary op ts => Arranged q op ts ∧ ∃ t ∈ ts, t.isConst = false

instance (q : Quantum) : DecidablePred (NormalNode q)
  | const _ => instDecidableAnd
  | var _ => instDecidableTrue
  | unary _ _ => instDecidableAnd
  | nary _ _ => instDecidableAnd

/-- A term all of whose nodes are as a pass leaves them. -/
abbrev Tidy (q : Quantum) (t : Term) : Prop := Everywhere (TidyNode q) t

/-- A term with nothing left to rewrite. -/
abbrev Normal (q : Quantum) (t : Term) : Prop := Everywhere (NormalNode q) t

theorem NormalNode.tidyNode (h : NormalNode q t) : TidyNode q t := by
  cases t with
  | const n => exact h
  | var x => trivial
  | unary op t => exact h.1
  | nary op ts => exact h.1

theorem Normal.tidy (h : Normal q t) : Tidy q t := fun u hu => (h u hu).tidyNode

/-- A reduced constant is normal. -/
theorem normal_const_of_lt {n : Nat} (h : n < q.cycle) : Normal q (const n) :=
  (everywhere_const _).2 ⟨Int.natCast_nonneg n, Int.ofNat_lt.2 h⟩

/-- A tidy constant is normal. -/
theorem normal_of_isConst (h : Tidy q t) (hconst : t.isConst = true) : Normal q t := by
  obtain ⟨n, rfl⟩ := isConst_eq_true.1 hconst
  exact (everywhere_const n).2 h.root

end WordRing.Term
