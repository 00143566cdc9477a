import Mathlib.Tactic.Common
import WordRing.Term

/-!
# Nodes of a term

The nodes of a term, each given as the term that it heads. `Everywhere P t` says `P` of all of
them; its equations follow the constructors, so a proof about every node is an induction over the
term that looks at one root at a time.
-/
namespace WordRing.Term

/-- The terms headed by the nodes of a term, from the root down. -/
def nodes : Term → List Term
  | const n => [const n]
  | var x => [var x]
  | unary op t => unary op t :: nodes t
  | nary op ts => nary op ts :: nodesAll ts
where
  /-- The nodes of an operand list. -/
  nodesAll : List Term → List Term
    | [] => []
    | t :: ts => nodes t ++ nodesAll ts

theorem mem_nodesAll {u : Term} {ts : List Term} :
    u ∈ nodes.nodesAll ts ↔ ∃ t ∈ ts, u ∈ t.nodes := by
  induction ts with
  | nil => simp [nodes.nodesAll]
  | cons t ts ih => simp [nodes.nodesAll, ih]

/-- A property of every node. -/
def Everywhere (P : Term → Prop) (t : Term) : Prop := ∀ u ∈ t.nodes, P u

instance (P : Term → Prop) [DecidablePred P] (t : Term) : Decidable (Everywhere P t) :=
  inferInstanceAs (Decidable (∀ u ∈ t.nodes, P u))

section Everywhere
variable {P Q : Term → Prop}

@[simp] theorem everywhere_const (n : Int) : Everywhere P (const n) ↔ P (const n) := by
  simp [Everywhere, nodes]

@[simp] theorem everywhere_var (x : VarName) : Everywhere P (var x) ↔ P (var x) := by
  simp [Everywhere, nodes]

@[simp] theorem everywhere_unary (op : UnaryOp) (t : Term) :
    Everywhere P (unary op t) ↔ P (unary op t) ∧ Everywhere P t := by
  simp [Everywhere, nodes]

@[simp] theorem everywhere_nary (op : NaryOp) (ts : List Term) :
    Everywhere P (nary op ts) ↔ P (nary op ts) ∧ ∀ t ∈ ts, Everywhere P t := by
  simp only [Everywhere, nodes, List.forall_mem_cons, mem_nodesAll]
  constructor
  · rintro ⟨hroot, hbelow⟩
    exact ⟨hroot, fun t ht u hu => hbelow u ⟨t, ht, hu⟩⟩
  · rintro ⟨hroot, hbelow⟩
    refine ⟨hroot, ?_⟩
    rintro u ⟨t, ht, hu⟩
    exact hbelow t ht u hu

theorem Everywhere.root {t : Term} (h : Everywhere P t) : P t := by
  cases t with
  | const n => exact (everywhere_const n).1 h
  | var x => exact (everywhere_var x).1 h
  | unary op t => exact ((everywhere_unary op t).1 h).1
  | nary op ts => exact ((everywhere_nary op ts).1 h).1

/-- What holds of every node of a term holds of every node of a term inside it. -/
theorem Everywhere.of_mem_nodes {t u : Term} (h : Everywhere P t) (hu : u ∈ t.nodes) :
    Everywhere P u := by
  induction t using induct with
  | const n => rwa [List.mem_singleton.1 hu]
  | var x => rwa [List.mem_singleton.1 hu]
  | unary op t ih =>
    rcases List.mem_cons.1 hu with rfl | hu
    · exact h
    · exact ih ((everywhere_unary op t).1 h).2 hu
  | nary op ts ih =>
    rcases List.mem_cons.1 hu with rfl | hu
    · exact h
    · obtain ⟨t, ht, hu⟩ := mem_nodesAll.1 hu
      exact ih t ht (((everywhere_nary op ts).1 h).2 t ht) hu

end Everywhere

/-! ## Kinds of nodes -/

/-- Whether a term is a node of a unary operator. -/
def isUnaryOf (op : UnaryOp) : Term → Bool
  | unary op' _ => op' = op
  | _ => false

/-- Whether a term is a node of an operator on any number of operands. -/
def isNaryOf (op : NaryOp) : Term → Bool
  | nary op' _ => op' = op
  | _ => false

@[simp] theorem isConst_eq_true {t : Term} : t.isConst = true ↔ ∃ n, t = const n := by
  cases t <;> simp [isConst]

@[simp] theorem isUnaryOf_eq_true {op : UnaryOp} {t : Term} :
    t.isUnaryOf op = true ↔ ∃ u, t = unary op u := by
  cases t <;> simp [isUnaryOf]

@[simp] theorem isNaryOf_eq_true {op : NaryOp} {t : Term} :
    t.isNaryOf op = true ↔ ∃ ts, t = nary op ts := by
  cases t <;> simp [isNaryOf]

end WordRing.Term
