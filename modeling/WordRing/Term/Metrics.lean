import WordRing.Json
import WordRing.Term

/-!
# Metrics of terms

Sizes of a term as a tree: how deep it is, how many nodes it has, and how often each operator
occurs. They are properties of the term, whatever it evaluates to.
-/
namespace WordRing

namespace Term

/-- The number of operators on the longest way down. -/
def depth : Term → Nat :=
  fold (fun _ => 0) (fun _ => 0) (fun _ d => d + 1) (fun _ ds => ds.foldl max 0 + 1)

/-- The number of nodes. -/
def nodeCount : Term → Nat :=
  fold (fun _ => 1) (fun _ => 1) (fun _ n => n + 1) (fun _ ns => ns.foldr (· + ·) 1)

/-- How often an operator occurs. -/
def occurrences (o : Operator) : Term → Nat :=
  fold (fun _ => 0) (fun _ => 0) (fun op n => n + if o = .unary op then 1 else 0)
    (fun op ns => ns.foldr (· + ·) (if o = .nary op then 1 else 0))

@[simp] theorem nodeCount_const (n : Int) : (const n).nodeCount = 1 := rfl

@[simp] theorem nodeCount_var (x : VarName) : (var x).nodeCount = 1 := rfl

@[simp] theorem nodeCount_unary (op : UnaryOp) (t : Term) :
    (unary op t).nodeCount = t.nodeCount + 1 := rfl

@[simp] theorem nodeCount_nary (op : NaryOp) (ts : List Term) :
    (nary op ts).nodeCount = (ts.map nodeCount).foldr (· + ·) 1 := by
  simp [nodeCount]

end Term

/-- The sizes of a term. -/
structure TermMetrics where
  depth : Nat
  nodeCount : Nat
  /-- The operators that occur, by name, each with its count. -/
  opCounts : List (Operator × Nat)
deriving DecidableEq, Repr

/-- The sizes of a term. -/
def Term.metrics (t : Term) : TermMetrics where
  depth := t.depth
  nodeCount := t.nodeCount
  opCounts := (Operator.all.map fun o => (o, t.occurrences o)).filter fun (_, n) => n ≠ 0

/-- The sizes as an object. -/
def TermMetrics.toJson (m : TermMetrics) : Json :=
  .obj [("depth", .nat m.depth), ("nodeCount", .nat m.nodeCount),
    ("opCounts", .obj (m.opCounts.map fun (o, n) => (o.name, .nat n)))]

end WordRing
