import WordRing.Quantum
import WordRing.Text.Order
import WordRing.Term.Written

/-!
# Canonicalization rules

The seven rules that bring a term into canonical form, each a function on the root of a term at a
quantum level. None changes what a term evaluates to, but that the last one makes zero of a
conjunction without operands. Terms are compared and ordered through their writing at the width of
the ring, which tells any two terms apart.

## Main definitions

* `Rule.apply q rule t` — one rule at the root of `t`.
* `Rule.applyAll q t` — all rules at the root, in the order in which a pass applies them.
-/
namespace WordRing

/-- A rule of canonicalization. -/
inductive Rule where
  | involutionCancellation
  | derivedExpansion
  | constantFolding
  | associativeFlattening
  | commutativeSorting
  | identityElimination
  | selfCancellation
deriving DecidableEq, Repr

namespace NaryOp
variable (q : Quantum)

/-- The operand that changes nothing. -/
def identity : NaryOp → Nat
  | xor => 0
  | and => q.mask
  | or => 0

/-- The operand that decides the result alone; exclusive or has none. -/
def annihilator? : NaryOp → Option Nat
  | xor => none
  | and => some 0
  | or => some q.mask

end NaryOp

namespace Term
variable (q : Quantum)

/-! ## Rules on unary nodes -/

/-- Two equal involutions in a row cancel. -/
def cancelInvolution : Term → Term
  | unary .neg (unary .neg t) => t
  | unary .bnot (unary .bnot t) => t
  | t => t

/-- Successor and predecessor become the involutions they are composed of. -/
def expandDerived : Term → Term
  | unary .succ t => unary .neg (unary .bnot t)
  | unary .pred t => unary .bnot (unary .neg t)
  | t => t

/-! ## Constants -/

/-- The constant of a word. -/
def ofWord (b : Bytes) : Term := const (Bytes.toNat b)

/-- A constant is reduced, and a node with nothing but constants under it, one at least, becomes
the constant that it evaluates to. -/
def foldConstants : Term → Term
  | const n => const (n % q.cycle)
  | unary op (const n) => ofWord (op.apply (q.word n))
  | nary op ts =>
    match ts.mapM constant? with
    | some (n :: ns) => ofWord (ns.foldl (fun b m => op.apply b (q.word m)) (q.word n))
    | _ => nary op ts
  | t => t

/-! ## Rules on nodes with any number of operands -/

/-- What an operand contributes to a node of an operator: its own operands, if it is a node of the
same operator, and itself otherwise. -/
def spliced (op : NaryOp) : Term → List Term
  | nary op' ts => if op' = op then ts else [nary op' ts]
  | t => [t]

/-- Operands that are nodes of the same operator are replaced by their operands. -/
def flatten : Term → Term
  | nary op ts => nary op (ts.flatMap (spliced op))
  | t => t

/-- The order of operands: constants first, then by writing. -/
def before (width : Nat) (s t : Term) : Bool :=
  if s.isConst = t.isConst then Text.le (s.text width) (t.text width) else s.isConst

/-- Operands are put in order. -/
def sortOperands : Term → Term
  | nary op ts => nary op (ts.mergeSort (before q.width))
  | t => t

/-- A node on the operands that are left; with none left it is a constant, with one that one. -/
def rebuild (op : NaryOp) (empty : Int) : List Term → Term
  | [] => const empty
  | [t] => t
  | ts => nary op ts

/-- Identity operands are dropped, unless an operand decides the result alone. -/
def eliminateIdentity : Term → Term
  | nary op ts =>
    match op.annihilator? q with
    | some a =>
      if const a ∈ ts then const a
      else rebuild op (op.identity q) (ts.filter (· ≠ const (op.identity q)))
    | none => rebuild op (op.identity q) (ts.filter (· ≠ const (op.identity q)))
  | t => t

/-- An operand with its writing. -/
abbrev Entry := List Char × Term

/-- Operands with their writings at a width. -/
def entries (width : Nat) (ts : List Term) : List Entry := ts.map fun t => (t.text width, t)

/-- The first of each group of operands with the same writing. -/
def firsts : List Entry → List Entry
  | [] => []
  | e :: es => e :: (firsts es).filter fun other => other.1 ≠ e.1

/-- How many operands have a writing. -/
def copies (text : List Char) (es : List Entry) : Nat := es.countP fun e => e.1 = text

/-- Copies of an operand cancel in pairs under exclusive or and count once under the others. -/
def cancelCopies : Term → Term
  | nary op ts =>
    let es := entries q.width ts
    let kept : List Entry := match op with
      | .xor => (firsts es).filter fun e => copies e.1 es % 2 = 1
      | _ => firsts es
    rebuild op 0 (kept.map Prod.snd)
  | t => t

end Term

namespace Rule

/-- All rules, in the order of a pass. -/
def all : List Rule :=
  [involutionCancellation, derivedExpansion, constantFolding, associativeFlattening,
    commutativeSorting, identityElimination, selfCancellation]

/-- The name of the rule. -/
def name : Rule → String
  | involutionCancellation => "involution_cancellation"
  | derivedExpansion => "derived_expansion"
  | constantFolding => "constant_folding"
  | associativeFlattening => "associative_flattening"
  | commutativeSorting => "commutative_sorting"
  | identityElimination => "identity_elimination"
  | selfCancellation => "self_cancellation"

/-- The rule of a name. -/
def ofName? (s : String) : Option Rule := all.find? fun rule => rule.name = s

/-- One rule at the root of a term. -/
def apply (q : Quantum) : Rule → Term → Term
  | involutionCancellation => Term.cancelInvolution
  | derivedExpansion => Term.expandDerived
  | constantFolding => Term.foldConstants q
  | associativeFlattening => Term.flatten
  | commutativeSorting => Term.sortOperands q
  | identityElimination => Term.eliminateIdentity q
  | selfCancellation => Term.cancelCopies q

/-- All rules at the root of a term, one after another. -/
def applyAll (q : Quantum) (t : Term) : Term := all.foldl (fun t rule => rule.apply q t) t

end Rule

end WordRing
