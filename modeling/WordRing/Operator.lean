import WordRing.Bytes

/-!
# The signature

The operators that terms are built from: four unary ones and three that take any number of
operands. The signature proper is made of the two involutions and the three bitwise operators;
`succ` and `pred` are compositions of the involutions.
-/
namespace WordRing

/-- A unary operator. -/
inductive UnaryOp where
  | neg
  | bnot
  | succ
  | pred
deriving DecidableEq, Repr

/-- An operator on any number of operands; their order does not matter. -/
inductive NaryOp where
  | xor
  | and
  | or
deriving DecidableEq, Repr

/-- An operator of either kind. -/
inductive Operator where
  | unary (op : UnaryOp)
  | nary (op : NaryOp)
deriving DecidableEq, Repr

namespace UnaryOp

/-- The name of the operator in terms. -/
def name : UnaryOp → String
  | neg => "neg"
  | bnot => "bnot"
  | succ => "succ"
  | pred => "pred"

/-- All unary operators, by name. -/
def all : List UnaryOp := [bnot, neg, pred, succ]

/-- The operators that undo themselves. -/
def involutions : List UnaryOp := [bnot, neg]

/-- The operators composed of the involutions. -/
def derived : List UnaryOp := [pred, succ]

/-- The operator of a name. -/
def ofName? (s : String) : Option UnaryOp := all.find? fun op => op.name = s

/-- What the operator does to a word. -/
def apply : UnaryOp → Bytes → Bytes
  | neg => Bytes.neg
  | bnot => Bytes.bnot
  | succ => Bytes.succ
  | pred => Bytes.pred

@[simp] theorem length_apply (op : UnaryOp) (b : Bytes) : (op.apply b).length = b.length := by
  cases op <;> simp [apply]

@[simp] theorem ofName?_name (op : UnaryOp) : ofName? op.name = some op := by
  cases op <;> decide

end UnaryOp

namespace NaryOp

/-- The name of the operator in terms. -/
def name : NaryOp → String
  | xor => "xor"
  | and => "and"
  | or => "or"

/-- All operators on any number of operands, by name. -/
def all : List NaryOp := [and, or, xor]

/-- The operator of a name. -/
def ofName? (s : String) : Option NaryOp := all.find? fun op => op.name = s

/-- What the operator does to two words. -/
def apply : NaryOp → Bytes → Bytes → Bytes
  | xor => Bytes.xor
  | and => Bytes.band
  | or => Bytes.bor

@[simp] theorem length_apply (op : NaryOp) (a b : Bytes) :
    (op.apply a b).length = min a.length b.length := by
  cases op <;> simp [apply]

@[simp] theorem ofName?_name (op : NaryOp) : ofName? op.name = some op := by
  cases op <;> decide

end NaryOp

namespace Operator

/-- The name of the operator in terms. -/
def name : Operator → String
  | unary op => op.name
  | nary op => op.name

/-- All operators, by name. -/
def all : List Operator :=
  [nary .and, unary .bnot, unary .neg, nary .or, unary .pred, unary .succ, nary .xor]

/-- The operators that the others are composed of, by name. -/
def primitive : List Operator := [nary .and, unary .bnot, unary .neg, nary .or, nary .xor]

end Operator

end WordRing
