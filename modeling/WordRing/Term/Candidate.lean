import WordRing.Error
import WordRing.Quantum
import WordRing.Term.Written

/-!
# Building terms from values

What is handed in where a term is due may be a term or any other value. The builders here check
it: a constant has to be an integer, a variable an identifier, an operator has to exist, and
operands have to be terms. Only `Term.make` turns plain values into leaves, a text into a variable
and everything else into a constant.
-/
namespace WordRing

/-- What stands where a term is due. -/
inductive Candidate where
  | term (t : Term)
  | raw (d : Json)

namespace Term

/-- The constant of a value. -/
def constantOf : Json → Except Error Term
  | .int n => .ok (.const n)
  | d => .error (.constantNotInteger d)

/-- The variable of a value. -/
def variableOf : Json → Except Error Term
  | .str s => match VarName.ofText? s with
    | some x => .ok (.var x)
    | none => .error (.variableName (.str s))
  | d => .error (.variableName d)

/-- The leaf that a plain value stands for. -/
def leaf : Json → Except Error Term
  | .str s => variableOf (.str s)
  | d => constantOf d

/-- The node of an operator name on operands. A unary operator takes exactly one. -/
def node (name : String) (operands : List Term) : Except Error Term :=
  match UnaryOp.ofName? name, operands with
  | some op, [t] => .ok (.unary op t)
  | some _, ts => .error (.operandCount name ts.length)
  | none, ts => match NaryOp.ofName? name with
    | some op => .ok (.nary op ts)
    | none => .error (.unknownOperation name)

end Term

namespace Candidate

/-- The term, refused with an error if there is none. -/
def expect (error : Json → Error) : Candidate → Except Error Term
  | term t => .ok t
  | raw d => .error (error d)

/-- The term, or the leaf that a plain value stands for. -/
def coerce : Candidate → Except Error Term
  | term t => .ok t
  | raw d => Term.leaf d

/-- The unary node of an operator name on an operand. The name is checked first. -/
def unary (name : String) (operand : Candidate) : Except Error Term :=
  match UnaryOp.ofName? name with
  | some op => do return .unary op (← operand.expect .notTerm)
  | none => .error (.unknownUnary name)

/-- The node of an operator name on any number of operands. The name is checked first. -/
def nary (name : String) (operands : List Candidate) : Except Error Term :=
  match NaryOp.ofName? name with
  | some op => do return .nary op (← operands.mapM (expect .notTerm))
  | none => .error (.unknownNary name)

/-- The node of an operator name on operands that may be plain values. The operands are checked
first. -/
def make (name : String) (operands : List Candidate) : Except Error Term := do
  Term.node name (← operands.mapM coerce)

/-- A term in writing, at a width that may turn out to be negative or past what a count of digits
can be; that only matters where there is a constant. -/
def written (width : Int) (c : Candidate) : Except Error String := do
  let t ← c.expect .unknownNode
  if (width < 0 ∨ (Nat.pow 2 62 : Nat) ≤ width) ∧ t.hasConst then throw (.widthOutside width)
  return t.written width.toNat

end Candidate

end WordRing
