import WordRing.Operator
import WordRing.Quantum

/-!
# Byte rings

The ring of integers modulo `2 ^ bits` on words of bytes. A `ByteRing` says for every operator
what it answers to words; the sound ring answers with the operation itself, and
`ByteRing.withFaults` answers otherwise at chosen operands. Every operation refuses words of a
wrong width. The flag `verified` records whether the ring has passed a check of the ring laws.
-/
namespace WordRing

/-- A ring at a quantum level, given by its answers to words. -/
structure ByteRing where
  quantum : Quantum
  unary : UnaryOp → Bytes → Except Error Bytes
  nary : NaryOp → Bytes → Bytes → Except Error Bytes
  verified : Bool := false

/-- A wrong answer: at these operand values the operator answers with these bytes. -/
structure Fault where
  operator : Operator
  operands : List Int
  answer : Bytes
deriving DecidableEq, Repr

namespace Fault

/-- The answer of the first fault of an operator at these words. -/
def answer? (faults : List Fault) (operator : Operator) (operands : List Bytes) : Option Bytes :=
  let values : List Int := operands.map fun b => Bytes.toNat b
  (faults.find? fun f => f.operator = operator ∧ f.operands = values).map Fault.answer

@[simp] theorem answer?_nil (operator : Operator) (operands : List Bytes) :
    answer? [] operator operands = none := rfl

end Fault

namespace ByteRing

/-- The ring whose operators do what they stand for. -/
def sound (q : Quantum) : ByteRing where
  quantum := q
  unary op b := do return op.apply (← q.expect b)
  nary op a b := do
    let a ← q.expect a
    let b ← q.expect b
    return op.apply a b

/-! ## Faults -/

/-- The answer of an operator with faults whose own doing is `whole`. -/
def unaryWithFaults (q : Quantum) (faults : List Fault) (whole : Bytes → Except Error Bytes)
    (op : UnaryOp) (b : Bytes) : Except Error Bytes := do
  let b ← q.expect b
  match Fault.answer? faults (.unary op) [b] with
  | some answer => return answer
  | none => whole b

/-- Negation, where it has no fault. -/
def negWithFaults (q : Quantum) (faults : List Fault) : Bytes → Except Error Bytes :=
  unaryWithFaults q faults (fun b => .ok (Bytes.neg b)) .neg

/-- Complement, where it has no fault. -/
def bnotWithFaults (q : Quantum) (faults : List Fault) : Bytes → Except Error Bytes :=
  unaryWithFaults q faults (fun b => .ok (Bytes.bnot b)) .bnot

/-- A ring with faults. Successor and predecessor go through the involutions and so meet the
faults of those as well as their own. -/
def withFaults (q : Quantum) (faults : List Fault) : ByteRing where
  quantum := q
  unary
    | .neg => negWithFaults q faults
    | .bnot => bnotWithFaults q faults
    | .succ => unaryWithFaults q faults
        (fun b => do negWithFaults q faults (← bnotWithFaults q faults b)) .succ
    | .pred => unaryWithFaults q faults
        (fun b => do bnotWithFaults q faults (← negWithFaults q faults b)) .pred
  nary op a b := do
    let a ← q.expect a
    let b ← q.expect b
    match Fault.answer? faults (.nary op) [a, b] with
    | some answer => return answer
    | none => return op.apply a b

/-- A ring without faults is sound. -/
theorem withFaults_nil (q : Quantum) : withFaults q [] = sound q := by
  have expect_cases (b : Bytes) :
      q.expect b = .ok b ∧ b.length = q.width ∨
        q.expect b = .error (.operandWidth q.width b.length) := by
    by_cases h : b.length = q.width
    · exact .inl ⟨q.expect_of_length h, h⟩
    · exact .inr (by simp [Quantum.expect, h])
  simp only [withFaults, sound, ByteRing.mk.injEq, true_and, and_true]
  constructor
  · funext op b
    rcases expect_cases b with ⟨h, hb⟩ | h
    · cases op <;>
        simp [negWithFaults, bnotWithFaults, unaryWithFaults, h, bind, Except.bind, pure,
          Except.pure, UnaryOp.apply, Bytes.succ, Bytes.pred, q.expect_of_length, hb]
    · cases op <;> simp [negWithFaults, bnotWithFaults, unaryWithFaults, h, bind, Except.bind]
  · rfl

/-! ## Operations on operands -/
variable (r : ByteRing)

/-- A unary operation on an operand. -/
def applyUnary (op : UnaryOp) (x : Operand) : Except Error Bytes := do
  r.unary op (← r.quantum.normalize x)

/-- A bitwise operation on two operands; the first is read before the second. -/
def applyNary (op : NaryOp) (x y : Operand) : Except Error Bytes := do
  let a ← r.quantum.normalize x
  let b ← r.quantum.normalize y
  r.nary op a b

/-- An arithmetic operation on the values of two operands, reduced. -/
def arithmetic (f : Int → Int → Int) (x y : Operand) : Except Error Bytes := do
  let a ← r.quantum.normalize x
  let b ← r.quantum.normalize y
  return r.quantum.word (f (Bytes.toNat a) (Bytes.toNat b))

/-- The sum of two operands. -/
def add : Operand → Operand → Except Error Bytes := r.arithmetic (· + ·)

/-- The difference of two operands. -/
def sub : Operand → Operand → Except Error Bytes := r.arithmetic (· - ·)

/-- The product of two operands. -/
def mul : Operand → Operand → Except Error Bytes := r.arithmetic (· * ·)

/-- How many bits of an operand are set. -/
def stratum (x : Operand) : Except Error Nat := do
  return Bytes.stratum (← r.quantum.normalize x)

/-- The positions of the bits set in each byte of an operand. -/
def spectrum (x : Operand) : Except Error (List (List Nat)) := do
  return Bytes.spectrum (← r.quantum.normalize x)

/-- The number that a sequence of bytes writes. -/
def number (x : Operand) : Except Error Nat := do
  return Bytes.toNat (← r.quantum.normalize x)

/-- The ring as it is shown in records. -/
def shown : String :=
  s!"Ring(quantum={r.quantum.level}, verified={(Json.bool r.verified).shown})"

end ByteRing

end WordRing
