import WordRing.ByteRing
import WordRing.Term.Candidate

/-!
# Evaluation

The word that a term stands for in a ring. Every operator is asked of the ring, so a faulty ring
shows; operands are evaluated from left to right and a variable stops the evaluation.
-/
namespace WordRing

namespace ByteRing
variable (r : ByteRing)

/-- What a node on any number of operands starts from: the word that changes nothing. -/
def start (q : Quantum) : NaryOp → Bytes
  | .xor => q.word 0
  | .and => q.word q.mask
  | .or => q.word 0

/-- Takes the operands of a node in, one after another. -/
def accumulate (op : NaryOp) : Bytes → List (Except Error Bytes) → Except Error Bytes
  | acc, [] => .ok acc
  | acc, x :: xs => do
    let next ← r.nary op acc (← x)
    accumulate op next xs

/-- The word of a term without canonicalizing it. -/
def evaluate : Term → Except Error Bytes :=
  Term.fold (fun n => .ok (r.quantum.word n)) (fun x => .error (.unboundVariable x.text))
    (fun op x => do r.unary op (← x)) (fun op xs => r.accumulate op (start r.quantum op) xs)

@[simp] theorem evaluate_const (n : Int) : r.evaluate (.const n) = .ok (r.quantum.word n) := rfl

@[simp] theorem evaluate_var (x : VarName) :
    r.evaluate (.var x) = .error (.unboundVariable x.text) := rfl

@[simp] theorem evaluate_unary (op : UnaryOp) (t : Term) :
    r.evaluate (.unary op t) = r.evaluate t >>= r.unary op := rfl

@[simp] theorem evaluate_nary (op : NaryOp) (ts : List Term) :
    r.evaluate (.nary op ts) = r.accumulate op (start r.quantum op) (ts.map r.evaluate) := by
  simp [evaluate]

/-- The word of what stands where a term is due. -/
def evaluateCandidate (c : Candidate) : Except Error Bytes := do
  r.evaluate (← c.expect .unknownTerm)

end ByteRing

end WordRing
