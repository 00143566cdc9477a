import WordRing.Bytes
import WordRing.Error

/-!
# Quantum levels

The level of a ring fixes its size: level `k` has words of `k + 1` bytes, hence `2 ^ (8 (k + 1))`
elements. Operands come as integers, which are reduced, or as sequences of bytes, which have to
have exactly the width of the ring.
-/
namespace WordRing

/-- The level of a ring. -/
structure Quantum where
  level : Nat
deriving DecidableEq, Repr

namespace Quantum
variable (q : Quantum)

/-- Bytes in a word. -/
def width : Nat := q.level + 1

/-- Bits in a word. -/
def bits : Nat := 8 * q.width

/-- The number of elements. -/
def cycle : Nat := Nat.pow 2 q.bits

/-- The greatest element, all of whose bits are set. -/
def mask : Nat := q.cycle - 1

/-- The word of an integer, reduced modulo the number of elements. -/
def word (n : Int) : Bytes := Bytes.ofInt q.width n

/-- The word of zero. -/
def zero : Bytes := List.replicate q.width 0

/-- The word with every bit set. -/
def ones : Bytes := List.replicate q.width 0xFF

/-- Accepts a word of the ring's width. -/
def expect (b : Bytes) : Except Error Bytes :=
  if b.length = q.width then .ok b else .error (.operandWidth q.width b.length)

theorem cycle_eq : q.cycle = Nat.pow 256 q.width := Nat.pow_mul 2 8 q.width

theorem cycle_pos : 0 < q.cycle := Nat.two_pow_pos _

@[simp] theorem length_word (n : Int) : (q.word n).length = q.width := by simp [word]

@[simp] theorem length_zero : q.zero.length = q.width := by simp [zero]

@[simp] theorem length_ones : q.ones.length = q.width := by simp [ones]

theorem expect_of_length {b : Bytes} (h : b.length = q.width) : q.expect b = .ok b := by
  simp [expect, h]

@[simp] theorem expect_word (n : Int) : q.expect (q.word n) = .ok (q.word n) :=
  q.expect_of_length (q.length_word n)

/-- The level that an integer names. -/
def ofInt (n : Int) : Except Error Quantum :=
  if n < 0 then .error (.quantumNegative n) else .ok ⟨n.toNat⟩

/-- The level that a value names; only integers do. -/
def ofJson : Json → Except Error Quantum
  | .int n => ofInt n
  | d => .error (.quantumNotInteger d)

end Quantum

/-! ## Operands -/

/-- An operand as it is handed in. -/
inductive Operand where
  /-- An integer, standing for its residue. -/
  | int (n : Int)
  /-- A sequence of items that have to be bytes. -/
  | items (xs : List Json)

namespace Operand

/-- The operand that is a word. -/
def ofBytes (b : Bytes) : Operand := .items (b.map fun x => .int x.toNat)

/-- The items of a sequence: those of a list, the characters of a text, the keys of an object. -/
def itemsOf? : Json → Option (List Json)
  | .arr xs => some xs
  | .str s => some (s.toList.map fun c => .str (String.ofList [c]))
  | .obj members => some (members.map fun (k, _) => .str k)
  | _ => none

/-- The operand that a value stands for: an integer, or a sequence. -/
def ofJson (d : Json) : Except Error Operand :=
  match d with
  | .int n => .ok (.int n)
  | d => match itemsOf? d with
    | some xs => .ok (.items xs)
    | none => .error (.notSequence d)

/-- A sequence, and no integer. -/
def sequenceOfJson (d : Json) : Except Error Operand :=
  match itemsOf? d with
  | some xs => .ok (.items xs)
  | none => .error (.notSequence d)

end Operand

/-- The byte that an item is. -/
def byteOfItem (index : Nat) : Json → Except Error UInt8
  | .int n =>
    if 0 ≤ n ∧ n ≤ 255 then .ok (UInt8.ofNat n.toNat) else .error (.itemNotByte index (.int n))
  | d => .error (.itemNotByte index d)

/-- The bytes that items are, the first of them at an index. -/
def bytesOfItems : Nat → List Json → Except Error Bytes
  | _, [] => .ok []
  | index, d :: ds => do
    let x ← byteOfItem index d
    let rest ← bytesOfItems (index + 1) ds
    return x :: rest

/-- The word of an operand. The width of a sequence is checked before its items. -/
def Quantum.normalize (q : Quantum) : Operand → Except Error Bytes
  | .int n => .ok (q.word n)
  | .items xs =>
    if xs.length = q.width then bytesOfItems 0 xs else .error (.operandWidth q.width xs.length)

theorem bytesOfItems_ofBytes (index : Nat) (b : Bytes) :
    bytesOfItems index (b.map fun x => .int x.toNat) = .ok b := by
  induction b generalizing index with
  | nil => rfl
  | cons x b ih =>
    have hx : x.toNat < 256 := x.toNat_lt
    have range : (0 : Int) ≤ x.toNat ∧ (x.toNat : Int) ≤ 255 := by omega
    simp [bytesOfItems, byteOfItem, range, ih, bind, Except.bind, pure, Except.pure]

/-- A word of the ring is its own normal form. -/
theorem Quantum.normalize_ofBytes (q : Quantum) {b : Bytes} (h : b.length = q.width) :
    q.normalize (.ofBytes b) = .ok b := by
  simp [Quantum.normalize, Operand.ofBytes, h, bytesOfItems_ofBytes]

/-! ## Plain conversion -/

/-- The integer that a value means: booleans count as one and zero. -/
def integerOf : Json → Except Error Int
  | .int n => .ok n
  | .bool b => .ok b.toNat
  | d => .error (.notInteger d)

/-- A value as bytes of a given bit width. The width is checked before the value. -/
def bytesOfWidth (bits : Int) (d : Json) : Except Error Bytes :=
  if bits ≤ 0 ∨ bits % 8 ≠ 0 then .error (.bitWidth bits)
  else do return Bytes.ofInt (bits / 8).toNat (← integerOf d)

/-- The number that a list of byte values of any length writes. -/
def numberOfBytes (xs : List Json) : Except Error Nat := do
  let b ← xs.mapM fun d => do
    let n ← integerOf d
    if 0 ≤ n ∧ n ≤ 255 then pure (UInt8.ofNat n.toNat) else throw (.notByte n)
  return Bytes.toNat b

end WordRing
