import Mathlib.Data.Nat.Bitwise
import WordRing.Proofs.Value

/-!
# Operations on residues

An operand stands for an integer, and a word for the residue that it writes. The operations of a
sound ring are those of the integers modulo the number of elements, whether they work byte by byte,
on the whole number or, like successor and predecessor, on both in turn; so it does not matter
whether an operand is handed in as an integer or as a word.

## Main definitions

* `UnaryOp.residue q op n`, `NaryOp.residue q op m n` — what an operator does to integers.
* `Quantum.Denotes q x n` — the operand `x` stands for the integer `n`.
* `Quantum.Writes q result n` — the result is a word of the ring, and the word writes `n`.
-/
namespace WordRing

/-- What a unary operator does to an integer. -/
def UnaryOp.residue (q : Quantum) : UnaryOp → Int → Int
  | neg, n => -n % q.cycle
  | bnot, n => q.cycle - 1 - n % q.cycle
  | succ, n => (n + 1) % q.cycle
  | pred, n => (n - 1) % q.cycle

/-- The bitwise operation on numbers. -/
def NaryOp.onNat : NaryOp → Nat → Nat → Nat
  | xor, m, n => m ^^^ n
  | and, m, n => m &&& n
  | or, m, n => m ||| n

/-- What a bitwise operator does to the residues of two integers. -/
def NaryOp.residue (q : Quantum) (op : NaryOp) (m n : Int) : Int :=
  op.onNat (m % q.cycle).toNat (n % q.cycle).toNat

/-! ## Byte strings as numbers -/

namespace Bytes

theorem toNat_bnot (b : Bytes) : toNat (bnot b) + toNat b + 1 = Nat.pow 256 b.length := by
  induction b using List.reverseRecOn with
  | nil => rfl
  | append_singleton b x ih =>
    have hx : x.toNat < 256 := x.toNat_lt
    have hnot : (~~~x).toNat = 255 - x.toNat := UInt8.toNat_not x
    have hbnot : bnot (b ++ [x]) = bnot b ++ [~~~x] := by simp [bnot]
    have hpow : Nat.pow 256 (b ++ [x]).length = Nat.pow 256 b.length * 256 := by
      rw [List.length_append, List.length_singleton]
      rfl
    rw [hbnot, toNat_concat, toNat_concat, hnot, hpow, ← ih]
    omega

/-- A bitwise operation on a number does not carry from one byte into the next. -/
theorem bitwise_byte {f : Bool → Bool → Bool} (hf : f false false = false) (m n : Nat)
    {x y : Nat} (hx : x < 256) (hy : y < 256) :
    Nat.bitwise f (256 * m + x) (256 * n + y) = 256 * Nat.bitwise f m n + Nat.bitwise f x y := by
  have hbyte : 256 = 2 ^ 8 := rfl
  rw [hbyte] at hx hy ⊢
  refine Nat.eq_of_testBit_eq fun i => ?_
  rw [Nat.testBit_bitwise hf, Nat.testBit_two_pow_mul_add m hx, Nat.testBit_two_pow_mul_add n hy,
    Nat.testBit_two_pow_mul_add _ (Nat.bitwise_lt_two_pow hx hy)]
  split
  · rw [Nat.testBit_bitwise hf]
  · rw [Nat.testBit_bitwise hf]

/-- An operation on bytes that is bitwise on their numbers is bitwise on byte strings. -/
theorem toNat_zipWith {f : Bool → Bool → Bool} (hf : f false false = false)
    {g : UInt8 → UInt8 → UInt8} (hg : ∀ x y, (g x y).toNat = Nat.bitwise f x.toNat y.toNat)
    {a b : Bytes} (hlength : a.length = b.length) :
    toNat (List.zipWith g a b) = Nat.bitwise f (toNat a) (toNat b) := by
  induction a using List.reverseRecOn generalizing b with
  | nil =>
    obtain rfl : b = [] := List.length_eq_zero_iff.1 hlength.symm
    simp
  | append_singleton a x ih =>
    rcases List.eq_nil_or_concat b with rfl | ⟨b, y, rfl⟩
    · simp at hlength
    · have hinit : a.length = b.length := by simpa using hlength
      rw [List.concat_eq_append, List.zipWith_append hinit, List.zipWith_cons_cons,
        List.zipWith_nil_left, toNat_concat, toNat_concat, toNat_concat, ih hinit, hg,
        bitwise_byte hf _ _ x.toNat_lt y.toNat_lt]

end Bytes

/-! ## Words as residues -/

namespace UnaryOp
variable {q : Quantum} {op : UnaryOp} {b : Bytes}

theorem residue_emod (n : Int) : op.residue q (n % q.cycle) = op.residue q n := by
  cases op with
  | neg => rw [residue, residue, ← zero_sub, Int.sub_emod_emod, zero_sub]
  | bnot => rw [residue, residue, Int.emod_emod]
  | succ => rw [residue, residue, Int.emod_add_emod]
  | pred => rw [residue, residue, Int.emod_sub_emod]

theorem neg_residue_bnot (n : Int) : neg.residue q (bnot.residue q n) = succ.residue q n := by
  have hneg : -(q.cycle - 1 - n % q.cycle) = n % q.cycle + 1 - q.cycle := by omega
  rw [residue, residue, residue, hneg, Int.sub_emod_right, Int.emod_add_emod]

theorem bnot_residue_neg (n : Int) : bnot.residue q (neg.residue q n) = pred.residue q n := by
  have hcycle : (0 : Int) < q.cycle := Int.ofNat_lt.2 q.cycle_pos
  have hnonneg : 0 ≤ -n % q.cycle := Int.emod_nonneg _ hcycle.ne'
  have hlt : -n % q.cycle < q.cycle := Int.emod_lt_of_pos _ hcycle
  have hmod : (q.cycle - 1 - -n % q.cycle) % q.cycle = (n - 1) % q.cycle := by
    have hsum : (q.cycle - 1 - -n : Int) = n - 1 + q.cycle := by omega
    rw [Int.sub_emod_emod, hsum, Int.add_emod_right]
  rw [residue, residue, residue, Int.emod_emod]
  exact (Int.emod_eq_of_lt (by omega) (by omega)).symm.trans hmod

theorem toNat_neg_word (hb : b.length = q.width) :
    (Bytes.toNat (Bytes.neg b) : Int) = neg.residue q (Bytes.toNat b) := by
  have hlt : Bytes.toNat b < q.cycle := q.toNat_lt_cycle hb
  rw [Bytes.toNat_neg, hb, ← q.cycle_eq, residue, Int.natCast_mod, Int.ofNat_sub hlt.le,
    Int.sub_emod_left]

theorem toNat_bnot_word (hb : b.length = q.width) :
    (Bytes.toNat (Bytes.bnot b) : Int) = bnot.residue q (Bytes.toNat b) := by
  have hlt : Bytes.toNat b < q.cycle := q.toNat_lt_cycle hb
  have hsum := Bytes.toNat_bnot b
  rw [hb, ← q.cycle_eq] at hsum
  rw [residue, Int.emod_eq_of_lt (by omega) (by omega)]
  omega

/-- An operator does to the number of a word what it does to integers. The compositions of the
involutions follow from the involutions. -/
theorem toNat_apply (hb : b.length = q.width) :
    (Bytes.toNat (op.apply b) : Int) = op.residue q (Bytes.toNat b) := by
  cases op with
  | neg => exact toNat_neg_word hb
  | bnot => exact toNat_bnot_word hb
  | succ =>
    have hneg := toNat_neg_word (b := Bytes.bnot b) (q := q) (by rw [Bytes.length_bnot, hb])
    rw [apply, Bytes.succ, hneg, toNat_bnot_word hb, neg_residue_bnot]
  | pred =>
    have hbnot := toNat_bnot_word (b := Bytes.neg b) (q := q) (by rw [Bytes.length_neg, hb])
    rw [apply, Bytes.pred, hbnot, toNat_neg_word hb, bnot_residue_neg]

theorem toNat_apply_word (n : Int) :
    (Bytes.toNat (op.apply (q.word n)) : Int) = op.residue q n := by
  rw [toNat_apply (q.length_word n), q.toNat_word, residue_emod]

/-- An operator takes the word of an integer to the word of what it does to the integer. -/
theorem apply_word (op : UnaryOp) (n : Int) : op.apply (q.word n) = q.word (op.residue q n) := by
  have hlength : (op.apply (q.word n)).length = q.width := by rw [length_apply, q.length_word]
  rw [← q.word_toNat hlength, toNat_apply_word]

end UnaryOp

namespace NaryOp
variable {q : Quantum} {op : NaryOp} {a b : Bytes}

theorem toNat_apply (hlength : a.length = b.length) :
    Bytes.toNat (op.apply a b) = op.onNat (Bytes.toNat a) (Bytes.toNat b) := by
  cases op with
  | xor => exact Bytes.toNat_zipWith rfl UInt8.toNat_xor hlength
  | and => exact Bytes.toNat_zipWith rfl UInt8.toNat_and hlength
  | or => exact Bytes.toNat_zipWith rfl UInt8.toNat_or hlength

theorem toNat_apply_word (m n : Int) :
    (Bytes.toNat (op.apply (q.word m) (q.word n)) : Int) = op.residue q m n := by
  have hword (k : Int) : Bytes.toNat (q.word k) = (k % q.cycle).toNat := by
    rw [← q.toNat_word, Int.toNat_natCast]
  rw [toNat_apply (by rw [q.length_word, q.length_word]), hword, hword, residue]

end NaryOp

/-! ## Operands and results -/

namespace Quantum
variable {q : Quantum} {x y : Operand} {m n : Int}

/-- The integer that an operand stands for: any integer for itself, and a word of the ring's width
for its number. -/
inductive Denotes (q : Quantum) : Operand → Int → Prop
  | int (n : Int) : q.Denotes (.int n) n
  | word {b : Bytes} (h : b.length = q.width) : q.Denotes (.ofBytes b) (Bytes.toNat b)

/-- The result is a word of the ring's width, and the word writes the number. -/
def Writes (q : Quantum) (result : Except Error Bytes) (n : Int) : Prop :=
  ∃ b, result = .ok b ∧ b.length = q.width ∧ (Bytes.toNat b : Int) = n

/-- Only the residue of the integer is left of an operand. -/
theorem Denotes.normalize (h : q.Denotes x n) : q.normalize x = .ok (q.word n) := by
  cases h with
  | int n => rfl
  | word h => rw [q.normalize_ofBytes h, q.word_toNat h]

theorem writes_word (n : Int) : q.Writes (.ok (q.word n)) (n % q.cycle) :=
  ⟨q.word n, rfl, q.length_word n, q.toNat_word n⟩

end Quantum

namespace ByteRing

section Operands
variable {r : ByteRing} {x y : Operand} {a b : Bytes}

theorem applyUnary_of_normalize (op : UnaryOp) (hx : r.quantum.normalize x = .ok b) :
    r.applyUnary op x = r.unary op b := by
  rw [applyUnary, hx]
  rfl

theorem applyNary_of_normalize (op : NaryOp) (hx : r.quantum.normalize x = .ok a)
    (hy : r.quantum.normalize y = .ok b) : r.applyNary op x y = r.nary op a b := by
  rw [applyNary, hx, hy]
  rfl

theorem arithmetic_of_normalize (f : Int → Int → Int) (hx : r.quantum.normalize x = .ok a)
    (hy : r.quantum.normalize y = .ok b) :
    r.arithmetic f x y = .ok (r.quantum.word (f (Bytes.toNat a) (Bytes.toNat b))) := by
  rw [arithmetic, hx, hy]
  rfl

end Operands

variable {q : Quantum} (verified : Bool) {x y : Operand} {m n : Int}

theorem applyUnary_writes (op : UnaryOp) (hx : q.Denotes x n) :
    q.Writes (applyUnary { sound q with verified } op x) (op.residue q n) := by
  rw [applyUnary_of_normalize op hx.normalize]
  refine ⟨_, sound_unary op (q.length_word n), ?_, UnaryOp.toNat_apply_word n⟩
  rw [UnaryOp.length_apply, q.length_word]

theorem applyNary_writes (op : NaryOp) (hx : q.Denotes x m) (hy : q.Denotes y n) :
    q.Writes (applyNary { sound q with verified } op x y) (op.residue q m n) := by
  rw [applyNary_of_normalize op hx.normalize hy.normalize]
  refine ⟨_, sound_nary op (q.length_word m) (q.length_word n), ?_, NaryOp.toNat_apply_word m n⟩
  rw [NaryOp.length_apply, q.length_word, q.length_word, Nat.min_self]

/-- Arithmetic that respects congruence does not see that operands are reduced first. -/
theorem arithmetic_writes {f : Int → Int → Int}
    (hf : f (m % q.cycle) (n % q.cycle) % q.cycle = f m n % q.cycle) (hx : q.Denotes x m)
    (hy : q.Denotes y n) :
    q.Writes (arithmetic { sound q with verified } f x y) (f m n % q.cycle) := by
  rw [arithmetic_of_normalize f hx.normalize hy.normalize, q.toNat_word, q.toNat_word, ← hf]
  exact Quantum.writes_word _

/-- **The operations of a sound ring are those of the integers modulo the number of elements.** Each
of them answers every pair of operands with a word of the ring's width, which writes the residue of
the operation on the integers that the operands stand for; and operands that stand for congruent
integers, be they integers or words, get the same answer. -/
theorem operations_write_residues (q : Quantum) (verified : Bool) {x y : Operand} {m n : Int}
    (hx : q.Denotes x m) (hy : q.Denotes y n) :
    let r : ByteRing := { sound q with verified }
    (∀ op : UnaryOp, q.Writes (r.applyUnary op x) (op.residue q m)) ∧
    (∀ op : NaryOp, q.Writes (r.applyNary op x y) (op.residue q m n)) ∧
    q.Writes (r.add x y) ((m + n) % q.cycle) ∧
    q.Writes (r.sub x y) ((m - n) % q.cycle) ∧
    q.Writes (r.mul x y) ((m * n) % q.cycle) ∧
    ∀ (x' y' : Operand) (m' n' : Int), q.Denotes x' m' → q.Denotes y' n' →
      m' % q.cycle = m % q.cycle → n' % q.cycle = n % q.cycle →
      (∀ op, r.applyUnary op x' = r.applyUnary op x) ∧
      (∀ op, r.applyNary op x' y' = r.applyNary op x y) ∧
      ∀ f, r.arithmetic f x' y' = r.arithmetic f x y := by
  intro r
  refine ⟨fun op => applyUnary_writes verified op hx, fun op => applyNary_writes verified op hx hy,
    arithmetic_writes verified (Int.add_emod m n q.cycle).symm hx hy,
    arithmetic_writes verified (Int.sub_emod m n q.cycle).symm hx hy,
    arithmetic_writes verified (Int.mul_emod m n q.cycle).symm hx hy, ?_⟩
  intro x' y' m' n' hx' hy' hm hn
  have hword : q.normalize x' = q.normalize x := by
    rw [hx'.normalize, hx.normalize, q.word_inj.2 hm]
  have hword' : q.normalize y' = q.normalize y := by
    rw [hy'.normalize, hy.normalize, q.word_inj.2 hn]
  have hx'r : r.quantum.normalize x' = .ok (q.word m) := hword.trans hx.normalize
  have hy'r : r.quantum.normalize y' = .ok (q.word n) := hword'.trans hy.normalize
  refine ⟨?_, ?_, ?_⟩
  · intro op
    rw [applyUnary_of_normalize op hx'r, applyUnary_of_normalize op hx.normalize]
  · intro op
    rw [applyNary_of_normalize op hx'r hy'r,
      applyNary_of_normalize op hx.normalize hy.normalize]
  · intro f
    rw [arithmetic_of_normalize f hx'r hy'r,
      arithmetic_of_normalize f hx.normalize hy.normalize]

/-- At two bytes a carry crosses from the low byte of `0x00FF` into the high one, and the integer
`-65281`, which is congruent to 255, is as good as the word. -/
theorem operations_write_residues_carry :
    let q : Quantum := ⟨1⟩
    let x : Operand := .ofBytes [0x00, 0xFF]
    q.Denotes x 255 ∧ q.Denotes (.int (-1)) (-1) ∧ q.Denotes (.int (-65281)) (-65281) ∧
    q.Writes ((sound q).applyUnary .succ x) 0x0100 ∧
    q.Writes ((sound q).applyNary .xor x (.int (-1))) 0xFF00 ∧
    q.Writes ((sound q).mul x (.int (-1))) 0xFF01 ∧
    (sound q).applyUnary .succ (.int (-65281)) = (sound q).applyUnary .succ x := by
  intro q x
  have hx : q.Denotes x 255 := .word rfl
  have hy : q.Denotes (.int (-1)) (-1) := .int (-1)
  have hz : q.Denotes (.int (-65281)) (-65281) := .int (-65281)
  obtain ⟨hunary, hnary, -, -, hmul, hsame⟩ := operations_write_residues q false hx hy
  have hsucc : UnaryOp.succ.residue q 255 = 0x0100 := by decide
  have hxor : NaryOp.xor.residue q 255 (-1) = 0xFF00 := by decide
  have hprod : (255 * -1 : Int) % q.cycle = 0xFF01 := by decide
  have hcongruent : (-65281 : Int) % q.cycle = 255 % q.cycle := by decide
  exact ⟨hx, hy, hz, hsucc ▸ hunary .succ, hxor ▸ hnary .xor, hprod ▸ hmul,
    (hsame _ _ _ _ hz hy hcongruent rfl).1 .succ⟩

end ByteRing

end WordRing
