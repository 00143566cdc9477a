/-!
# Big-endian byte strings

A word is a list of bytes, most significant first. `Bytes.toNat` reads it as a number and
`Bytes.ofNat` writes a number at a chosen length; the two are mutually inverse up to reduction
modulo `256 ^ length`. The bitwise operations work byte by byte, negation on the whole number,
and successor and predecessor are compositions of the two involutions.
-/
namespace WordRing

/-- A string of bytes, most significant first. -/
abbrev Bytes := List UInt8

namespace Bytes

/-- The number that a byte string writes. -/
def toNat (b : Bytes) : Nat := b.foldl (fun n x => 256 * n + x.toNat) 0

/-- The last `count` bytes of a number, in front of a byte string. -/
def ofNatBefore : Nat → Nat → Bytes → Bytes
  | 0, _, b => b
  | count + 1, n, b => ofNatBefore count (n / 256) (UInt8.ofNat n :: b)

/-- The last `count` bytes of a number. -/
def ofNat (count n : Nat) : Bytes := ofNatBefore count n []

/-- An integer reduced modulo `256 ^ count`, as `count` bytes. -/
def ofInt (count : Nat) (n : Int) : Bytes := ofNat count (n % (Nat.pow 256 count : Nat)).toNat

/-- The UTF-8 bytes of a text. -/
def ofText (s : String) : Bytes := s.toUTF8.data.toList

@[simp] theorem toNat_nil : toNat [] = 0 := rfl

@[simp] theorem toNat_concat (b : Bytes) (x : UInt8) :
    toNat (b ++ [x]) = 256 * toNat b + x.toNat := by simp [toNat]

theorem ofNatBefore_eq (count n : Nat) (b : Bytes) :
    ofNatBefore count n b = ofNat count n ++ b := by
  induction count generalizing n b with
  | zero => rfl
  | succ count ih =>
    rw [ofNat, ofNatBefore, ofNatBefore, ih, ih _ [_], List.append_assoc, List.singleton_append]

@[simp] theorem ofNat_zero (n : Nat) : ofNat 0 n = [] := rfl

theorem ofNat_succ (count n : Nat) :
    ofNat (count + 1) n = ofNat count (n / 256) ++ [UInt8.ofNat n] := by
  rw [ofNat, ofNatBefore, ofNatBefore_eq]

@[simp] theorem length_ofNat (count n : Nat) : (ofNat count n).length = count := by
  induction count generalizing n with
  | zero => rfl
  | succ count ih => simp [ofNat_succ, ih]

@[simp] theorem length_ofInt (count : Nat) (n : Int) : (ofInt count n).length = count := by
  simp [ofInt]

theorem toNat_ofNat (count n : Nat) : toNat (ofNat count n) = n % Nat.pow 256 count := by
  induction count generalizing n with
  | zero => simp [Nat.mod_one]
  | succ count ih =>
    have step : Nat.pow 256 (count + 1) = 256 * Nat.pow 256 count := Nat.mul_comm _ _
    rw [ofNat_succ, toNat_concat, ih, step, Nat.mod_mul]
    simp [Nat.add_comm]

theorem ofText_inj {s t : String} : ofText s = ofText t ↔ s = t :=
  ⟨fun h => String.toByteArray_inj.1 (ByteArray.ext (Array.toList_inj.1 h)), fun h => h ▸ rfl⟩

/-! ## Operations -/

/-- The additive inverse modulo `256 ^ length`. -/
def neg (b : Bytes) : Bytes := ofNat b.length (Nat.pow 256 b.length - toNat b)

/-- The complement of every byte. -/
def bnot (b : Bytes) : Bytes := b.map (~~~ ·)

/-- One more, modulo `256 ^ length`: the negated complement. -/
def succ (b : Bytes) : Bytes := neg (bnot b)

/-- One less, modulo `256 ^ length`: the complement of the negation. -/
def pred (b : Bytes) : Bytes := bnot (neg b)

/-- Exclusive or, byte by byte. -/
def xor (a b : Bytes) : Bytes := List.zipWith (· ^^^ ·) a b

/-- Bitwise and, byte by byte. -/
def band (a b : Bytes) : Bytes := List.zipWith (· &&& ·) a b

/-- Bitwise or, byte by byte. -/
def bor (a b : Bytes) : Bytes := List.zipWith (· ||| ·) a b

/-- Whether the bit of weight `2 ^ i` is set. -/
def bit (x : UInt8) (i : Nat) : Bool := x.toNat.testBit i

/-- The positions of the bits set in each byte. -/
def spectrum (b : Bytes) : List (List Nat) := b.map fun x => (List.range 8).filter (bit x)

/-- How many bits are set. -/
def stratum (b : Bytes) : Nat := ((spectrum b).map List.length).foldr (· + ·) 0

@[simp] theorem length_neg (b : Bytes) : (neg b).length = b.length := by simp [neg]

@[simp] theorem length_bnot (b : Bytes) : (bnot b).length = b.length := by simp [bnot]

@[simp] theorem length_succ (b : Bytes) : (succ b).length = b.length := by simp [succ]

@[simp] theorem length_pred (b : Bytes) : (pred b).length = b.length := by simp [pred]

@[simp] theorem length_xor (a b : Bytes) : (xor a b).length = min a.length b.length := by
  simp [xor]

@[simp] theorem length_band (a b : Bytes) : (band a b).length = min a.length b.length := by
  simp [band]

@[simp] theorem length_bor (a b : Bytes) : (bor a b).length = min a.length b.length := by
  simp [bor]

end Bytes

end WordRing
