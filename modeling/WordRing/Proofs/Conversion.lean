import Mathlib.Data.Int.ModEq
import WordRing.Proofs.Word

/-!
# Integers as bytes and back

The bit widths at which integers are written are those of the rings, so writing an integer gives
the word of its residue, and all that is known of words carries over: reading the bytes back gives
the residue, and bytes are the writing of the number that they write.

## Main definitions

* `Bytes.items b` — a byte string as a list of values.
-/
namespace WordRing

/-- A byte string as a list of values. -/
def Bytes.items (b : Bytes) : List Json := b.map fun x => .int x.toNat

namespace Bytes
variable {xs : List Int}

theorem exists_of_mem_items {b : Bytes} {d : Json} (h : d ∈ b.items) :
    ∃ k : Int, d = .int k ∧ 0 ≤ k ∧ k ≤ 255 := by
  obtain ⟨x, -, rfl⟩ := List.mem_map.1 h
  have hx : x.toNat < 256 := x.toNat_lt
  exact ⟨x.toNat, rfl, by omega, by omega⟩

/-- Integers from 0 to 255 are the values of a byte string. -/
theorem exists_items_eq (h : ∀ x ∈ xs, 0 ≤ x ∧ x ≤ 255) :
    ∃ b : Bytes, b.length = xs.length ∧ b.items = xs.map .int := by
  refine ⟨xs.map fun x => UInt8.ofNat x.toNat, List.length_map .., ?_⟩
  rw [items, List.map_map]
  refine List.map_congr_left fun x hx => ?_
  have hrange := h x hx
  have hbyte : (UInt8.ofNat x.toNat).toNat = x.toNat := by
    rw [UInt8.toNat_ofNat']
    omega
  rw [Function.comp_apply, hbyte, Int.toNat_of_nonneg hrange.1]

end Bytes

/-- A reader of single values that knows the byte in each reads the whole byte string. -/
theorem mapM_items {read : Json → Except Error UInt8}
    (hread : ∀ x : UInt8, read (.int x.toNat) = .ok x) (b : Bytes) : b.items.mapM read = .ok b := by
  induction b with
  | nil => rfl
  | cons x b ih =>
    have hcons : Bytes.items (x :: b) = .int x.toNat :: Bytes.items b := rfl
    rw [hcons, List.mapM_cons, hread, ih]
    rfl

/-- Reading the values of a byte string gives its number. -/
theorem numberOfBytes_items (b : Bytes) : numberOfBytes b.items = .ok (Bytes.toNat b) := by
  rw [numberOfBytes, mapM_items]
  · rfl
  · intro x
    have hx : x.toNat < 256 := x.toNat_lt
    have hrange : (0 : Int) ≤ x.toNat ∧ (x.toNat : Int) ≤ 255 := by omega
    have hread : integerOf (.int x.toNat) = .ok (x.toNat : Int) := rfl
    simp [hread, hrange, bind, Except.bind, pure, Except.pure]

namespace Quantum

/-- The positive multiples of eight are the bit widths of the rings. -/
theorem exists_bits_eq {bits : Int} (hpos : 0 < bits) (hdvd : 8 ∣ bits) :
    ∃ q : Quantum, (q.bits : Int) = bits := by
  obtain ⟨width, rfl⟩ := hdvd
  refine ⟨⟨width.toNat - 1⟩, ?_⟩
  simp only [bits, Quantum.width]
  omega

/-- Writing an integer at the bit width of a ring gives its word. -/
theorem bytesOfWidth_bits (q : Quantum) (n : Int) :
    bytesOfWidth q.bits (.int n) = .ok (q.word n) := by
  have hwidth : ((q.bits : Int) / 8).toNat = q.width := by
    rw [Quantum.bits]
    omega
  have hpos : 0 < q.bits := by
    rw [Quantum.bits, Quantum.width]
    omega
  have hmod : ¬ ((q.bits : Int) ≤ 0 ∨ (q.bits : Int) % 8 ≠ 0) := by
    rw [Quantum.bits] at hpos ⊢
    omega
  rw [bytesOfWidth, if_neg hmod, hwidth]
  rfl

end Quantum

/-- **Writing integers as bytes and reading bytes as integers undo each other**, at every bit width
that is a positive multiple of eight. Every integer is written, as so many bytes as the width has,
and reading them gives its residue, so integers are written alike exactly if they are congruent;
and any bytes, at least one, are what is written of the number that is read of them. -/
theorem bytesOfWidth_inverse :
    (∀ bits : Int, 0 < bits → 8 ∣ bits →
      (∀ n : Int, ∃ b : Bytes, bytesOfWidth bits (.int n) = .ok b ∧ (b.length : Int) = bits / 8 ∧
        (∀ d ∈ b.items, ∃ k : Int, d = .int k ∧ 0 ≤ k ∧ k ≤ 255) ∧
        ∃ k : Nat, numberOfBytes b.items = .ok k ∧ (k : Int) = n % 2 ^ bits.toNat) ∧
      ∀ m n : Int, bytesOfWidth bits (.int m) = bytesOfWidth bits (.int n) ↔
        m ≡ n [ZMOD 2 ^ bits.toNat]) ∧
    ∀ xs : List Int, xs ≠ [] → (∀ x ∈ xs, 0 ≤ x ∧ x ≤ 255) →
      ∃ (k : Nat) (b : Bytes), numberOfBytes (xs.map .int) = .ok k ∧
        bytesOfWidth (8 * xs.length) (.int k) = .ok b ∧ b.items = xs.map .int := by
  refine ⟨?_, ?_⟩
  · intro bits hpos hdvd
    obtain ⟨q, rfl⟩ := Quantum.exists_bits_eq hpos hdvd
    have hcycle : (2 : Int) ^ (q.bits : Int).toNat = q.cycle := by
      rw [Int.toNat_natCast, Quantum.cycle]
      exact (Int.natCast_pow 2 q.bits).symm
    have hlength (n : Int) : ((q.word n).length : Int) = (q.bits : Int) / 8 := by
      rw [q.length_word, Quantum.bits]
      omega
    rw [hcycle]
    refine ⟨?_, ?_⟩
    · intro n
      exact ⟨q.word n, q.bytesOfWidth_bits n, hlength n, fun d => Bytes.exists_of_mem_items,
        _, numberOfBytes_items _, q.toNat_word n⟩
    · intro m n
      rw [q.bytesOfWidth_bits, q.bytesOfWidth_bits, Except.ok.injEq, q.word_inj]
      rfl
  · intro xs hne hbytes
    obtain ⟨b, hlength, hitems⟩ := Bytes.exists_items_eq hbytes
    have hpos : 0 < xs.length := List.length_pos_of_ne_nil hne
    obtain ⟨q, hq⟩ : ∃ q : Quantum, (q.bits : Int) = 8 * xs.length :=
      Quantum.exists_bits_eq (by omega) ⟨_, rfl⟩
    have hwidth : b.length = q.width := by
      rw [Quantum.bits] at hq
      omega
    rw [← hitems, ← hq]
    exact ⟨_, b, numberOfBytes_items b, (q.bytesOfWidth_bits _).trans (by rw [q.word_toNat hwidth]),
      rfl⟩

/-- A negative integer at sixteen bits and one above the range that is congruent to it; and bytes
with a zero in front, which the number does not show but the width restores. -/
theorem bytesOfWidth_inverse_negative :
    (0 : Int) < 16 ∧ (8 : Int) ∣ 16 ∧
    bytesOfWidth 16 (.int (-257)) = .ok [0xFE, 0xFF] ∧
    numberOfBytes (Bytes.items [0xFE, 0xFF]) = .ok 0xFEFF ∧
    bytesOfWidth 16 (.int (-257)) = bytesOfWidth 16 (.int 0x1FEFF) ∧
    bytesOfWidth 16 (.int (-257)) ≠ bytesOfWidth 16 (.int 257) ∧
    ([0, 255] : List Int) ≠ [] ∧ (∀ x ∈ ([0, 255] : List Int), 0 ≤ x ∧ x ≤ 255) ∧
    ∃ (k : Nat) (b : Bytes), numberOfBytes [.int 0, .int 255] = .ok k ∧
      bytesOfWidth 16 (.int k) = .ok b ∧ b.items = [.int 0, .int 255] := by
  have hpos : (0 : Int) < 16 := by decide
  have hdvd : (8 : Int) ∣ 16 := by decide
  have hne : ([0, 255] : List Int) ≠ [] := List.cons_ne_nil _ _
  have hbytes : ∀ x ∈ ([0, 255] : List Int), 0 ≤ x ∧ x ≤ 255 := by decide
  obtain ⟨hwrite, hcongruent⟩ := bytesOfWidth_inverse.1 16 hpos hdvd
  obtain ⟨b, hb, -, -, k, hk, hresidue⟩ := hwrite (-257)
  obtain rfl : [0xFE, 0xFF] = b := Except.ok.inj hb
  obtain rfl : k = 0xFEFF := Int.ofNat_inj.1 hresidue
  exact ⟨hpos, hdvd, hb, hk, (hcongruent (-257) 0x1FEFF).2 (by decide),
    mt (hcongruent (-257) 257).1 (by decide), hne, hbytes,
    bytesOfWidth_inverse.2 [0, 255] hne hbytes⟩

end WordRing
