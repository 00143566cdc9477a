import Mathlib.Algebra.Order.Group.Nat
import Mathlib.Data.List.Basic
import Mathlib.Data.List.Induction
import Mathlib.Tactic.Common
import WordRing.Canonical.Rule

/-!
# Words and their operations

A word of a ring is determined by its number, so reading and writing are mutually inverse on words
of the ring's width. Negation and complement undo themselves. Each bitwise operation is
associative and commutative on byte strings of any length, and on words of the ring's width it has
the identity, and for `and` and `or` the annihilator, that the rules of canonicalization name.
-/
namespace WordRing

namespace Bytes

/-! ## Numbers and words -/

theorem toNat_lt (b : Bytes) : toNat b < Nat.pow 256 b.length := by
  induction b using List.reverseRecOn with
  | nil => simp
  | append_singleton b x ih =>
    have hx : x.toNat < 256 := x.toNat_lt
    have hlength : Nat.pow 256 (b ++ [x]).length = Nat.pow 256 b.length * 256 := by
      rw [List.length_append, List.length_singleton]
      rfl
    rw [toNat_concat, hlength]
    omega

theorem ofNat_toNat (b : Bytes) : ofNat b.length (toNat b) = b := by
  induction b using List.reverseRecOn with
  | nil => rfl
  | append_singleton b x ih =>
    have hx : x.toNat < 256 := x.toNat_lt
    have hinit : (256 * toNat b + x.toNat) / 256 = toNat b := by omega
    have hlast : UInt8.ofNat (256 * toNat b + x.toNat) = x := by
      rw [← UInt8.toNat_inj, UInt8.toNat_ofNat']
      omega
    rw [List.length_append, List.length_singleton, toNat_concat, ofNat_succ, hinit, ih, hlast]

/-- Byte strings of one length are determined by their numbers. -/
theorem toNat_inj {a b : Bytes} (hlength : a.length = b.length) : toNat a = toNat b ↔ a = b := by
  constructor
  · intro h
    rw [← ofNat_toNat a, ← ofNat_toNat b, hlength, h]
  · rintro rfl
    rfl

theorem toNat_replicate_zero (count : Nat) : toNat (List.replicate count 0) = 0 := by
  induction count with
  | zero => rfl
  | succ count ih => rw [List.replicate_succ', toNat_concat, ih]; rfl

theorem toNat_replicate_ones (count : Nat) :
    toNat (List.replicate count 0xFF) + 1 = Nat.pow 256 count := by
  induction count with
  | zero => rfl
  | succ count ih =>
    have hbyte : (0xFF : UInt8).toNat = 255 := rfl
    have hpow : Nat.pow 256 (count + 1) = Nat.pow 256 count * 256 := rfl
    rw [List.replicate_succ', toNat_concat, hbyte, hpow, ← ih]
    omega

/-! ## Involutions -/

theorem toNat_neg (b : Bytes) :
    toNat (neg b) = (Nat.pow 256 b.length - toNat b) % Nat.pow 256 b.length := by
  rw [neg, toNat_ofNat]

theorem neg_neg (b : Bytes) : neg (neg b) = b := by
  rw [← toNat_inj (by simp), toNat_neg, length_neg, toNat_neg]
  have hlt := toNat_lt b
  rcases Nat.eq_zero_or_pos (toNat b) with h | h
  · simp [h]
  · rw [Nat.mod_eq_of_lt (show Nat.pow 256 b.length - toNat b < Nat.pow 256 b.length by omega),
      Nat.sub_sub_self hlt.le, Nat.mod_eq_of_lt hlt]

theorem bnot_bnot (b : Bytes) : bnot (bnot b) = b := by
  simp [bnot, Function.comp_def]

/-! ## Operations byte by byte -/

theorem zipWith_assoc {f : UInt8 → UInt8 → UInt8} (hf : ∀ x y z, f (f x y) z = f x (f y z))
    (a b c : Bytes) :
    List.zipWith f (List.zipWith f a b) c = List.zipWith f a (List.zipWith f b c) := by
  induction a generalizing b c with
  | nil => rfl
  | cons x a ih =>
    cases b with
    | nil => rfl
    | cons y b =>
      cases c with
      | nil => rfl
      | cons z c => simp only [List.zipWith_cons_cons, hf, ih]

theorem zipWith_replicate {f : UInt8 → UInt8 → UInt8} {e : UInt8} (b : Bytes) :
    List.zipWith f b (List.replicate b.length e) = b.map fun x => f x e := by
  induction b with
  | nil => rfl
  | cons x b ih =>
    rw [List.length_cons, List.replicate_succ, List.zipWith_cons_cons, ih, List.map_cons]

end Bytes

namespace Quantum
variable (q : Quantum)

theorem toNat_word (n : Int) : (Bytes.toNat (q.word n) : Int) = n % q.cycle := by
  have hcycle : (q.cycle : Int) ≠ 0 := by
    have := q.cycle_pos
    omega
  have hnonneg : 0 ≤ n % q.cycle := Int.emod_nonneg n hcycle
  have hlt : n % q.cycle < q.cycle := Int.emod_lt_of_pos n (by have := q.cycle_pos; omega)
  rw [word, Bytes.ofInt, Bytes.toNat_ofNat, ← q.cycle_eq, Nat.mod_eq_of_lt (by omega),
    Int.toNat_of_nonneg hnonneg]

theorem toNat_lt_cycle {b : Bytes} (h : b.length = q.width) : Bytes.toNat b < q.cycle := by
  rw [q.cycle_eq, ← h]
  exact Bytes.toNat_lt b

/-- A word is the word of its number. -/
theorem word_toNat {b : Bytes} (h : b.length = q.width) : q.word (Bytes.toNat b) = b := by
  have hlt : (Bytes.toNat b : Int) < q.cycle := Int.ofNat_lt.2 (q.toNat_lt_cycle h)
  have hnat : (Bytes.toNat (q.word (Bytes.toNat b)) : Int) = Bytes.toNat b := by
    rw [toNat_word, Int.emod_eq_of_lt (by omega) hlt]
  exact (Bytes.toNat_inj (by simp [h])).1 (Int.ofNat_inj.1 hnat)

/-- Reduction does not change the word. -/
theorem word_emod (n : Int) : q.word (n % q.cycle) = q.word n := by
  rw [word, word, Bytes.ofInt, Bytes.ofInt, ← q.cycle_eq, Int.emod_emod]

/-- Two integers have the same word exactly when they are congruent. -/
theorem word_inj {m n : Int} : q.word m = q.word n ↔ m % q.cycle = n % q.cycle := by
  rw [← Bytes.toNat_inj (by simp), ← Int.ofNat_inj, toNat_word, toNat_word]

theorem word_zero : q.word 0 = q.zero := by
  have hzero : q.zero = List.replicate q.width 0 := rfl
  have hnat : Bytes.toNat q.zero = 0 := by rw [hzero, Bytes.toNat_replicate_zero]
  rw [← q.word_toNat q.length_zero, hnat]
  rfl

theorem word_mask : q.word q.mask = q.ones := by
  have hones : q.ones = List.replicate q.width 0xFF := rfl
  have hnat : Bytes.toNat q.ones = q.mask := by
    have hsucc := Bytes.toNat_replicate_ones q.width
    rw [hones, mask, q.cycle_eq]
    omega
  rw [← q.word_toNat q.length_ones, hnat]

theorem mask_lt_cycle : q.mask < q.cycle := by
  have := q.cycle_pos
  rw [mask]
  omega

end Quantum

/-- An involution undoes itself. -/
theorem UnaryOp.apply_apply {op : UnaryOp} (hop : op ∈ involutions) (b : Bytes) :
    op.apply (op.apply b) = b := by
  cases op with
  | neg => exact Bytes.neg_neg b
  | bnot => exact Bytes.bnot_bnot b
  | succ => simp [involutions] at hop
  | pred => simp [involutions] at hop

namespace NaryOp
variable {q : Quantum} (op : NaryOp)

instance : Std.Associative op.apply where
  assoc a b c := by
    cases op with
    | xor => exact Bytes.zipWith_assoc UInt8.xor_assoc a b c
    | and => exact Bytes.zipWith_assoc UInt8.and_assoc a b c
    | or => exact Bytes.zipWith_assoc UInt8.or_assoc a b c

instance : Std.Commutative op.apply where
  comm a b := by
    cases op with
    | xor => exact List.zipWith_comm_of_comm UInt8.xor_comm
    | and => exact List.zipWith_comm_of_comm UInt8.and_comm
    | or => exact List.zipWith_comm_of_comm UInt8.or_comm

theorem apply_assoc (a b c : Bytes) : op.apply (op.apply a b) c = op.apply a (op.apply b c) :=
  Std.Associative.assoc a b c

theorem apply_comm (a b : Bytes) : op.apply a b = op.apply b a := Std.Commutative.comm a b

/-- Taking in words one after another gives a word. -/
theorem length_foldl_apply {b : Bytes} (hb : b.length = q.width) {bs : List Bytes}
    (hbs : ∀ c ∈ bs, c.length = q.width) : (bs.foldl op.apply b).length = q.width := by
  induction bs generalizing b with
  | nil => exact hb
  | cons c bs ih =>
    have hc : c.length = q.width := hbs c List.mem_cons_self
    refine ih ?_ ?_
    · rw [length_apply, hb, hc, Nat.min_self]
    · intro d hd
      exact hbs d (List.mem_cons_of_mem c hd)

theorem identity_lt_cycle : op.identity q < q.cycle := by
  cases op with
  | xor => exact q.cycle_pos
  | and => exact q.mask_lt_cycle
  | or => exact q.cycle_pos

theorem annihilator_lt_cycle {a : Nat} (ha : a ∈ op.annihilator? q) : a < q.cycle := by
  cases op with
  | xor => simp [annihilator?] at ha
  | and => rw [← Option.some_inj.1 ha]; exact q.cycle_pos
  | or => rw [← Option.some_inj.1 ha]; exact q.mask_lt_cycle

theorem word_identity : q.word (op.identity q) = if op = and then q.ones else q.zero := by
  cases op with
  | xor => exact q.word_zero
  | and => exact q.word_mask
  | or => exact q.word_zero

/-- The identity changes no word of the ring's width. -/
theorem apply_identity {b : Bytes} (hb : b.length = q.width) :
    op.apply b (q.word (op.identity q)) = b := by
  have bytewise (f : UInt8 → UInt8 → UInt8) (e : UInt8) (hf : ∀ x, f x e = x) :
      List.zipWith f b (List.replicate q.width e) = b := by
    rw [← hb, Bytes.zipWith_replicate]
    simp [hf]
  rw [word_identity]
  cases op with
  | xor => exact bytewise (· ^^^ ·) 0 fun x => UInt8.xor_zero
  | and => exact bytewise (· &&& ·) 0xFF fun x => UInt8.and_neg_one
  | or => exact bytewise (· ||| ·) 0 fun x => UInt8.or_zero

/-- The annihilator decides the result alone. -/
theorem apply_annihilator {b : Bytes} (hb : b.length = q.width) {a : Nat}
    (ha : a ∈ op.annihilator? q) : op.apply b (q.word a) = q.word a := by
  have bytewise (f : UInt8 → UInt8 → UInt8) (e : UInt8) (hf : ∀ x, f x e = e) :
      List.zipWith f b (List.replicate q.width e) = List.replicate q.width e := by
    rw [← hb, Bytes.zipWith_replicate]
    simp [hf, List.map_const']
  cases op with
  | xor => simp [annihilator?] at ha
  | and =>
    obtain rfl : 0 = a := Option.some_inj.1 ha
    have hzero : q.word (0 : Nat) = q.zero := q.word_zero
    rw [hzero]
    exact bytewise (· &&& ·) 0 fun x => UInt8.and_zero
  | or =>
    obtain rfl : q.mask = a := Option.some_inj.1 ha
    rw [q.word_mask]
    exact bytewise (· ||| ·) 0xFF fun x => UInt8.or_neg_one

/-- An operand taken twice under exclusive or leaves nothing. -/
theorem apply_xor_self {b : Bytes} (hb : b.length = q.width) : xor.apply b b = q.word 0 := by
  rw [q.word_zero, Quantum.zero, ← hb]
  clear hb
  induction b with
  | nil => rfl
  | cons x b ih =>
    have hcons : xor.apply (x :: b) (x :: b) = (x ^^^ x) :: xor.apply b b := rfl
    rw [hcons, ih, UInt8.xor_self, List.length_cons, List.replicate_succ]

/-- Under the other operators a repetition changes nothing. -/
theorem apply_self (hop : op ≠ xor) (b : Bytes) : op.apply b b = b := by
  have bytewise (f : UInt8 → UInt8 → UInt8) (hf : ∀ x, f x x = x) : List.zipWith f b b = b := by
    simp [List.zipWith_self, hf]
  cases op with
  | xor => exact absurd rfl hop
  | and => exact bytewise (· &&& ·) fun x => UInt8.and_self
  | or => exact bytewise (· ||| ·) fun x => UInt8.or_self

end NaryOp

end WordRing
