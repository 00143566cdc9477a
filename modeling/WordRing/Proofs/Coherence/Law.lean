import WordRing.Coherence.Check
import WordRing.Proofs.Residue

/-!
# What the laws pin down

A ring whose unary operations and exclusive or answer words rightly keeps every law at every word.
Conversely the laws determine the unary operations up to the complement: the additive inverse is the
only word that makes up a sum of zero, successor and predecessor are compared with compositions, and
for the complement any involution will do that exclusive or goes along with. Where exclusive or
answers all ones to complements only, that is the complement. About `and` and `or`, and about
exclusive or of other words, the laws say nothing.

## Main definitions

* `ByteRing.Keeps r law b` — both sides of a law are the same at a word.
* `ByteRing.UnarySound r`, `ByteRing.NarySound r op` — the answers to words are right.
* `ByteRing.TakesForComplement r f` — the ring computes as if `f` were the complement.
* `ByteRing.TellsComplements r` — exclusive or answers all ones to complements only.
-/
namespace WordRing

/-- A step followed by another succeeds exactly if both do. -/
theorem bind_eq_ok {ε α β : Type} {x : Except ε α} {f : α → Except ε β} {b : β} :
    x >>= f = .ok b ↔ ∃ a, x = .ok a ∧ f a = .ok b := by
  cases x with
  | error e => simp [bind, Except.bind]
  | ok a => simp [bind, Except.bind]

namespace Quantum
variable {q : Quantum} {b c : Bytes}

/-- Two words make up a sum of zero exactly if each is the additive inverse of the other. -/
theorem word_add_eq_zero_iff (hc : c.length = q.width) (hb : b.length = q.width) :
    q.word (Bytes.toNat c + Bytes.toNat b : Nat) = q.zero ↔ c = Bytes.neg b := by
  have hlt : (Bytes.toNat c : Int) < q.cycle := Int.ofNat_lt.2 (q.toNat_lt_cycle hc)
  have hsum : ((Bytes.toNat c + Bytes.toNat b : Nat) : Int) = Bytes.toNat c - -Bytes.toNat b := by
    omega
  rw [← word_zero, word_inj, Int.zero_emod, hsum, ← Int.emod_eq_emod_iff_emod_sub_eq_zero,
    Int.emod_eq_of_lt (Int.natCast_nonneg _) hlt,
    ← Bytes.toNat_inj (hc.trans ((Bytes.length_neg b).trans hb).symm), ← Int.ofNat_inj,
    UnaryOp.toNat_neg_word hb]
  rfl

/-- Two words make up an exclusive or of all ones exactly if each is the complement of the other. -/
theorem xor_eq_ones_iff (hb : b.length = q.width) (hc : c.length = q.width) :
    Bytes.xor b c = q.ones ↔ c = Bytes.bnot b := by
  have hones : Bytes.xor b q.ones = Bytes.bnot b := by
    have hbyte (x : UInt8) : x ^^^ 0xFF = ~~~x := UInt8.xor_neg_one
    rw [ones, ← hb, Bytes.xor, Bytes.zipWith_replicate, Bytes.bnot]
    simp only [hbyte]
  -- Taking `b` in twice leaves any word `d` as it is.
  have hcancel {d : Bytes} (hd : d.length = q.width) : Bytes.xor b (Bytes.xor b d) = d := by
    have hassoc := NaryOp.xor.apply_assoc b b d
    rw [NaryOp.apply_xor_self hb, NaryOp.xor.apply_comm] at hassoc
    exact hassoc.symm.trans (NaryOp.xor.apply_identity hd)
  constructor
  · intro h
    rw [← hcancel hc, h, hones]
  · rintro rfl
    rw [← hones, hcancel q.length_ones]

end Quantum

namespace ByteRing
variable {r : ByteRing} {b : Bytes}

/-- Both sides of the law are there and are the same. -/
def Keeps (r : ByteRing) (law : Law) (b : Bytes) : Prop := ∃ c, r.sides law b = .ok (c, c)

theorem keeps_iff_of_sides {law : Law} {c d : Bytes} (h : r.sides law b = .ok (c, d)) :
    r.Keeps law b ↔ c = d := by
  rw [Keeps, h]
  constructor
  · rintro ⟨e, he⟩
    obtain ⟨rfl, rfl⟩ := Prod.mk.inj (Except.ok.inj he)
    rfl
  · rintro rfl
    exact ⟨c, rfl⟩

instance (r : ByteRing) (law : Law) (b : Bytes) : Decidable (r.Keeps law b) :=
  match h : r.sides law b with
  | .ok (c, d) => decidable_of_iff (c = d) (keeps_iff_of_sides h).symm
  | .error _ => isFalse fun ⟨_, hc⟩ => nomatch h.symm.trans hc

/-- Every unary operator answers words with what it stands for. -/
def UnarySound (r : ByteRing) : Prop :=
  ∀ op b, b.length = r.quantum.width → r.unary op b = .ok (op.apply b)

/-- The operator answers two words with what it stands for. -/
def NarySound (r : ByteRing) (op : NaryOp) : Prop :=
  ∀ a b, a.length = r.quantum.width → b.length = r.quantum.width →
    r.nary op a b = .ok (op.apply a b)

/-- Every unary operator refuses what is not a word of the ring's width. -/
def RefusesWidths (r : ByteRing) : Prop :=
  ∀ op b c, r.unary op b = .ok c → b.length = r.quantum.width

/-- Exclusive or answers all ones to no two words but complements. -/
def TellsComplements (r : ByteRing) : Prop :=
  ∀ a b, a.length = r.quantum.width → b.length = r.quantum.width →
    r.nary .xor a b = .ok r.quantum.ones → b = Bytes.bnot a

theorem NarySound.tellsComplements (h : r.NarySound .xor) : r.TellsComplements := by
  intro a b ha hb hones
  rw [h a b ha hb] at hones
  exact (Quantum.xor_eq_ones_iff ha hb).1 (Except.ok.inj hones)

/-! ## What each law asks -/

theorem keeps_bnotInvolution :
    r.Keeps .bnotInvolution b ↔ r.unary .bnot b >>= r.unary .bnot = .ok b := by
  simp [Keeps, sides, bind_eq_ok, pure, Except.pure]

theorem keeps_negInvolution :
    r.Keeps .negInvolution b ↔ r.unary .neg b >>= r.unary .neg = .ok b := by
  simp [Keeps, sides, bind_eq_ok, pure, Except.pure]

theorem keeps_criticalIdentity :
    r.Keeps .criticalIdentity b ↔
      ∃ c, r.unary .succ b = .ok c ∧ r.unary .bnot b >>= r.unary .neg = .ok c := by
  simp [Keeps, sides, bind_eq_ok, pure, Except.pure]

theorem keeps_predDerivation :
    r.Keeps .predDerivation b ↔
      ∃ c, r.unary .pred b = .ok c ∧ r.unary .neg b >>= r.unary .bnot = .ok c := by
  simp [Keeps, sides, bind_eq_ok, pure, Except.pure]

theorem keeps_succPredInverse :
    r.Keeps .succPredInverse b ↔ r.unary .pred b >>= r.unary .succ = .ok b := by
  simp [Keeps, sides, bind_eq_ok, pure, Except.pure]

theorem keeps_predSuccInverse :
    r.Keeps .predSuccInverse b ↔ r.unary .succ b >>= r.unary .pred = .ok b := by
  simp [Keeps, sides, bind_eq_ok, pure, Except.pure]

theorem keeps_xorComplement :
    r.Keeps .xorComplement b ↔
      ∃ c, r.unary .bnot b = .ok c ∧ r.nary .xor b c = .ok r.quantum.ones := by
  simp [Keeps, sides, bind_eq_ok, pure, Except.pure]

theorem keeps_xorSelfCancel :
    r.Keeps .xorSelfCancel b ↔ r.nary .xor b b = .ok r.quantum.zero := by
  simp [Keeps, sides, bind_eq_ok, pure, Except.pure]

theorem keeps_additiveInverse :
    r.Keeps .additiveInverse b ↔ ∃ c, r.unary .neg b = .ok c ∧
      r.quantum.word (Bytes.toNat c + Bytes.toNat b : Nat) = r.quantum.zero := by
  simp [Keeps, sides, bind_eq_ok, pure, Except.pure]

/-! ## What keeps the laws

The laws do not know the complement: any involution of the words that exclusive or answers to with
all ones will do for it, as long as successor and predecessor go along. -/

/-- At words of its width, the ring computes as if `f` were the complement. -/
structure TakesForComplement (r : ByteRing) (f : Bytes → Bytes) : Prop where
  length {b : Bytes} (hb : b.length = r.quantum.width) : (f b).length = r.quantum.width
  involution {b : Bytes} (hb : b.length = r.quantum.width) : f (f b) = b
  neg {b : Bytes} (hb : b.length = r.quantum.width) : r.unary .neg b = .ok (Bytes.neg b)
  bnot {b : Bytes} (hb : b.length = r.quantum.width) : r.unary .bnot b = .ok (f b)
  succ {b : Bytes} (hb : b.length = r.quantum.width) : r.unary .succ b = .ok (Bytes.neg (f b))
  pred {b : Bytes} (hb : b.length = r.quantum.width) : r.unary .pred b = .ok (f (Bytes.neg b))
  xor_complement {b : Bytes} (hb : b.length = r.quantum.width) :
    r.nary .xor b (f b) = .ok r.quantum.ones
  xor_self {b : Bytes} (hb : b.length = r.quantum.width) : r.nary .xor b b = .ok r.quantum.zero

theorem TakesForComplement.keeps {f : Bytes → Bytes} (h : r.TakesForComplement f) (law : Law)
    (hb : b.length = r.quantum.width) : r.Keeps law b := by
  have hfb : (f b).length = r.quantum.width := h.length hb
  have hneg : (Bytes.neg b).length = r.quantum.width := by rw [Bytes.length_neg, hb]
  cases law with
  | bnotInvolution =>
    rw [keeps_bnotInvolution, h.bnot hb]
    exact (h.bnot hfb).trans (congrArg Except.ok (h.involution hb))
  | negInvolution =>
    rw [keeps_negInvolution, h.neg hb]
    exact (h.neg hneg).trans (congrArg Except.ok (Bytes.neg_neg b))
  | criticalIdentity =>
    rw [keeps_criticalIdentity, h.bnot hb]
    exact ⟨_, h.succ hb, h.neg hfb⟩
  | predDerivation =>
    rw [keeps_predDerivation, h.neg hb]
    exact ⟨_, h.pred hb, h.bnot hneg⟩
  | succPredInverse =>
    rw [keeps_succPredInverse, h.pred hb]
    refine (h.succ (h.length hneg)).trans ?_
    rw [h.involution hneg, Bytes.neg_neg]
  | predSuccInverse =>
    rw [keeps_predSuccInverse, h.succ hb]
    refine (h.pred (by rw [Bytes.length_neg, hfb])).trans ?_
    rw [Bytes.neg_neg, h.involution hb]
  | xorComplement =>
    rw [keeps_xorComplement]
    exact ⟨_, h.bnot hb, h.xor_complement hb⟩
  | xorSelfCancel => exact keeps_xorSelfCancel.2 (h.xor_self hb)
  | additiveInverse =>
    rw [keeps_additiveInverse]
    exact ⟨_, h.neg hb, (Quantum.word_add_eq_zero_iff hneg hb).2 rfl⟩
  | fullCycle => exact ⟨b, rfl⟩

/-- A sound ring takes the complement for the complement. -/
theorem takesForComplement_of_sound (hunary : r.UnarySound) (hxor : r.NarySound .xor) :
    r.TakesForComplement Bytes.bnot where
  length hb := (Bytes.length_bnot _).trans hb
  involution _ := Bytes.bnot_bnot _
  neg hb := hunary .neg _ hb
  bnot hb := hunary .bnot _ hb
  succ hb := hunary .succ _ hb
  pred hb := hunary .pred _ hb
  xor_complement {b} hb := by
    have hbnot : (Bytes.bnot b).length = r.quantum.width := (Bytes.length_bnot b).trans hb
    rw [hxor b _ hb hbnot]
    exact congrArg Except.ok ((Quantum.xor_eq_ones_iff hb hbnot).2 rfl)
  xor_self {b} hb := by rw [hxor b b hb hb, NaryOp.apply_xor_self hb, r.quantum.word_zero]

/-- Where exclusive or tells complements, only the complement is taken for it. -/
theorem TakesForComplement.unarySound {f : Bytes → Bytes} (h : r.TakesForComplement f)
    (htells : r.TellsComplements) : r.UnarySound := by
  have heq {b : Bytes} (hb : b.length = r.quantum.width) : f b = Bytes.bnot b :=
    htells b (f b) hb (h.length hb) (h.xor_complement hb)
  intro op b hb
  cases op with
  | neg => exact h.neg hb
  | bnot => rw [h.bnot hb, heq hb, UnaryOp.apply]
  | succ => rw [h.succ hb, heq hb, UnaryOp.apply, Bytes.succ]
  | pred => rw [h.pred hb, heq ((Bytes.length_neg b).trans hb), UnaryOp.apply, Bytes.pred]

example : ∀ law ∈ Law.elementwise, (ByteRing.sound ⟨1⟩).Keeps law [0, 255] := by decide

/-! ## The laws determine the unary operations -/

section Determined

/-- An operator that undoes itself at a word answers it with a word. -/
theorem RefusesWidths.length_answer {op : UnaryOp} {c : Bytes} (hrefuses : r.RefusesWidths)
    (hinvolution : r.unary op b >>= r.unary op = .ok b) (hc : r.unary op b = .ok c) :
    c.length = r.quantum.width := by
  rw [hc] at hinvolution
  exact hrefuses op c b hinvolution

variable (hrefuses : r.RefusesWidths)
include hrefuses

theorem unary_neg_of_keeps (hb : b.length = r.quantum.width)
    (hinvolution : r.Keeps .negInvolution b) (hinverse : r.Keeps .additiveInverse b) :
    r.unary .neg b = .ok (Bytes.neg b) := by
  obtain ⟨c, hc, hzero⟩ := keeps_additiveInverse.1 hinverse
  have hlength := hrefuses.length_answer (keeps_negInvolution.1 hinvolution) hc
  rw [hc, (Quantum.word_add_eq_zero_iff hlength hb).1 hzero]

/-- **The laws determine the unary operations up to the complement.** A ring keeps the laws at every
word exactly if it takes some involution for the complement. -/
theorem keeps_iff_exists_takesForComplement :
    (∀ law ∈ Law.elementwise, ∀ b, b.length = r.quantum.width → r.Keeps law b) ↔
      ∃ f, r.TakesForComplement f := by
  constructor
  · intro hkeeps
    have hneg {b : Bytes} (hb : b.length = r.quantum.width) :
        r.unary .neg b = .ok (Bytes.neg b) :=
      unary_neg_of_keeps hrefuses hb (hkeeps _ (by decide) b hb) (hkeeps _ (by decide) b hb)
    have hanswer (b : Bytes) : ∃ c, b.length = r.quantum.width →
        r.unary .bnot b = .ok c ∧ r.nary .xor b c = .ok r.quantum.ones := by
      by_cases hb : b.length = r.quantum.width
      · obtain ⟨c, hc, hones⟩ := keeps_xorComplement.1 (hkeeps _ (by decide) b hb)
        exact ⟨c, fun _ => ⟨hc, hones⟩⟩
      · exact ⟨b, fun h => absurd h hb⟩
    choose f hf using hanswer
    have hundone {b : Bytes} (hb : b.length = r.quantum.width) :=
      keeps_bnotInvolution.1 (hkeeps _ (by decide) b hb)
    have hlength {b : Bytes} (hb : b.length = r.quantum.width) :
        (f b).length = r.quantum.width := hrefuses.length_answer (hundone hb) (hf b hb).1
    refine ⟨f, hlength, ?_, hneg, fun hb => (hf _ hb).1, ?_, ?_, fun hb => (hf _ hb).2, ?_⟩
    · intro b hb
      have htwice := hundone hb
      rw [(hf b hb).1] at htwice
      exact Except.ok.inj ((hf (f b) (hlength hb)).1.symm.trans htwice)
    · intro b hb
      obtain ⟨c, hc, hcomp⟩ := keeps_criticalIdentity.1 (hkeeps _ (by decide) b hb)
      rw [(hf b hb).1] at hcomp
      exact hc.trans (hcomp.symm.trans (hneg (hlength hb)))
    · intro b hb
      obtain ⟨c, hc, hcomp⟩ := keeps_predDerivation.1 (hkeeps _ (by decide) b hb)
      rw [hneg hb] at hcomp
      have hword : (Bytes.neg b).length = r.quantum.width := (Bytes.length_neg b).trans hb
      exact hc.trans (hcomp.symm.trans (hf _ hword).1)
    · exact fun hb => keeps_xorSelfCancel.1 (hkeeps _ (by decide) _ hb)
  · rintro ⟨f, h⟩ law - b hb
    exact h.keeps law hb

end Determined

end ByteRing

end WordRing
