import Mathlib.Algebra.Order.Group.Nat
import Mathlib.Data.List.GetD
import Mathlib.Data.List.Induction
import Mathlib.Data.List.Nodup
import WordRing.Certificate
import WordRing.Receipt

/-!
# What a shortened identifier shows of a digest

In base32 each letter shows five bits, and the last one those that are left, so the first letters
of two texts of one length agree exactly if the first bits behind them do. The header of an
identifier takes eight letters without a bit left over. From the tenth character on an identifier
therefore shows the digest and nothing else: cutting it after a number of characters leaves five
bits of the digest for each character behind the ninth, the last character of all showing one bit.

## Main definitions

* `Base32.bits b` — the bits of a byte string, most significant first.
* `Bytes.leadingBits count b` — the first of them.
* `ContentId.ofDigest d` — the identifier that goes with a digest.
* `ContentId.digestOf d` — the digest that the identifier of a value is made from.
-/
namespace WordRing

namespace Base32
variable {s t : List Bool} {a b : Bytes}

/-! ## Letters -/

/-- The number that bits write, most significant first. -/
def valueOf (s : List Bool) : Nat := s.foldl (fun n b => 2 * n + b.toNat) 0

theorem valueOf_concat (s : List Bool) (b : Bool) :
    valueOf (s ++ [b]) = 2 * valueOf s + b.toNat := by
  rw [valueOf, List.foldl_append]
  rfl

theorem valueOf_lt (s : List Bool) : valueOf s < 2 ^ s.length := by
  induction s using List.reverseRecOn with
  | nil => exact Nat.one_pos
  | append_singleton s b ih =>
    have hb : b.toNat < 2 := Bool.toNat_lt b
    rw [valueOf_concat, List.length_append, List.length_singleton, Nat.pow_succ]
    omega

/-- Bits are determined by their number and how many they are. -/
theorem valueOf_inj (hlength : s.length = t.length) : valueOf s = valueOf t ↔ s = t := by
  refine ⟨fun h => ?_, fun h => h ▸ rfl⟩
  induction s using List.reverseRecOn generalizing t with
  | nil => exact (List.length_eq_zero_iff.1 hlength.symm).symm
  | append_singleton s b ih =>
    rcases List.eq_nil_or_concat t with rfl | ⟨t, c, rfl⟩
    · simp at hlength
    · rw [List.concat_eq_append] at hlength h ⊢
      have hb : b.toNat < 2 := Bool.toNat_lt b
      have hc : c.toNat < 2 := Bool.toNat_lt c
      rw [valueOf_concat, valueOf_concat] at h
      have hinit : s = t := ih (by simpa using hlength) (by omega)
      have hlast : b = c := by
        have hnat : b.toNat = c.toNat := by omega
        cases b <;> cases c <;> simp_all
      rw [hinit, hlast]

theorem length_alphabet : alphabet.length = 32 := by decide

theorem nodup_alphabet : alphabet.Nodup := by decide

theorem letter_eq (s : List Bool) : letter s = alphabet.getD (valueOf s) 'a' := rfl

theorem letter_mem_alphabet (s : List Bool) : letter s ∈ alphabet := by
  rcases Nat.lt_or_ge (valueOf s) alphabet.length with h | h
  · rw [letter_eq, List.getD_eq_getElem _ _ h]
    exact List.getElem_mem h
  · rw [letter_eq, List.getD_eq_default _ _ h]
    decide

/-- Different groups of five bits have different letters. -/
theorem letter_inj (hs : s.length = 5) (ht : t.length = 5) : letter s = letter t ↔ s = t := by
  have hlt {u : List Bool} (hu : u.length = 5) : valueOf u < alphabet.length := by
    have hvalue := valueOf_lt u
    rw [hu] at hvalue
    exact length_alphabet ▸ hvalue
  rw [letter_eq, letter_eq, List.getD_eq_getElem _ _ (hlt hs), List.getD_eq_getElem _ _ (hlt ht),
    nodup_alphabet.getElem_inj_iff]
  exact valueOf_inj (hs.trans ht.symm)

/-! ## Texts -/

/-- The bits that the first letter shows, with zeros for those that are missing. -/
def group (s : List Bool) : List Bool := s.take 5 ++ List.replicate (5 - s.length) false

@[simp] theorem length_group (s : List Bool) : (group s).length = 5 := by
  rw [group, List.length_append, List.length_take, List.length_replicate]
  omega

theorem group_inj (hlength : s.length = t.length) : group s = group t ↔ s.take 5 = t.take 5 := by
  rw [group, group, hlength, List.append_left_inj]

theorem letters_eq_cons (hs : s ≠ []) : letters s = letter (group s) :: letters (s.drop 5) := by
  match s with
  | [a] => rfl
  | [a, b] => rfl
  | [a, b, c] => rfl
  | [a, b, c, d] => rfl
  | a :: b :: c :: d :: e :: rest => simp [letters, group]

/-- Induction over bits by what is left behind the first letter. -/
theorem inductLetters {motive : List Bool → Prop} (nil : motive [])
    (cons : ∀ s, s ≠ [] → motive (s.drop 5) → motive s) (s : List Bool) : motive s := by
  induction hlength : s.length using Nat.strongRecOn generalizing s with
  | _ length ih =>
    by_cases hs : s = []
    · exact hs ▸ nil
    · have hpos : 0 < s.length := List.length_pos_iff.2 hs
      exact cons s hs (ih (s.drop 5).length (by rw [List.length_drop]; omega) _ rfl)

theorem length_letters (s : List Bool) : (letters s).length = (s.length + 4) / 5 := by
  induction s using inductLetters with
  | nil => rfl
  | cons s hs ih =>
    have hpos : 0 < s.length := List.length_pos_iff.2 hs
    rw [letters_eq_cons hs, List.length_cons, ih, List.length_drop]
    omega

theorem mem_alphabet_of_mem_letters (s : List Bool) : ∀ c ∈ letters s, c ∈ alphabet := by
  induction s using inductLetters with
  | nil => simp [letters]
  | cons s hs ih =>
    rw [letters_eq_cons hs]
    exact List.forall_mem_cons.2 ⟨letter_mem_alphabet _, ih⟩

/-- The first letters agree exactly if the first bits do. -/
theorem take_letters_eq_iff (hlength : s.length = t.length) (k : Nat) :
    (letters s).take k = (letters t).take k ↔ s.take (5 * k) = t.take (5 * k) := by
  induction k generalizing s t with
  | zero => simp
  | succ k ih =>
    by_cases hs : s = []
    · rw [hs, List.length_nil] at hlength
      simp [hs, List.length_eq_zero_iff.1 hlength.symm]
    · have ht : t ≠ [] := by
        rw [← List.length_pos_iff, ← hlength, List.length_pos_iff]
        exact hs
      have hrest : (s.drop 5).length = (t.drop 5).length := by
        rw [List.length_drop, List.length_drop, hlength]
      have hfirst : (s.take 5).length = (t.take 5).length := by
        rw [List.length_take, List.length_take, hlength]
      rw [letters_eq_cons hs, letters_eq_cons ht, List.take_succ_cons, List.take_succ_cons,
        List.cons.injEq, letter_inj (length_group s) (length_group t), group_inj hlength, ih hrest,
        Nat.mul_succ, Nat.add_comm, List.take_add, List.take_add]
      -- The first letter settles five bits, the letters behind it those behind the five.
      constructor
      · rintro ⟨hgroup, hbehind⟩
        rw [hgroup, hbehind]
      · intro h
        exact List.append_inj h hfirst

/-! ## Bytes -/

/-- The bits of a byte string, most significant first. -/
def bits (b : Bytes) : List Bool := b.flatMap bitsOf

theorem bits_append (a b : Bytes) : bits (a ++ b) = bits a ++ bits b := List.flatMap_append

@[simp] theorem length_bits (b : Bytes) : (bits b).length = 8 * b.length := by
  induction b with
  | nil => rfl
  | cons x b ih =>
    have hcons : bits (x :: b) = bitsOf x ++ bits b := rfl
    have hbyte : (bitsOf x).length = 8 := rfl
    rw [hcons, List.length_append, hbyte, ih, List.length_cons]
    omega

theorem valueOf_bitsOf (x : UInt8) : valueOf (bitsOf x) = x.toNat := by
  have all : ∀ n < 256, valueOf (bitsOf (UInt8.ofNat n)) = n := by decide +kernel
  have hx := all x.toNat x.toNat_lt
  rwa [UInt8.ofNat_toNat] at hx

/-- A byte string is determined by its bits. -/
theorem bits_inj : bits a = bits b ↔ a = b := by
  refine ⟨fun h => ?_, fun h => h ▸ rfl⟩
  induction a generalizing b with
  | nil =>
    have hlength := congrArg List.length h
    rw [length_bits, length_bits, List.length_nil] at hlength
    exact (List.length_eq_zero_iff.1 (by omega)).symm
  | cons x a ih =>
    cases b with
    | nil =>
      have hlength := congrArg List.length h
      rw [length_bits, length_bits, List.length_nil, List.length_cons] at hlength
      omega
    | cons y b =>
      obtain ⟨hfirst, hrest⟩ := List.append_inj (h : bitsOf x ++ bits a = bitsOf y ++ bits b) rfl
      have hbyte : x.toNat = y.toNat := by rw [← valueOf_bitsOf, ← valueOf_bitsOf, hfirst]
      rw [UInt8.toNat_inj.1 hbyte, ih hrest]

end Base32

/-- The first bits of a byte string. -/
def Bytes.leadingBits (count : Nat) (b : Bytes) : List Bool := (Base32.bits b).take count

theorem Bytes.leadingBits_min (count : Nat) (b : Bytes) :
    leadingBits (min (8 * b.length) count) b = leadingBits count b := by
  rw [leadingBits, leadingBits, ← Base32.length_bits, Nat.min_comm, ← List.take_eq_take_min]

namespace ContentId
open Bytes (leadingBits)
open Sha256 (digest)
variable {x y d e : Bytes} {k : Nat}

/-! ## Identifiers -/

/-- The identifier of a byte string that has a digest. -/
def ofDigest (d : Bytes) : List Char := 'b' :: Base32.encode (header ++ d)

theorem ofBytes_eq (x : Bytes) : ofBytes x = ofDigest (digest x) := rfl

/-- The header takes eight letters and leaves no bit over, so the letters behind it are those of the
digest alone. -/
theorem ofDigest_eq (d : Bytes) :
    ofDigest d = "baguqeera".toList ++ Base32.letters (Base32.bits d) := by
  have hencode : Base32.encode (header ++ d) =
      Base32.letters (Base32.bits header ++ Base32.bits d) := by
    rw [← Base32.bits_append]
    rfl
  rw [ofDigest, hencode]
  rfl

theorem length_ofDigest (hd : d.length = 32) : (ofDigest d).length = 61 := by
  rw [ofDigest_eq, List.length_append, Base32.length_letters, Base32.length_bits, hd]
  rfl

/-- From the tenth character on an identifier shows the digest. -/
theorem take_ofDigest_eq_iff (hlength : d.length = e.length) (hk : 9 ≤ k) :
    (ofDigest d).take k = (ofDigest e).take k ↔
      leadingBits (5 * (k - 9)) d = leadingBits (5 * (k - 9)) e := by
  have hbits : (Base32.bits d).length = (Base32.bits e).length := by
    rw [Base32.length_bits, Base32.length_bits, hlength]
  have hheader : "baguqeera".toList.length = 9 := by decide
  have htake (d : Bytes) : (ofDigest d).take k =
      "baguqeera".toList ++ (Base32.letters (Base32.bits d)).take (k - 9) := by
    rw [ofDigest_eq, List.take_append, hheader, List.take_of_length_le (hheader ▸ hk)]
  rw [htake, htake, List.append_right_inj, Base32.take_letters_eq_iff hbits, leadingBits,
    leadingBits]

theorem take_ofBytes_eq_iff (hk : 9 ≤ k) : (ofBytes x).take k = (ofBytes y).take k ↔
    leadingBits (5 * (k - 9)) (digest x) = leadingBits (5 * (k - 9)) (digest y) := by
  rw [ofBytes_eq, ofBytes_eq]
  exact take_ofDigest_eq_iff (by simp) hk

/-- Whole identifiers are equal exactly if the digests are. -/
theorem ofDigest_inj (hd : d.length = 32) (he : e.length = 32) :
    ofDigest d = ofDigest e ↔ d = e := by
  have htake {d : Bytes} (hd : d.length = 32) : (ofDigest d).take 61 = ofDigest d :=
    List.take_of_length_le (Nat.le_of_eq (length_ofDigest hd))
  -- The letters behind the header have room for 260 bits, four more than there are.
  have hbits {d : Bytes} (hd : d.length = 32) : leadingBits 260 d = Base32.bits d := by
    refine List.take_of_length_le ?_
    rw [Base32.length_bits, hd]
    decide
  rw [← htake hd, ← htake he, take_ofDigest_eq_iff (hd.trans he.symm) (by decide), hbits hd,
    hbits he, Base32.bits_inj]

theorem mem_ofDigest {c : Char} (h : c ∈ ofDigest d) :
    ('a' ≤ c ∧ c ≤ 'z') ∨ ('2' ≤ c ∧ c ≤ '7') := by
  have hb : 'b' ∈ Base32.alphabet := by decide
  have hc : c ∈ Base32.alphabet := by
    rcases List.mem_cons.1 h with rfl | h
    · exact hb
    · exact Base32.mem_alphabet_of_mem_letters _ c h
  have hall : Base32.alphabet.all fun c => ('a' ≤ c ∧ c ≤ 'z') ∨ ('2' ≤ c ∧ c ≤ '7') := by decide
  exact of_decide_eq_true (List.all_eq_true.1 hall c hc)

/-! ## Values -/

/-- The digest that the identifier of a value is made from. -/
def digestOf (d : Json) : Bytes := digest (Bytes.ofText d.canonical)

theorem abridged_eq_iff_leadingBits (hk : 9 ≤ k) (d e : Json) :
    abridged k d = abridged k e ↔
      leadingBits (5 * (k - 9)) (digestOf d) = leadingBits (5 * (k - 9)) (digestOf e) := by
  rw [abridged, abridged, String.ofList_inj]
  exact take_ofBytes_eq_iff hk

end ContentId

/-- What the identifier of a certificate is made from. -/
def Certificate.attested (d : Derivation) (valid : Bool) : Json :=
  .obj [("derivationId", .str d.id), ("resultIri", .str d.resultIri), ("valid", .bool valid)]

theorem Certificate.idFor_eq (d : Derivation) (valid : Bool) :
    idFor d valid = urn ++ ContentId.abridged 24 (attested d valid) := rfl

namespace ContentId
open Bytes (leadingBits)
open Sha256 (digest)
open Certificate (attested)
open Receipt (preimage inputOf outputOf)

/-- **A shortened identifier shows exactly the first bits of the digest**, five for each character
behind the ninth, whatever the digests are. Every identifier has 61 characters, begins with
`baguqeera` and is made of small letters and the digits 2 to 7; whole ones are equal exactly if the
digests are. So the identifiers of certificates and receipts, with 24 characters, show 75 bits of
the digest, and the digests of what goes into and comes out of a derivation, with 32, show 115. -/
theorem truncation_shows_leadingBits :
    (∀ d e : Bytes, d.length = 32 → e.length = 32 → ∀ k : Nat, 9 ≤ k → k ≤ 61 →
      ((ofDigest d).take k = (ofDigest e).take k ↔
        leadingBits (min 256 (5 * (k - 9))) d = leadingBits (min 256 (5 * (k - 9))) e)) ∧
    (∀ (x y : Bytes) (k : Nat), 9 ≤ k → k ≤ 61 →
      ((ofBytes x).take k = (ofBytes y).take k ↔
        leadingBits (min 256 (5 * (k - 9))) (digest x) =
          leadingBits (min 256 (5 * (k - 9))) (digest y))) ∧
    (∀ x : Bytes, (ofBytes x).length = 61 ∧ "baguqeera".toList <+: ofBytes x ∧
      ∀ c ∈ ofBytes x, ('a' ≤ c ∧ c ≤ 'z') ∨ ('2' ≤ c ∧ c ≤ '7')) ∧
    (∀ x y : Bytes, ofBytes x = ofBytes y ↔ digest x = digest y) ∧
    (∀ (d e : Derivation) (valid valid' : Bool),
      Certificate.idFor d valid = Certificate.idFor e valid' ↔
        leadingBits 75 (digestOf (attested d valid)) =
          leadingBits 75 (digestOf (attested e valid'))) ∧
    (∀ moduleId operation timestamp moduleId' operation' timestamp' : String,
      Receipt.idFor moduleId operation timestamp = Receipt.idFor moduleId' operation' timestamp' ↔
        leadingBits 75 (digest (Bytes.ofText (preimage moduleId operation timestamp))) =
          leadingBits 75 (digest (Bytes.ofText (preimage moduleId' operation' timestamp')))) ∧
    (∀ (operation operation' : String) (q q' : Quantum),
      Receipt.digestOfInput operation q = Receipt.digestOfInput operation' q' ↔
        leadingBits 115 (digestOf (inputOf operation q)) =
          leadingBits 115 (digestOf (inputOf operation' q'))) ∧
    ∀ d e : Derivation, Receipt.digestOfOutput d = Receipt.digestOfOutput e ↔
      leadingBits 115 (digestOf (outputOf d)) = leadingBits 115 (digestOf (outputOf e)) := by
  have htake (d e : Bytes) (hd : d.length = 32) (he : e.length = 32) (k : Nat) (hk : 9 ≤ k) :
      (ofDigest d).take k = (ofDigest e).take k ↔
        leadingBits (min 256 (5 * (k - 9))) d = leadingBits (min 256 (5 * (k - 9))) e := by
    have hmin {d : Bytes} (hd : d.length = 32) :
        leadingBits (min 256 (5 * (k - 9))) d = leadingBits (5 * (k - 9)) d := by
      rw [← Bytes.leadingBits_min (5 * (k - 9)) d, hd]
    rw [hmin hd, hmin he, take_ofDigest_eq_iff (hd.trans he.symm) hk]
  have hdigest (x : Bytes) : (digest x).length = 32 := Sha256.length_digest x
  refine ⟨fun d e hd he k hk _ => htake d e hd he k hk, ?_, ?_, ?_, ?_, ?_, ?_, ?_⟩
  · intro x y k hk _
    exact htake (digest x) (digest y) (hdigest x) (hdigest y) k hk
  · intro x
    exact ⟨length_ofDigest (hdigest x), ⟨_, (ofDigest_eq (digest x)).symm⟩, fun c => mem_ofDigest⟩
  · intro x y
    exact ofDigest_inj (hdigest x) (hdigest y)
  · intro d e valid valid'
    rw [Certificate.idFor_eq, Certificate.idFor_eq, String.append_right_inj,
      abridged_eq_iff_leadingBits (by decide)]
  · intro moduleId operation timestamp moduleId' operation' timestamp'
    rw [Receipt.idFor, Receipt.idFor, String.append_right_inj, String.ofList_inj]
    exact take_ofBytes_eq_iff (by decide)
  · intro operation operation' q q'
    exact abridged_eq_iff_leadingBits (by decide) _ _
  · intro d e
    exact abridged_eq_iff_leadingBits (by decide) _ _

/-- Two digests that differ behind their first 75 bits, first in the bit with the number 76: 24
characters do not tell them apart, 25 do. The digests of no bytes and of the byte of a letter, on
the other hand, begin with the same twelve bits, which are more than eleven characters show. -/
theorem truncation_shows_leadingBits_boundary :
    let d : Bytes := List.replicate 32 0
    let e : Bytes := List.replicate 9 0 ++ 0x1F :: List.replicate 22 0xFF
    d.length = 32 ∧ e.length = 32 ∧
    (9 ≤ 24 ∧ 24 ≤ 61 ∧ (ofDigest d).take 24 = (ofDigest e).take 24) ∧
    (9 ≤ 25 ∧ 25 ≤ 61 ∧ (ofDigest d).take 25 ≠ (ofDigest e).take 25) ∧
    (9 ≤ 11 ∧ 11 ≤ 61 ∧ (ofBytes []).take 11 = (ofBytes [0x74]).take 11) ∧
    (9 ≤ 12 ∧ 12 ≤ 61 ∧ (ofBytes []).take 12 ≠ (ofBytes [0x74]).take 12) := by
  intro d e
  have hd : d.length = 32 := rfl
  have he : e.length = 32 := rfl
  obtain ⟨hdigests, hbytes, -⟩ := truncation_shows_leadingBits
  have hsame : leadingBits 10 (digest []) = leadingBits 10 (digest [0x74]) := by decide +kernel
  have hother : leadingBits 15 (digest []) ≠ leadingBits 15 (digest [0x74]) := by decide +kernel
  refine ⟨hd, he, ⟨by decide, by decide, ?_⟩, ⟨by decide, by decide, ?_⟩,
    ⟨by decide, by decide, ?_⟩, by decide, by decide, ?_⟩
  · exact (hdigests d e hd he 24 (by decide) (by decide)).2 (by decide)
  · exact mt (hdigests d e hd he 25 (by decide) (by decide)).1 (by decide)
  · exact (hbytes [] [0x74] 11 (by decide) (by decide)).2 hsame
  · exact mt (hbytes [] [0x74] 12 (by decide) (by decide)).1 hother

end ContentId

end WordRing
