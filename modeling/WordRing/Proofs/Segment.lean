import Mathlib.Data.List.Infix
import WordRing.Proofs.Address

/-!
# What the reading of addresses passes over

Reading looks for segments wherever they begin and passes over everything else, so it answers with
the bytes of all segments in a text, and refuses a text only if it has none or one that stands for
no byte. As no digit is a `U`, segments never overlap. A text that is read is therefore an address
of what it is read as, up to the case of the hexadecimal letters, exactly if it has five characters
for each byte behind the base; other texts are read as well, and share their bytes with the address.

## Main definitions

* `codepointsIn cs` — the code points of all segments in a text.
* `IsPathOf cs b`, `Renders iri b` — the bare path, and the address, of a byte string up to the case
  of the hexadecimal letters.
-/
namespace WordRing

/-! ## Digits in either case -/

namespace Digits
variable {base n d : Nat} {c : Char} {ds : List Char}

/-- What holds of finitely many code points holds of their characters. -/
theorem of_toNat_lt {p : Char → Prop} {bound : Nat} (h : ∀ n < bound, p (Char.ofNat n))
    (hc : c.toNat < bound) : p c := by
  have hchar := h c.toNat hc
  rwa [Char.ofNat_toNat] at hchar

theorem toNat_lt_of_digitValue? (h : digitValue? c = some d) : c.toNat < 128 := by
  simp only [digitValue?] at h
  grind

theorem toUpper_of_digitValue? (h : digitValue? c = some d) :
    c.toUpper = (digitChar d).toUpper := by
  have all : ∀ n < 128, ∀ d ∈ digitValue? (Char.ofNat n),
      (Char.ofNat n).toUpper = (digitChar d).toUpper := by decide
  exact of_toNat_lt (p := fun c => ∀ d ∈ digitValue? c, c.toUpper = (digitChar d).toUpper) all
    (toNat_lt_of_digitValue? h) d h

theorem toUpper_eq_self (h : 128 ≤ c.toNat) : c.toUpper = c := by
  refine dif_neg ?_
  rintro ⟨-, hle⟩
  have hz : c.toNat ≤ 122 := hle
  omega

theorem digitValue?_toUpper (c : Char) : digitValue? c.toUpper = digitValue? c := by
  by_cases h : c.toNat < 128
  · exact of_toNat_lt (p := fun c => digitValue? c.toUpper = digitValue? c) (by decide) h
  · rw [toUpper_eq_self (Nat.not_lt.1 h)]

theorem ofDigits_map_toUpper (base : Nat) (ds : List Char) :
    ofDigits base (ds.map Char.toUpper) = ofDigits base ds := by
  simp only [ofDigits, List.foldl_map, digitValue?_toUpper]

theorem ofDigits_concat_eq_some_iff : ofDigits base (ds ++ [c]) = some n ↔
    ∃ m d, ofDigits base ds = some m ∧ digitValue? c = some d ∧ d < base ∧ n = m * base + d := by
  have hstep : ofDigits base (ds ++ [c]) = (ofDigits base ds).bind fun m =>
      (digitValue? c).bind fun d => if d < base then some (m * base + d) else none := by
    simp [ofDigits]
  rw [hstep]
  cases ofDigits base ds <;> cases digitValue? c <;> simp [eq_comm]

/-- Every character of a numeral is a digit. -/
theorem digitValue?_ne_none (h : ofDigits base ds = some n) : ∀ c ∈ ds, digitValue? c ≠ none := by
  induction ds using List.reverseRecOn generalizing n with
  | nil => simp
  | append_singleton ds c ih =>
    obtain ⟨m, d, hds, hc, -, -⟩ := ofDigits_concat_eq_some_iff.1 h
    intro x hx
    rcases List.mem_append.1 hx with hx | hx
    · exact ih hds x hx
    · rw [List.mem_singleton.1 hx, hc]
      exact Option.some_ne_none d

/-- A numeral is the one that is written for its number, up to the case of its letters. -/
theorem map_toUpper_of_ofDigits (h : ofDigits base ds = some n) :
    ds.map Char.toUpper = (fixed base ds.length n).map Char.toUpper := by
  induction ds using List.reverseRecOn generalizing n with
  | nil => rfl
  | append_singleton ds c ih =>
    obtain ⟨m, d, hds, hc, hd, rfl⟩ := ofDigits_concat_eq_some_iff.1 h
    have hpos : 0 < base := Nat.zero_lt_of_lt hd
    have hquotient : (m * base + d) / base = m := by
      rw [Nat.mul_comm, Nat.mul_add_div hpos, Nat.div_eq_of_lt hd, Nat.add_zero]
    have hrest : (m * base + d) % base = d := by
      rw [Nat.mul_comm, Nat.mul_add_mod, Nat.mod_eq_of_lt hd]
    rw [List.length_append, List.length_singleton, fixed_succ, hquotient, hrest, List.map_append,
      List.map_append, ih hds, List.map_singleton, List.map_singleton, toUpper_of_digitValue? hc]

end Digits

namespace Address
variable {cs : List Char} {b : Bytes} {x : UInt8} {cp : Nat} {iri : String} {e : Error}

/-! ## Segments anywhere in a text -/

/-- The code point of the segment that a text begins with. -/
def codepointAt? : List Char → Option Nat
  | 'U' :: a :: b :: c :: d :: _ => Digits.ofDigits 16 [a, b, c, d]
  | _ => none

/-- The code points of the segments that begin anywhere in a text, from left to right. -/
def codepointsIn (cs : List Char) : List Nat := cs.tails.filterMap codepointAt?

theorem codepointAt?_segment (a b c d : Char) (rest : List Char) :
    codepointAt? ('U' :: a :: b :: c :: d :: rest) = Digits.ofDigits 16 [a, b, c, d] := rfl

theorem codepointAt?_cons_of_ne {c : Char} (h : c ≠ 'U') : codepointAt? (c :: cs) = none := by
  rw [codepointAt?]
  simp [h]

theorem codepointsIn_cons_of_eq_none {c : Char} (h : codepointAt? (c :: cs) = none) :
    codepointsIn (c :: cs) = codepointsIn cs := by
  rw [codepointsIn, List.tails_cons, List.filterMap_cons_none h, codepointsIn]

/-- No segment begins inside another one. -/
theorem codepointsIn_segment {a b c d : Char} (h : Digits.ofDigits 16 [a, b, c, d] = some cp) :
    codepointsIn ('U' :: a :: b :: c :: d :: cs) = cp :: codepointsIn cs := by
  have hskip (x : Char) (hx : x ∈ [a, b, c, d]) (rest : List Char) :
      codepointsIn (x :: rest) = codepointsIn rest := by
    refine codepointsIn_cons_of_eq_none (codepointAt?_cons_of_ne ?_)
    rintro rfl
    exact Digits.digitValue?_ne_none h 'U' hx rfl
  have hfirst : codepointAt? ('U' :: a :: b :: c :: d :: cs) = some cp := h
  rw [codepointsIn, List.tails_cons, List.filterMap_cons_some hfirst, ← codepointsIn,
    hskip a (by simp), hskip b (by simp), hskip c (by simp), hskip d (by simp)]

theorem segments_cons_of_eq_none {c : Char} (h : codepointAt? (c :: cs) = none) :
    segments (c :: cs) = segments cs := by
  generalize htext : c :: cs = text at h
  fun_cases segments text with
  | case1 a b c d rest cp hdigits =>
    rw [codepointAt?_segment, hdigits] at h
    cases h
  | case2 a b c d rest => rw [(List.cons.inj htext).2]
  | case3 c rest => rw [(List.cons.inj htext).2]
  | case4 => cases htext

/-- Texts are read from the front: a segment is taken off whole, and any character that begins none
is passed over. -/
@[elab_as_elim] theorem inductSegments {motive : List Char → Prop} (nil : motive [])
    (segment : ∀ a b c d rest cp, Digits.ofDigits 16 [a, b, c, d] = some cp → motive rest →
      motive ('U' :: a :: b :: c :: d :: rest))
    (skip : ∀ c rest, codepointAt? (c :: rest) = none → motive rest → motive (c :: rest))
    (cs : List Char) : motive cs := by
  induction cs using segments.induct with
  | case1 a b c d rest cp hdigits ih => exact segment a b c d rest cp hdigits ih
  | case2 a b c d rest hdigits ih => exact skip 'U' _ hdigits ih
  | case3 c rest hne ih =>
    refine skip c rest ?_ ih
    generalize htext : c :: rest = text
    fun_cases codepointAt? text with
    | case1 a b c d rest =>
      obtain ⟨rfl, rfl⟩ := List.cons.inj htext
      exact absurd rfl (hne a b c d rest rfl)
    | case2 => rfl
  | case4 => exact nil

/-- Reading takes the segments of a text wherever they begin. -/
theorem segments_eq_mapM (cs : List Char) : segments cs = (codepointsIn cs).mapM byteOf := by
  induction cs using inductSegments with
  | nil => rfl
  | segment a b c d rest cp hdigits ih =>
    rw [codepointsIn_segment hdigits, List.mapM_cons, ← ih, segments, hdigits]
  | skip c rest hnone ih =>
    rw [codepointsIn_cons_of_eq_none hnone, ← ih, segments_cons_of_eq_none hnone]

/-- Segments take five characters each. -/
theorem length_codepointsIn_le (cs : List Char) : 5 * (codepointsIn cs).length ≤ cs.length := by
  induction cs using inductSegments with
  | nil => exact Nat.le_refl 0
  | segment a b c d rest cp hdigits ih =>
    rw [codepointsIn_segment hdigits]
    simp only [List.length_cons]
    omega
  | skip c rest hnone ih =>
    rw [codepointsIn_cons_of_eq_none hnone]
    exact Nat.le_succ_of_le ih

/-! ## Code points of bytes -/

/-- A code point stands for a byte, or it is refused. -/
theorem byteOf_cases (cp : Nat) : (∃ x, cp = codepoint x) ∨
    (∀ x, cp ≠ codepoint x) ∧ byteOf cp = .error (.codepointOutside cp) := by
  by_cases hblock : brailleBase ≤ cp ∧ cp ≤ brailleBase + 0xFF
  · have hlt : cp - brailleBase < 256 := by omega
    refine .inl ⟨UInt8.ofNat (cp - brailleBase), ?_⟩
    rw [codepoint, UInt8.toNat_ofNat_of_lt' hlt]
    omega
  · refine .inr ⟨?_, if_neg hblock⟩
    rintro x rfl
    have hx : x.toNat < 256 := x.toNat_lt
    exact hblock ⟨Nat.le_add_right _ _, Nat.add_le_add_left (Nat.le_of_lt_succ hx) _⟩

theorem mapM_byteOf_cons (x : UInt8) (cps : List Nat) :
    (codepoint x :: cps).mapM byteOf = (cps.mapM byteOf).map (x :: ·) := by
  rw [List.mapM_cons, byteOf_codepoint]
  cases cps.mapM byteOf <;> rfl

theorem mapM_byteOf_map (b : Bytes) : (b.map codepoint).mapM byteOf = .ok b := by
  induction b with
  | nil => rfl
  | cons x b ih => rw [List.map_cons, mapM_byteOf_cons, ih]; rfl

/-- The first code point that stands for no byte is the error. -/
theorem mapM_byteOf_append_cons (before : Bytes) (h : ∀ x, cp ≠ codepoint x) (after : List Nat) :
    (before.map codepoint ++ cp :: after).mapM byteOf = .error (.codepointOutside cp) := by
  induction before with
  | nil =>
    obtain ⟨x, hx⟩ | ⟨-, herror⟩ := byteOf_cases cp
    · exact absurd hx (h x)
    · rw [List.map_nil, List.nil_append, List.mapM_cons, herror]
      rfl
  | cons x before ih => rw [List.map_cons, List.cons_append, mapM_byteOf_cons, ih]; rfl

/-- All code points stand for bytes, or there is a first one that does not. -/
theorem map_codepoint_or (cps : List Nat) : (∃ b : Bytes, cps = b.map codepoint) ∨
    ∃ (before : Bytes) (cp : Nat) (after : List Nat),
      cps = before.map codepoint ++ cp :: after ∧ ∀ x, cp ≠ codepoint x := by
  induction cps with
  | nil => exact .inl ⟨[], rfl⟩
  | cons cp cps ih =>
    obtain ⟨x, rfl⟩ | ⟨hne, -⟩ := byteOf_cases cp
    · obtain ⟨b, rfl⟩ | ⟨before, cp, after, rfl, hne⟩ := ih
      · exact .inl ⟨x :: b, rfl⟩
      · exact .inr ⟨x :: before, cp, after, rfl, hne⟩
    · exact .inr ⟨[], cp, cps, rfl, hne⟩

/-! ## Reading -/

theorem toBytes_of_codepointsIn (h : codepointsIn (withoutBase iri) = b.map codepoint)
    (hb : b ≠ []) : toBytes iri = .ok b := by
  rw [toBytes, segments_eq_mapM, h, mapM_byteOf_map]
  simp [hb, bind, Except.bind, pure, Except.pure]

theorem toBytes_of_codepointsIn_eq_nil (h : codepointsIn (withoutBase iri) = []) :
    toBytes iri = .error (.noSegments iri) := by
  rw [toBytes, segments_eq_mapM, h]
  rfl

theorem toBytes_of_codepointsIn_append_cons {before : Bytes} {after : List Nat}
    (h : codepointsIn (withoutBase iri) = before.map codepoint ++ cp :: after)
    (hne : ∀ x, cp ≠ codepoint x) : toBytes iri = .error (.codepointOutside cp) := by
  rw [toBytes, segments_eq_mapM, h, mapM_byteOf_append_cons before hne]
  rfl

theorem toBytes_eq_ok_iff :
    toBytes iri = .ok b ↔ b ≠ [] ∧ codepointsIn (withoutBase iri) = b.map codepoint := by
  refine ⟨fun h => ?_, fun h => toBytes_of_codepointsIn h.2 h.1⟩
  obtain ⟨c, hc⟩ | ⟨before, cp, after, hsplit, hne⟩ :=
    map_codepoint_or (codepointsIn (withoutBase iri))
  · by_cases hnil : c = []
    · rw [hnil] at hc
      exact nomatch h.symm.trans (toBytes_of_codepointsIn_eq_nil hc)
    · obtain rfl : b = c := Except.ok.inj (h.symm.trans (toBytes_of_codepointsIn hc hnil))
      exact ⟨hnil, hc⟩
  · exact nomatch h.symm.trans (toBytes_of_codepointsIn_append_cons hsplit hne)

theorem toBytes_eq_error_iff : toBytes iri = .error e ↔
    codepointsIn (withoutBase iri) = [] ∧ e = .noSegments iri ∨
    ∃ (before : Bytes) (cp : Nat) (after : List Nat),
      codepointsIn (withoutBase iri) = before.map codepoint ++ cp :: after ∧
      (∀ x, cp ≠ codepoint x) ∧ e = .codepointOutside cp := by
  constructor
  · intro h
    obtain ⟨b, hb⟩ | ⟨before, cp, after, hsplit, hne⟩ :=
      map_codepoint_or (codepointsIn (withoutBase iri))
    · by_cases hnil : b = []
      · rw [hnil] at hb
        exact .inl ⟨hb, Except.error.inj (h.symm.trans (toBytes_of_codepointsIn_eq_nil hb))⟩
      · exact nomatch h.symm.trans (toBytes_of_codepointsIn hb hnil)
    · refine .inr ⟨before, cp, after, hsplit, hne, ?_⟩
      exact Except.error.inj (h.symm.trans (toBytes_of_codepointsIn_append_cons hsplit hne))
  · rintro (⟨hnil, rfl⟩ | ⟨before, cp, after, hsplit, hne, rfl⟩)
    · exact toBytes_of_codepointsIn_eq_nil hnil
    · exact toBytes_of_codepointsIn_append_cons hsplit hne

/-! ## Addresses up to case -/

/-- A text is the bare path of a byte string, up to the case of its hexadecimal letters. -/
def IsPathOf (cs : List Char) (b : Bytes) : Prop := cs.map Char.toUpper = path b ∧ 'u' ∉ cs

/-- A text is the address of a byte string, with its base or without, up to the case of its
hexadecimal letters. -/
def Renders (iri : String) (b : Bytes) : Prop :=
  ∃ cs, IsPathOf cs b ∧ (iri = base ++ String.ofList cs ∨ iri = String.ofList cs)

theorem isPathOf_nil : IsPathOf cs [] ↔ cs = [] := by
  constructor
  · exact fun h => List.map_eq_nil_iff.1 h.1
  · rintro rfl
    exact ⟨rfl, List.not_mem_nil⟩

theorem eq_of_toUpper_eq {c : Char} (h : c.toUpper = 'U') (hne : 'u' ≠ c) : c = 'U' := by
  by_cases hlt : c.toNat < 128
  · have all : ∀ n < 128,
        (Char.ofNat n).toUpper = 'U' → 'u' ≠ Char.ofNat n → Char.ofNat n = 'U' := by decide
    exact Digits.of_toNat_lt (p := fun c => c.toUpper = 'U' → 'u' ≠ c → c = 'U') all hlt h hne
  · rwa [Digits.toUpper_eq_self (Nat.not_lt.1 hlt)] at h

/-- A path begins with a segment of its first byte, the rest is a path of the others. -/
theorem isPathOf_cons : IsPathOf cs (x :: b) ↔ ∃ a₁ a₂ a₃ a₄ rest,
    cs = 'U' :: a₁ :: a₂ :: a₃ :: a₄ :: rest ∧
    Digits.ofDigits 16 [a₁, a₂, a₃, a₄] = some (codepoint x) ∧ IsPathOf rest b := by
  have hpath : path (x :: b) = 'U' :: Digits.upperHex 4 (codepoint x) ++ path b := rfl
  constructor
  · rintro ⟨hupper, hu⟩
    rw [hpath, List.cons_append] at hupper
    obtain ⟨c, cs, rfl, hc, hbehind⟩ := List.map_eq_cons_iff.1 hupper
    obtain ⟨ds, rest, rfl, hds, hrest⟩ := List.map_eq_append_iff.1 hbehind
    obtain ⟨hne, hu⟩ := not_or.1 (fun h => hu (List.mem_cons.2 h))
    have hlength : ds.length = 4 := by
      rw [← List.length_map Char.toUpper, hds, upperHex_codepoint, List.length_map,
        Digits.length_fixed]
    obtain ⟨a₁, a₂, a₃, a₄, rfl⟩ := List.length_eq_four.1 hlength
    refine ⟨a₁, a₂, a₃, a₄, rest, ?_, ?_, hrest, fun h => hu (List.mem_append_right _ h)⟩
    · rw [eq_of_toUpper_eq hc hne, List.cons_append]
      rfl
    · rw [← Digits.ofDigits_map_toUpper, hds, ofDigits_codepoint]
  · rintro ⟨a₁, a₂, a₃, a₄, rest, rfl, hdigits, hupper, hu⟩
    have hmap : [a₁, a₂, a₃, a₄].map Char.toUpper = Digits.upperHex 4 (codepoint x) := by
      rw [Digits.map_toUpper_of_ofDigits hdigits, upperHex_codepoint]
      rfl
    refine ⟨?_, ?_⟩
    · rw [hpath, ← hmap, ← hupper]
      rfl
    · intro hmem
      have hbehind : 'u' ∈ [a₁, a₂, a₃, a₄] ++ rest :=
        List.mem_of_ne_of_mem (by decide : 'u' ≠ 'U') hmem
      rcases List.mem_append.1 hbehind with hmem | hmem
      · exact Digits.digitValue?_ne_none hdigits 'u' hmem rfl
      · exact hu hmem

/-- A path up to case has five characters for each byte, and no segment more than these. -/
theorem isPathOf_iff : IsPathOf cs b ↔
    codepointsIn cs = b.map codepoint ∧ cs.length = 5 * b.length := by
  constructor
  · intro h
    induction b generalizing cs with
    | nil =>
      obtain rfl := isPathOf_nil.1 h
      exact ⟨rfl, rfl⟩
    | cons x b ih =>
      obtain ⟨a₁, a₂, a₃, a₄, rest, rfl, hdigits, hrest⟩ := isPathOf_cons.1 h
      obtain ⟨hcodepoints, hlength⟩ := ih hrest
      rw [codepointsIn_segment hdigits, hcodepoints]
      refine ⟨rfl, ?_⟩
      simp only [List.length_cons, hlength]
      omega
  · rintro ⟨hcodepoints, hlength⟩
    induction cs using inductSegments generalizing b with
    | nil =>
      obtain rfl : b = [] := List.map_eq_nil_iff.1 hcodepoints.symm
      exact isPathOf_nil.2 rfl
    | segment a₁ a₂ a₃ a₄ rest cp hdigits ih =>
      rw [codepointsIn_segment hdigits] at hcodepoints
      obtain ⟨x, b, rfl, rfl, hrest⟩ := List.map_eq_cons_iff.1 hcodepoints.symm
      refine isPathOf_cons.2 ⟨a₁, a₂, a₃, a₄, rest, rfl, hdigits, ih hrest.symm ?_⟩
      simp only [List.length_cons] at hlength
      omega
    | skip c rest hnone ih =>
      -- A character that begins no segment leaves too few for the segments that there are.
      rw [codepointsIn_cons_of_eq_none hnone] at hcodepoints
      have hle := length_codepointsIn_le rest
      rw [hcodepoints, List.length_map] at hle
      rw [List.length_cons] at hlength
      omega

theorem eq_base_append_or (iri : String) :
    iri = base ++ String.ofList (withoutBase iri) ∨ iri = String.ofList (withoutBase iri) := by
  rw [withoutBase]
  split
  next hfront =>
    left
    have happend := List.prefix_iff_eq_append.1 (List.isPrefixOf_iff_prefix.1 hfront)
    rw [String.length_toList] at happend
    rw [← String.toList_inj, String.toList_append, String.toList_ofList, happend]
  next => exact .inr (by simp)

theorem renders_iff : Renders iri b ↔ IsPathOf (withoutBase iri) b := by
  constructor
  · rintro ⟨cs, hpath, rfl | rfl⟩
    · rwa [withoutBase_base_append]
    · have hhead : cs.head? ≠ some 'h' := by
        cases b with
        | nil => simp [isPathOf_nil.1 hpath]
        | cons x b =>
          obtain ⟨a₁, a₂, a₃, a₄, rest, rfl, -, -⟩ := isPathOf_cons.1 hpath
          simp
      rwa [withoutBase_ofList hhead]
  · exact fun h => ⟨_, h, eq_base_append_or iri⟩

/-- **What is read off an address.** The bytes are those of all segments that begin anywhere in the
text behind the base, and at least one is there. So the addresses, with their base or without and up
to the case of the hexadecimal letters, are the texts that are read and have five characters for
each byte; whatever stands before, between or behind the segments of any other text is passed over.
A text is refused for having no segment, or for its first segment that stands for no byte. -/
theorem toBytes_reads_segments (iri : String) :
    (∀ b, toBytes iri = .ok b ↔
      b ≠ [] ∧ codepointsIn (withoutBase iri) = b.map codepoint) ∧
    (∀ b, b ≠ [] ∧ Renders iri b ↔
      toBytes iri = .ok b ∧ (withoutBase iri).length = 5 * b.length) ∧
    ∀ e, toBytes iri = .error e ↔
      codepointsIn (withoutBase iri) = [] ∧ e = .noSegments iri ∨
      ∃ (before : Bytes) (cp : Nat) (after : List Nat),
        codepointsIn (withoutBase iri) = before.map codepoint ++ cp :: after ∧
        (∀ x, cp ≠ codepoint x) ∧ e = .codepointOutside cp := by
  refine ⟨fun b => toBytes_eq_ok_iff, fun b => ?_, fun e => toBytes_eq_error_iff⟩
  rw [renders_iff, isPathOf_iff, toBytes_eq_ok_iff, and_assoc]

/-- A foreign base, a text between segments and a cut segment behind them go unnoticed: two texts,
only one of which is an address, are read as the same bytes. -/
theorem not_renders_of_toBytes :
    toBytes "https://example.org/U2855-U28AA/U28" = .ok [0x55, 0xAA] ∧
    toBytes "https://uor.foundation/u/U2855U28AA" = .ok [0x55, 0xAA] ∧
    ¬ ∀ (iri : String) (b : Bytes), toBytes iri = .ok b → Renders iri b := by
  have hread : toBytes "https://example.org/U2855-U28AA/U28" = .ok [0x55, 0xAA] := rfl
  refine ⟨hread, rfl, fun hall => ?_⟩
  have hlength := (isPathOf_iff.1 (renders_iff.1 (hall _ _ hread))).2
  exact absurd hlength (by decide)

end Address

end WordRing
