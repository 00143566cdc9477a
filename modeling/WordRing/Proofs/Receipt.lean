import WordRing.Proofs.Derivation
import WordRing.Proofs.Json
import WordRing.Receipt

/-!
# What the digests of a receipt distinguish

A receipt keeps the leading characters of two identifiers, one of an object with the term in
writing and the quantum level, one of an object with the identifier, value and address of the
derivation. Where these characters do not confuse the objects at hand, the digests are equal
exactly if the objects are, because canonical JSON and the writing of terms lose nothing. The
comparison of two derivations inside a receipt is a comparison of such digests.

## Main definitions

* `ContentId.NoCollision length d e` — the characters kept of the identifiers do not confuse `d`
  and `e`.
* `Derivation.SameOutput d e` — `d` and `e` agree in identifier, value and address.
-/
namespace WordRing

namespace ContentId
variable {length : Nat} {d e : Json}

/-- The characters that are kept of an identifier do not make two values look alike. -/
def NoCollision (length : Nat) (d e : Json) : Prop :=
  abridged length d = abridged length e → Bytes.ofText d.canonical = Bytes.ofText e.canonical

theorem abridged_eq_iff (hd : d.Plain) (he : e.Plain) (hclear : NoCollision length d e) :
    abridged length d = abridged length e ↔ d.EqUpToOrder e := by
  rw [← Json.canonical_eq_iff hd he]
  constructor
  · exact fun h => Bytes.ofText_inj.1 (hclear h)
  · intro h
    rw [abridged, abridged, ofJson, ofJson, h]

end ContentId

namespace Derivation
variable {q q' : Quantum} {b b' : Bytes} {d d' : Derivation}

/-- The derivations agree in what a receipt digests of them. -/
def SameOutput (d e : Derivation) : Prop :=
  d.id = e.id ∧ d.resultValue = e.resultValue ∧ d.resultIri = e.resultIri

/-- Derivations of constants agree exactly if level and value are the same. The address shows both,
and conversely the identifier is computed from nothing else. -/
theorem Records.sameOutput_iff (h : Records q (.const (Bytes.toNat b)) b d)
    (h' : Records q' (.const (Bytes.toNat b')) b' d') (hb : b.length = q.width)
    (hb' : b'.length = q'.width) :
    d.SameOutput d' ↔ q = q' ∧ Bytes.toNat b = Bytes.toNat b' := by
  have hvalue : d.resultValue = d'.resultValue ↔ Bytes.toNat b = Bytes.toNat b' := by
    rw [h.resultValue, h'.resultValue, Int.ofNat_inj]
  have haddress := h.resultIri_eq_iff h' hb hb'
  rw [hvalue] at haddress
  constructor
  · exact fun hsame => haddress.1 hsame.2.2
  · intro hboth
    exact ⟨h.id_eq_of_toNat_eq h' hb hb' hboth.1 hboth.2, hvalue.2 hboth.2, haddress.2 hboth⟩

end Derivation

namespace Receipt
open ContentId
variable {q q' : Quantum} {t t' : Term} {d e : Derivation}

/-! ## Digests -/

theorem plain_inputOf (operation : String) (q : Quantum) : (inputOf operation q).Plain := by
  simp [inputOf]

theorem plain_outputOf (d : Derivation) : (outputOf d).Plain := by simp [outputOf]

theorem inputOf_eqUpToOrder_iff {operation operation' : String} :
    (inputOf operation q).EqUpToOrder (inputOf operation' q') ↔
      operation = operation' ∧ q = q' := by
  cases q
  cases q'
  simp [inputOf]

theorem outputOf_eqUpToOrder_iff :
    (outputOf d).EqUpToOrder (outputOf e) ↔ d.SameOutput e := by
  simp [outputOf, Derivation.SameOutput]

/-- What is hashed for the input has the quantum level before the term. -/
theorem canonicalChars_inputOf (operation : String) (q : Quantum) :
    (inputOf operation q).canonicalChars = '\x7b' :: (Text.join [',']
      [Json.memberText ("quantum", .nat q.level), Json.memberText ("term", .str operation)] ++
        ['\x7d']) := by
  have hsort (x y : Json) :
      Json.sortByKey [("term", x), ("quantum", y)] = [("quantum", y), ("term", x)] :=
    Json.sortByKey_eq_of_pairwise (by simp) (.swap ..) (by simpa using by decide)
  rw [inputOf, Json.canonicalChars_obj, hsort]
  rfl

/-- What is hashed for the output has the address before the value. -/
theorem canonicalChars_outputOf (d : Derivation) :
    (outputOf d).canonicalChars = '\x7b' :: (Text.join [',']
      [Json.memberText ("derivationId", .str d.id), Json.memberText ("resultIri", .str d.resultIri),
        Json.memberText ("resultValue", .int d.resultValue)] ++ ['\x7d']) := by
  have hsort (x y z : Json) :
      Json.sortByKey [("derivationId", x), ("resultValue", y), ("resultIri", z)] =
        [("derivationId", x), ("resultIri", z), ("resultValue", y)] :=
    Json.sortByKey_eq_of_pairwise (by simp) (.cons _ (.swap ..)) (by simpa using by decide)
  rw [outputOf, Json.canonicalChars_obj, hsort]
  rfl

/-- The digest of what goes into a derivation shows the quantum level and the term. The level comes
first, as terms are told apart by their writing at one width. -/
theorem digestOfInput_eq_iff
    (hclear : NoCollision 32 (inputOf (t.written q.width) q) (inputOf (t'.written q'.width) q')) :
    digestOfInput (t.written q.width) q = digestOfInput (t'.written q'.width) q' ↔
      q = q' ∧ t = t' := by
  rw [digestOfInput, digestOfInput,
    abridged_eq_iff (plain_inputOf _ q) (plain_inputOf _ q') hclear, inputOf_eqUpToOrder_iff,
    and_comm]
  refine and_congr_right ?_
  rintro rfl
  rw [Term.written, Term.written, String.ofList_inj, Term.text_inj]

theorem digestOfOutput_eq_iff (hclear : NoCollision 32 (outputOf d) (outputOf e)) :
    digestOfOutput d = digestOfOutput e ↔ d.SameOutput e := by
  rw [digestOfOutput, digestOfOutput, abridged_eq_iff (plain_outputOf d) (plain_outputOf e) hclear,
    outputOf_eqUpToOrder_iff]

end Receipt

namespace ByteRing
open ContentId Receipt
open WordRing.Derivation (Records)
variable {r : ByteRing} {moduleId now : String} {t : Term} {first second : Except Error Derivation}
  {d : Derivation} {c : Receipt}

/-! ## Issuing -/

/-- Two derivations make a receipt, which digests the first and compares it with the second. -/
theorem exists_receiptOf (r : ByteRing) (moduleId : String) (t : Term) (now : String)
    (d e : Derivation) :
    ∃ c, r.receiptOf moduleId t now (.ok d) (.ok e) = .ok (d, c) ∧
      c.inputHash = digestOfInput (t.written r.quantum.width) r.quantum ∧
      c.outputHash = digestOfOutput d ∧
      c.selfVerified = decide (digestOfOutput e = digestOfOutput d) :=
  ⟨_, rfl, rfl, rfl, rfl⟩

/-- Only two derivations make a receipt, and it comes with the first of them. -/
theorem exists_of_receiptOf (h : r.receiptOf moduleId t now first second = .ok (d, c)) :
    ∃ e, first = .ok d ∧ second = .ok e := by
  cases first with
  | error e => exact nomatch h
  | ok d₁ =>
    cases second with
    | error e => exact nomatch h
    | ok d₂ =>
      obtain ⟨rfl, -⟩ := Prod.mk.inj (Except.ok.inj h)
      exact ⟨d₂, rfl, rfl⟩

/-- A receipt that was issued digests its term and the first derivation. -/
theorem digests_of_receiptOf (h : r.receiptOf moduleId t now first second = .ok (d, c)) :
    c.inputHash = digestOfInput (t.written r.quantum.width) r.quantum ∧
      c.outputHash = digestOfOutput d := by
  obtain ⟨e, rfl, rfl⟩ := exists_of_receiptOf h
  obtain ⟨-, rfl⟩ := Prod.mk.inj (Except.ok.inj h)
  exact ⟨rfl, rfl⟩

/-- It notes the term in writing and is named after it. -/
theorem id_of_receiptOf (h : r.receiptOf moduleId t now first second = .ok (d, c)) :
    c.operation = t.written r.quantum.width ∧ c.id = idFor moduleId c.operation now := by
  obtain ⟨e, rfl, rfl⟩ := exists_of_receiptOf h
  obtain ⟨-, rfl⟩ := Prod.mk.inj (Except.ok.inj h)
  exact ⟨rfl, rfl⟩

/-- In a sound ring a term without variables gets a receipt, for the derivation of the constant of
its value. -/
theorem exists_issueReceipt_of_ground (q : Quantum) (verified : Bool) (moduleId now : String)
    (hground : t.vars = []) :
    ∃ d c, issueReceipt { sound q with verified } moduleId t now = .ok (d, c) ∧
      Records q (.const (t.number q)) (t.value q fun _ => 0) d := by
  obtain ⟨d, hd, h⟩ := exists_derive_of_ground q verified now hground
  obtain ⟨c, hc, -⟩ := exists_receiptOf { sound q with verified } moduleId t now d d
  refine ⟨d, c, ?_, h⟩
  rw [issueReceipt, hd, hc]

/-- **What the digests of receipts distinguish**, where the characters that are kept do not confuse
the objects at hand. Whatever the derivations were, the digests of what goes in are equal exactly
if level and term are, and the digests of what comes out exactly if the derivations agree in
identifier, value and address. In sound rings terms without variables always get receipts, and such
derivations agree exactly if level and value are the same. The check inside a receipt passes exactly
if its two derivations, whatever they are, agree in the three. -/
theorem receipts_distinguish :
    (∀ (r r' : ByteRing) (moduleId moduleId' now now' : String) (t t' : Term)
        (first second first' second' : Except Error Derivation) (d d' : Derivation)
        (c c' : Receipt),
      r.receiptOf moduleId t now first second = .ok (d, c) →
      r'.receiptOf moduleId' t' now' first' second' = .ok (d', c') →
      (NoCollision 32 (inputOf (t.written r.quantum.width) r.quantum)
          (inputOf (t'.written r'.quantum.width) r'.quantum) →
        (c.inputHash = c'.inputHash ↔ r.quantum = r'.quantum ∧ t = t')) ∧
      (NoCollision 32 (outputOf d) (outputOf d') →
        (c.outputHash = c'.outputHash ↔ d.SameOutput d'))) ∧
    (∀ (q q' : Quantum) (verified verified' : Bool) (moduleId moduleId' now now' : String)
        (t t' : Term), t.vars = [] → t'.vars = [] →
      ∃ b b' d d' c c',
        evaluate { sound q with verified } t = .ok b ∧
        evaluate { sound q' with verified := verified' } t' = .ok b' ∧
        issueReceipt { sound q with verified } moduleId t now = .ok (d, c) ∧
        issueReceipt { sound q' with verified := verified' } moduleId' t' now' = .ok (d', c') ∧
        (d.SameOutput d' ↔ q = q' ∧ Bytes.toNat b = Bytes.toNat b') ∧
        (NoCollision 32 (outputOf d) (outputOf d') →
          (c.outputHash = c'.outputHash ↔ q = q' ∧ Bytes.toNat b = Bytes.toNat b'))) ∧
    ∀ (r : ByteRing) (moduleId : String) (t : Term) (now : String) (d e : Derivation),
      ∃ c, r.receiptOf moduleId t now (.ok d) (.ok e) = .ok (d, c) ∧
        (NoCollision 32 (outputOf d) (outputOf e) → (c.selfVerified = true ↔ d.SameOutput e)) := by
  refine ⟨?_, ?_, ?_⟩
  · intro r r' moduleId moduleId' now now' t t' first second first' second' d d' c c' h h'
    obtain ⟨hinput, houtput⟩ := digests_of_receiptOf h
    obtain ⟨hinput', houtput'⟩ := digests_of_receiptOf h'
    rw [hinput, hinput', houtput, houtput']
    exact ⟨digestOfInput_eq_iff, digestOfOutput_eq_iff⟩
  · intro q q' verified verified' moduleId moduleId' now now' t t' hground hground'
    obtain ⟨d, c, hc, h⟩ := exists_issueReceipt_of_ground q verified moduleId now hground
    obtain ⟨d', c', hc', h'⟩ := exists_issueReceipt_of_ground q' verified' moduleId' now' hground'
    have hsame := h.sameOutput_iff h' (t.length_value q _) (t'.length_value q' _)
    refine ⟨_, _, d, d', c, c', evaluate_of_ground verified (fun _ => 0) hground,
      evaluate_of_ground verified' (fun _ => 0) hground', hc, hc', hsame, ?_⟩
    intro hclear
    rw [(digests_of_receiptOf hc).2, (digests_of_receiptOf hc').2, digestOfOutput_eq_iff hclear,
      hsame]
  · intro r moduleId t now d e
    obtain ⟨c, hc, -, -, hverified⟩ := exists_receiptOf r moduleId t now d e
    refine ⟨c, hc, fun hclear => ?_⟩
    rw [hverified, decide_eq_true_iff, eq_comm, digestOfOutput_eq_iff hclear]

/-- An exclusive or and the constant of its value get receipts with different digests of what goes
in and the same digest of what comes out; two derivations that differ in their value are told
apart. -/
theorem receipts_distinguish_xor :
    let t : Term := .nary .xor [.const 0x55, .const 0xAA]
    t.vars = [] ∧ (Term.const 0xFF).vars = [] ∧
    ∃ d d' c c' c'', issueReceipt (sound ⟨0⟩) "m" t "0" = .ok (d, c) ∧
      issueReceipt (sound ⟨0⟩) "n" (.const 0xFF) "1" = .ok (d', c') ∧
      c.inputHash ≠ c'.inputHash ∧ c.outputHash = c'.outputHash ∧
      let e : Derivation := { d with id := "", resultValue := 0, resultIri := "" }
      receiptOf (sound ⟨0⟩) "m" t "0" (.ok e) (.ok { e with resultValue := 1 }) = .ok (e, c'') ∧
        c''.selfVerified = false := by
  intro t
  have hground : t.vars = [] := rfl
  have hground' : (Term.const 0xFF).vars = [] := rfl
  obtain ⟨hreceipts, hsound, hunstable⟩ := receipts_distinguish
  obtain ⟨b, b', d, d', c, c', hb, hb', hc, hc', hsame, -⟩ :=
    hsound ⟨0⟩ ⟨0⟩ false false "m" "n" "0" "1" t (.const 0xFF) hground hground'
  obtain rfl : [255] = b := Except.ok.inj hb
  obtain rfl : [255] = b' := Except.ok.inj hb'
  have hboth : d.SameOutput d' := hsame.2 ⟨rfl, rfl⟩
  have hobject : outputOf d = outputOf d' := by
    rw [outputOf, outputOf, hboth.1, hboth.2.1, hboth.2.2]
  obtain ⟨hinput, houtput⟩ := hreceipts _ _ _ _ _ _ _ _ _ _ _ _ _ _ _ _ hc hc'
  have hclear : NoCollision 32 (inputOf (t.written 1) ⟨0⟩)
      (inputOf ((Term.const 0xFF).written 1) ⟨0⟩) := by
    rw [NoCollision, abridged, abridged, ofJson, ofJson, Json.canonical, Json.canonical,
      canonicalChars_inputOf, canonicalChars_inputOf]
    exact fun h => absurd h (by decide +kernel)
  let e : Derivation := { d with id := "", resultValue := 0, resultIri := "" }
  obtain ⟨c'', hc'', hverified⟩ :=
    hunstable (sound ⟨0⟩) "m" t "0" e { e with resultValue := 1 }
  have hclear' : NoCollision 32 (outputOf e) (outputOf { e with resultValue := 1 }) := by
    rw [NoCollision, abridged, abridged, ofJson, ofJson, Json.canonical, Json.canonical,
      canonicalChars_outputOf, canonicalChars_outputOf]
    dsimp only [e]
    exact fun h => absurd h (by decide +kernel)
  refine ⟨hground, hground', d, d', c, c', c'', hc, hc', ?_, ?_, hc'', ?_⟩
  · rw [Ne, hinput hclear]
    intro hterm
    exact absurd hterm.2 (by simp [t])
  · exact (houtput fun _ => by rw [hobject]).2 hboth
  · rw [← Bool.not_eq_true, hverified hclear']
    exact fun h => absurd h.2.1 (by decide : (0 : Int) ≠ 1)

end ByteRing

end WordRing
