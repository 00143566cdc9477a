import WordRing.Proofs.Alike
import WordRing.Proofs.Receipt
import WordRing.Proofs.Unbound

/-!
# What the identifier of a receipt shows

The identifier of a receipt is made from a text with the module, the term in writing and the time.
Between the same module and the same time the text shows the term, but the quantum level only as
far as the term's constants are padded for it. The digests are made from objects that hold the
level, so they tell apart what the text does not.
-/
namespace WordRing

namespace Receipt

theorem toList_preimage (moduleId operation timestamp : String) :
    (preimage moduleId operation timestamp).toList =
      moduleId.toList ++ ':' :: (operation.toList ++ ':' :: timestamp.toList) := by
  have hpreimage : preimage moduleId operation timestamp =
      moduleId ++ ":" ++ operation ++ ":" ++ timestamp := rfl
  simp [hpreimage]

theorem preimage_eq_iff {moduleId operation operation' timestamp : String} :
    preimage moduleId operation timestamp = preimage moduleId operation' timestamp ↔
      operation = operation' := by
  rw [← String.toList_inj, toList_preimage, toList_preimage, List.append_cancel_left_eq,
    List.cons.injEq, List.append_cancel_right_eq, String.toList_inj]
  simp

end Receipt

namespace ByteRing
open ContentId Receipt
variable {q q' : Quantum} {verified verified' : Bool} {t : Term} {d d' : Derivation}
  {now now' : String}

/-- Derivations of one term in sound rings agree exactly if they are made at one level. -/
theorem sameOutput_iff_of_derive (h : derive { sound q with verified } t now = .ok d)
    (h' : derive { sound q' with verified := verified' } t now' = .ok d') :
    d.SameOutput d' ↔ q = q' := by
  have hrecords := records_value_of_derive (fun _ => 0) h
  have hrecords' := records_value_of_derive (fun _ => 0) h'
  constructor
  · intro hsame
    exact ((hrecords.resultIri_eq_iff hrecords' (t.length_value q _) (t.length_value q' _)).1
      hsame.2.2).1
  · rintro rfl
    obtain ⟨-, hvalue, hiri, hid⟩ := hrecords.agree hrecords'
    exact ⟨hid, hvalue, hiri⟩

/-- A term that is derived gets a receipt, with a second derivation at any time. It is named after
the term in writing and digests the derivation. -/
theorem exists_receiptOf_named (h : derive { sound q with verified } t now = .ok d)
    (moduleId now' second : String) :
    let r : ByteRing := { sound q with verified }
    ∃ c, r.receiptOf moduleId t now' (r.derive t now) (r.derive t second) = .ok (d, c) ∧
      c.operation = t.written q.width ∧ c.id = idFor moduleId c.operation now' ∧
      c.inputHash = digestOfInput (t.written q.width) q ∧ c.outputHash = digestOfOutput d := by
  intro r
  obtain ⟨b, hword, -⟩ := records_of_derive h
  obtain ⟨e, he, -⟩ := exists_derive_of_ok hword second
  obtain ⟨c, hc⟩ := exists_receiptOf_of_derive h he moduleId now'
  obtain ⟨hoperation, hid⟩ := id_of_receiptOf hc
  obtain ⟨hinput, houtput⟩ := digests_of_receiptOf hc
  exact ⟨c, hc, hoperation, hid, hinput, houtput⟩

/-- **The identifier of a receipt shows the term, and the level as far as constants are padded.**
In sound rings every term that is derived gets a receipt. The texts that the identifiers of two
receipts for one module and time are made from are equal exactly if the terms are the same and
either the levels are or every constant of the term has as many digits of its own as the wider ring
pads to. Then the receipts note the same operation; at one level they have the same digests as
well, and at two levels neither digest is the same where the characters that are kept do not
confuse the objects at hand. -/
theorem preimage_eq_iff_of_derive (q q' : Quantum) (verified verified' : Bool)
    (moduleId now first first' second second' : String) (t t' : Term) (d d' : Derivation) :
    let r : ByteRing := { sound q with verified }
    let r' : ByteRing := { sound q' with verified := verified' }
    r.derive t first = .ok d → r'.derive t' first' = .ok d' →
    ∃ c c',
      r.receiptOf moduleId t now (r.derive t first) (r.derive t second) = .ok (d, c) ∧
      r'.receiptOf moduleId t' now (r'.derive t' first') (r'.derive t' second') = .ok (d', c') ∧
      let text := preimage moduleId c.operation now
      let text' := preimage moduleId c'.operation now
      c.id = urn ++ String.ofList ((ContentId.ofText text).take 24) ∧
      c'.id = urn ++ String.ofList ((ContentId.ofText text').take 24) ∧
      (text = text' ↔ t = t' ∧ (q = q' ∨
        ∀ n ∈ t.constants, 2 * max q.width q'.width ≤ Digits.count 16 n.natAbs)) ∧
      (text = text' →
        c.operation = c'.operation ∧
        (q = q' → c.inputHash = c'.inputHash ∧ c.outputHash = c'.outputHash) ∧
        (NoCollision 32 (inputOf c.operation q) (inputOf c'.operation q') →
          c.inputHash = c'.inputHash → q = q') ∧
        (NoCollision 32 (outputOf d) (outputOf d') → c.outputHash = c'.outputHash → q = q')) := by
  intro r r' h h'
  obtain ⟨c, hc, hoperation, hid, hinput, houtput⟩ :=
    exists_receiptOf_named h moduleId now second
  obtain ⟨c', hc', hoperation', hid', hinput', houtput'⟩ :=
    exists_receiptOf_named h' moduleId now second'
  have hwidth : q.width = q'.width ↔ q = q' := by
    cases q
    cases q'
    simp [Quantum.width]
  have htext : c.operation = c'.operation ↔ t = t' ∧ (q = q' ∨
      ∀ n ∈ t.constants, 2 * max q.width q'.width ≤ Digits.count 16 n.natAbs) := by
    rw [hoperation, hoperation', Term.written, Term.written, String.ofList_inj,
      Term.text_eq_text_iff, hwidth]
  refine ⟨c, c', hc, hc', hid, hid', preimage_eq_iff.trans htext, fun heq => ?_⟩
  have hsame : c.operation = c'.operation := preimage_eq_iff.1 heq
  obtain ⟨rfl, -⟩ := htext.1 hsame
  have hlevel := sameOutput_iff_of_derive h h'
  refine ⟨hsame, ?_, ?_, ?_⟩
  · rintro rfl
    obtain ⟨hname, hvalue, hiri⟩ := hlevel.2 rfl
    refine ⟨hinput.trans hinput'.symm, ?_⟩
    rw [houtput, houtput', digestOfOutput, digestOfOutput, outputOf, outputOf, hname, hvalue, hiri]
  · intro hclear heq
    rw [hoperation, hoperation'] at hclear
    rw [hinput, hinput', digestOfInput_eq_iff hclear] at heq
    exact heq.1
  · intro hclear heq
    rwa [houtput, houtput', digestOfOutput_eq_iff hclear, hlevel] at heq

/-- The constant `0x55` is padded at two bytes, so its receipts at one byte and at two are made from
different texts; a constant of four digits is not, and neither is the empty conjunction. -/
theorem preimage_eq_iff_of_derive_padded :
    let padded : Term := .const 0x55
    let long : Term := .nary .xor [.const 0x1000, .nary .and []]
    ∃ d d' e e' c c' f f',
      (sound ⟨0⟩).derive padded "" = .ok d ∧ (sound ⟨1⟩).derive padded "" = .ok d' ∧
      (sound ⟨0⟩).derive long "" = .ok e ∧ (sound ⟨1⟩).derive long "" = .ok e' ∧
      issueReceipt (sound ⟨0⟩) "m" padded "" = .ok (d, c) ∧
      issueReceipt (sound ⟨1⟩) "m" padded "" = .ok (d', c') ∧
      preimage "m" c.operation "" ≠ preimage "m" c'.operation "" ∧
      issueReceipt (sound ⟨0⟩) "m" long "" = .ok (e, f) ∧
      issueReceipt (sound ⟨1⟩) "m" long "" = .ok (e', f') ∧
      preimage "m" f.operation "" = preimage "m" f'.operation "" := by
  intro padded long
  obtain ⟨d, hd, -⟩ := exists_derive_of_ground ⟨0⟩ false "" (t := padded) rfl
  obtain ⟨d', hd', -⟩ := exists_derive_of_ground ⟨1⟩ false "" (t := padded) rfl
  obtain ⟨e, he, -⟩ := exists_derive_of_ground ⟨0⟩ false "" (t := long) rfl
  obtain ⟨e', he', -⟩ := exists_derive_of_ground ⟨1⟩ false "" (t := long) rfl
  obtain ⟨c, c', hc, hc', -, -, hpadded, -⟩ := preimage_eq_iff_of_derive ⟨0⟩ ⟨1⟩ false false "m" ""
    "" "" "" "" padded padded d d' hd hd'
  obtain ⟨f, f', hf, hf', -, -, hlong, -⟩ := preimage_eq_iff_of_derive ⟨0⟩ ⟨1⟩ false false "m" ""
    "" "" "" "" long long e e' he he'
  refine ⟨d, d', e, e', c, c', f, f', hd, hd', he, he', hc, hc', ?_, hf, hf', ?_⟩
  · rw [Ne, hpadded]
    decide
  · rw [hlong]
    decide

/-- The constant `0x1000` is written alike at one byte and at two, so its two receipts for one
module and time have one identifier; the digests of what goes in tell them apart. -/
theorem not_level_of_preimage :
    ∃ d d' c c', issueReceipt (sound ⟨0⟩) "m" (.const 0x1000) "" = .ok (d, c) ∧
      issueReceipt (sound ⟨1⟩) "m" (.const 0x1000) "" = .ok (d', c') ∧
      preimage "m" c.operation "" = preimage "m" c'.operation "" ∧ c.id = c'.id ∧
      (⟨0⟩ : Quantum) ≠ ⟨1⟩ ∧ c.inputHash ≠ c'.inputHash := by
  obtain ⟨d, hd, -⟩ := exists_derive_of_ground ⟨0⟩ false "" (t := .const 0x1000) rfl
  obtain ⟨d', hd', -⟩ := exists_derive_of_ground ⟨1⟩ false "" (t := .const 0x1000) rfl
  obtain ⟨c, hc, hoperation, hid, hinput, -⟩ := exists_receiptOf_named hd "m" "" ""
  obtain ⟨c', hc', hoperation', hid', hinput', -⟩ := exists_receiptOf_named hd' "m" "" ""
  have hwritten : (Term.const 0x1000).written (⟨0⟩ : Quantum).width =
      (Term.const 0x1000).written (⟨1⟩ : Quantum).width := by
    rw [Term.written, Term.written, String.ofList_inj]
    decide
  have hsame : c.operation = c'.operation := by rw [hoperation, hoperation', hwritten]
  refine ⟨d, d', c, c', hc, hc', by rw [hsame], by rw [hid, hid', hsame], by decide, ?_⟩
  rw [hinput, hinput', digestOfInput, digestOfInput, abridged, abridged, ofJson, ofJson,
    Json.canonical, Json.canonical, canonicalChars_inputOf, canonicalChars_inputOf]
  decide +kernel

end ByteRing

end WordRing
