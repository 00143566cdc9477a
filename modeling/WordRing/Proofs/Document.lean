import WordRing.CommandLine.Commands
import WordRing.Proofs.Printed
import WordRing.Proofs.Written

/-!
# Records as JSON documents

A record is determined by its JSON object, in which no key stands twice, so that the indented text
of a record is read back as the object and shows all of the record. A line with such a text stays
as it is when it is printed, and the reader takes what is printed for the object that was meant.
-/
namespace WordRing

/-! ## Metrics -/

namespace Json

theorem nat_inj {m n : Nat} : nat m = nat n ↔ m = n := by
  rw [nat, nat, int.injEq, Int.ofNat_inj]

theorem strs_inj {texts texts' : List String} : strs texts = strs texts' ↔ texts = texts' := by
  rw [strs, strs, arr.injEq, List.map_inj_right fun _ _ => str.inj]

end Json

theorem Grade.letter_inj {g g' : Grade} : g.letter = g'.letter ↔ g = g' := by
  cases g <;> cases g' <;> decide

theorem TermMetrics.toJson_inj {m m' : TermMetrics} : m.toJson = m'.toJson ↔ m = m' := by
  refine ⟨fun h => ?_, congrArg toJson⟩
  obtain ⟨depth, nodeCount, opCounts⟩ := m
  obtain ⟨depth', nodeCount', opCounts'⟩ := m'
  have hcounts (p p' : Operator × Nat)
      (h : (p.1.name, Json.nat p.2) = (p'.1.name, Json.nat p'.2)) : p = p' := by
    obtain ⟨hname, hcount⟩ := Prod.mk.inj h
    exact Prod.ext (Operator.name_inj.1 hname) (Json.nat_inj.1 hcount)
  simpa [toJson, Json.nat_inj, List.map_inj_right hcounts] using h

theorem Reduction.toJson_inj {m m' : Reduction} : m.toJson = m'.toJson ↔ m = m' := by
  refine ⟨fun h => ?_, congrArg toJson⟩
  obtain ⟨before, after⟩ := m
  obtain ⟨before', after'⟩ := m'
  simp only [toJson, Json.obj.injEq, List.cons.injEq, Prod.mk.injEq, Json.nat_inj, true_and] at h
  rw [h.1, h.2.1]

/-- A term counts each operator once. -/
theorem Term.keysDistinct_metrics (t : Term) : t.metrics.toJson.KeysDistinct := by
  have hnames : (Operator.all.map Operator.name).Nodup := by decide
  have hcounts : (t.metrics.opCounts.map fun p => p.1.name).Nodup := by
    refine hnames.sublist ?_
    have hall : Operator.all.map Operator.name =
        (Operator.all.map fun o => (o, t.occurrences o)).map fun p => p.1.name := by
      rw [List.map_map]
      rfl
    rw [hall]
    exact List.filter_sublist.map _
  have hvalues : ∀ m ∈ t.metrics.opCounts.map fun p => (p.1.name, Json.nat p.2),
      m.2.KeysDistinct := by
    intro m hm
    obtain ⟨p, -, rfl⟩ := List.mem_map.1 hm
    exact Json.keysDistinct_nat p.2
  simpa [TermMetrics.toJson, Function.comp_def] using And.intro hcounts hvalues

/-! ## Records -/

/-- A derivation is determined by its object. -/
theorem Derivation.toJson_inj {d e : Derivation} : d.toJson = e.toJson ↔ d = e := by
  refine ⟨fun h => ?_, congrArg toJson⟩
  obtain ⟨id, givenTerm, canonicalTerm, resultValue, resultIri, ⟨level⟩, grade, timestamp,
    reduction, metrics⟩ := d
  obtain ⟨id', givenTerm', canonicalTerm', resultValue', resultIri', ⟨level'⟩, grade', timestamp',
    reduction', metrics'⟩ := e
  simp only [toJson, Json.obj.injEq, List.cons.injEq, Prod.mk.injEq, Json.nat_inj, Json.str.injEq,
    Json.int.injEq, Grade.letter_inj, Reduction.toJson_inj, TermMetrics.toJson_inj, true_and,
    and_true] at h
  obtain ⟨rfl, rfl, rfl, rfl, rfl, rfl, rfl, rfl, rfl, rfl⟩ := h
  rfl

theorem Certificate.toJson_inj {c c' : Certificate} : c.toJson = c'.toJson ↔ c = c' := by
  refine ⟨fun h => ?_, congrArg toJson⟩
  obtain ⟨id, certifiedIri, derivationId, valid, issuedAt, chain⟩ := c
  obtain ⟨id', certifiedIri', derivationId', valid', issuedAt', chain'⟩ := c'
  simp only [toJson, Json.obj.injEq, List.cons.injEq, Prod.mk.injEq, Json.bool.injEq,
    Json.str.injEq, Json.strs_inj, true_and, and_true] at h
  obtain ⟨rfl, rfl, rfl, rfl, rfl, rfl⟩ := h
  rfl

theorem Receipt.toJson_inj {c c' : Receipt} : c.toJson = c'.toJson ↔ c = c' := by
  refine ⟨fun h => ?_, congrArg toJson⟩
  obtain ⟨id, moduleId, operation, inputHash, outputHash, recomputeHash, selfVerified,
    coherenceVerified, timestamp⟩ := c
  obtain ⟨id', moduleId', operation', inputHash', outputHash', recomputeHash', selfVerified',
    coherenceVerified', timestamp'⟩ := c'
  simp only [toJson, Json.obj.injEq, List.cons.injEq, Prod.mk.injEq, Json.bool.injEq,
    Json.str.injEq, true_and, and_true] at h
  obtain ⟨rfl, rfl, rfl, rfl, rfl, rfl, rfl, rfl, rfl⟩ := h
  rfl

theorem Reduction.keysDistinct_toJson (m : Reduction) : m.toJson.KeysDistinct := by
  simp [toJson]

theorem Derivation.keysDistinct_toJson {d : Derivation} (h : d.metrics.toJson.KeysDistinct) :
    d.toJson.KeysDistinct := by
  simp [toJson, h, Reduction.keysDistinct_toJson]

theorem Certificate.keysDistinct_toJson (c : Certificate) : c.toJson.KeysDistinct := by
  simp [toJson]

theorem Receipt.keysDistinct_toJson (c : Receipt) : c.toJson.KeysDistinct := by
  simp [toJson]

theorem CoherenceReport.keysDistinct_toJson (report : CoherenceReport) :
    report.toJson.KeysDistinct := by
  simp [toJson]

/-- The object of a report says whether the ring passed, and what was counted and failed. -/
theorem CoherenceReport.member?_toJson (report : CoherenceReport) :
    report.toJson.member? "verified" = some (.bool report.verified) ∧
      report.toJson.member? "totalChecks" = some (.nat report.totalChecks) ∧
      report.toJson.member? "failures" = some (.strs report.failures) := by
  simp [toJson, Json.member?, Json.lookup]

theorem ByteRing.keysDistinct_of_derive {r : ByteRing} {t : Term} {now : String} {d : Derivation}
    (h : r.derive t now = .ok d) : d.toJson.KeysDistinct := by
  cases hword : r.evaluate (t.canonical r.quantum) with
  | error e => simp [derive, hword, bind, Except.bind] at h
  | ok b =>
    simp only [derive, hword, bind, Except.bind, pure, Except.pure, Except.ok.injEq] at h
    exact Derivation.keysDistinct_toJson (h ▸ t.keysDistinct_metrics)

/-! ## Printed lines -/

namespace CommandLine

theorem Outcome.plainText_singleton (line : String) :
    plainText [line] = Styling.strip line ++ "\n" := by
  simp [plainText, text, String.join]

theorem parse?_plainText_layout {d : Json} {write : String → List Char}
    (hread : Json.Readable write) (hprint : ∀ s, ∀ c ∈ write s, Json.IsPrinted c)
    (hd : d.KeysDistinct) :
    Json.parse? (Outcome.plainText [String.ofList (Json.layout write 0 d)]) = some d := by
  have hbreak : String.ofList (Json.layout write 0 d) ++ "\n" =
      String.ofList (Json.layout write 0 d ++ ['\n']) := String.ofList_append.symm
  rw [Outcome.plainText_singleton, Json.strip_ofList_layout hprint hd, hbreak]
  exact Json.parse?_layout hread hd (by simp) rfl

/-- **A document that is printed is read as the object that was meant**, and so is one in ASCII. -/
theorem parse?_plainText_indented {d : Json} (hd : d.KeysDistinct) :
    Json.parse? (Outcome.plainText [d.indented]) = some d :=
  parse?_plainText_layout Json.readable_escape
    (Json.isPrinted_of_mem_flatMap Json.isPrinted_of_mem_escapeChar) hd

theorem parse?_plainText_indentedAscii {d : Json} (hd : d.KeysDistinct) :
    Json.parse? (Outcome.plainText [d.indentedAscii]) = some d :=
  parse?_plainText_layout Json.readable_escapeAscii
    (Json.isPrinted_of_mem_flatMap Json.isPrinted_of_mem_escapeCharAscii) hd

/-! ## Reports -/

/-- **What `verify` prints as JSON is the report of its check**, in either mode and on any ring; its
member `verified` says what the status says. -/
theorem exists_report_of_verify {setting : Setting} {v : Values} (hjson : v.flag "AS_JSON" = true)
    (houtput : (verify setting v).output ≠ []) :
    ∃ r report, ringOf setting v = .ok r ∧
      r.check (if v.flag "ABORT" then .abort else .collect) setting.now = .ok report ∧
      Json.parse? (Outcome.plainText (verify setting v).output) = some report.toJson ∧
      report.toJson.member? "verified" = some (.bool ((verify setting v).status = 0)) := by
  cases hring : ringOf setting v with
  | error e => simp [verify, hring, Outcome.misuse] at houtput
  | ok r =>
    cases hcheck : r.check (if v.flag "ABORT" then .abort else .collect) setting.now with
    | error e => cases e <;> simp [verify, hring, hcheck, Outcome.stopped] at houtput
    | ok report =>
      have hverify : verify setting v = printReport true report := by
        simp only [verify, hring, hcheck, hjson]
      have hstatus : decide ((printReport true report).status = 0) = report.verified := by
        cases hverified : report.verified <;> simp [printReport, hverified]
      refine ⟨r, report, rfl, hcheck, ?_, ?_⟩
      · rw [hverify]
        exact parse?_plainText_indentedAscii report.keysDistinct_toJson
      · rw [hverify, report.member?_toJson.1, hstatus]

end CommandLine

end WordRing
