import WordRing.Proofs.Alike
import WordRing.Proofs.CommandLine
import WordRing.Proofs.Coherence.Check
import WordRing.Proofs.Document
import WordRing.Proofs.Numeral
import WordRing.Proofs.Unbound

/-!
# How deriving from the command line ends

A command line for `derive` asks for a term at a level and perhaps for a certificate and a receipt.
Its words are read as such a request or the run is over before anything is derived. The term is
read first, then the ring is made and checked, which a sound ring passes at every level, and then
the records are made. So there are three ways to end: the request is refused, a variable is left in
the canonical form, or everything that was asked for is printed. Once there is a derivation nothing
can fail any more, as a certificate and the second derivation of a receipt evaluate the same
canonical form again. What is printed is read back as a document that shows the records.

## Main definitions

* `DeriveRequest` — what a command line asks `derive` for.
* `DeriveRequest.IsMadeBy i setting words` — the words are read as this request.
* `DeriveRequest.words i` — a request in words.
* `Writes text t`, `Refused text` — the text is JSON for a term, or for none.
* `IsAnswer i now t d certificate receipt` — these records are what a request asks for.
* `document d certificate receipt` — the records as one object.
* `Shows doc i d certificate receipt` — what the members of a document say of the records.
-/
namespace WordRing.CommandLine

/-! ## Requests -/

/-- What a command line asks `derive` for. -/
structure DeriveRequest where
  quantum : Int
  /-- The term as a JSON text. -/
  term : String
  certify : Bool
  /-- The module that a receipt is for, if there is to be one. -/
  moduleId : Option String

namespace DeriveRequest
variable {setting : Setting} {i : DeriveRequest}

/-- The request that the values of the parameters make. -/
def ofValues (v : Values) : DeriveRequest :=
  ⟨v.integer "QUANTUM", v.argument.getD "", v.flag "CERTIFY", v.text "MODULE_ID"⟩

/-- The words of a command line are read as this request. -/
def IsMadeBy (i : DeriveRequest) (setting : Setting) (words : List String) : Prop :=
  ∃ rest v, readProgram setting words = .ok (.inr (deriveCommand.name :: rest)) ∧
    deriveCommand.bind setting.environment rest = .ok (.inr v) ∧ ofValues v = i

/-- A request in words, with every parameter given on the command line. -/
def words (i : DeriveRequest) : List String :=
  ["-q", String.ofList (Digits.signedDecimal i.quantum)] ++
    (if i.certify then ["--certify"] else []) ++
    (i.moduleId.toList.flatMap fun m => ["--receipt", m]) ++ ["--", i.term]

/-- The options among the words of a request. -/
def given (i : DeriveRequest) : List Given :=
  [⟨quantumOption, some (String.ofList (Digits.signedDecimal i.quantum))⟩] ++
    (if i.certify then [⟨certifyOption, none⟩] else []) ++
    i.moduleId.toList.map fun m => ⟨receiptOption, some m⟩

/-! ## Requests in words -/

theorem scan_words (i : DeriveRequest) :
    scan deriveCommand.allOptions true i.words = .ok (i.given, [i.term]) := by
  obtain ⟨quantum, term, certify, moduleId⟩ := i
  cases certify <;> cases moduleId <;>
    simp only [words, given, Option.toList, List.flatMap_cons, List.flatMap_nil, List.cons_append,
      List.nil_append, List.append_nil, if_true, if_false, Bool.false_eq_true, scan] <;> rfl

theorem valueOf_quantum (environment : List (String × String)) (i : DeriveRequest) :
    deriveCommand.valueOf environment i.given quantumOption =
      .ok ("QUANTUM", .integer i.quantum) := by
  have hlast : (i.given.filter fun g => g.option = quantumOption).getLast? =
      some ⟨quantumOption, some (String.ofList (Digits.signedDecimal i.quantum))⟩ := by
    obtain ⟨quantum, term, certify, moduleId⟩ := i
    cases certify <;> cases moduleId <;> rfl
  have hconvert : quantumOption.convert (String.ofList (Digits.signedDecimal i.quantum)) =
      .ok (.integer i.quantum) := by
    simp only [OptionSpec.convert, quantumOption, Numeral.parse?_signedDecimal]
  simp only [Command.valueOf, hlast, hconvert]
  rfl

theorem valueOf_certify {environment : List (String × String)}
    (hvariable : certifyOption.fromEnvironment deriveCommand.environment environment = none)
    (i : DeriveRequest) :
    deriveCommand.valueOf environment i.given certifyOption =
      .ok ("CERTIFY", .flag i.certify) := by
  obtain ⟨quantum, term, certify, moduleId⟩ := i
  cases certify with
  | false =>
    refine Command.valueOf_absent ?_ hvariable
    cases moduleId <;> simp [given, certifyOption, quantumOption, receiptOption]
  | true => cases moduleId <;> rfl

theorem valueOf_receipt {environment : List (String × String)}
    (hvariable : receiptOption.fromEnvironment deriveCommand.environment environment = none)
    (i : DeriveRequest) :
    deriveCommand.valueOf environment i.given receiptOption =
      .ok ("MODULE_ID", .text i.moduleId) := by
  obtain ⟨quantum, term, certify, moduleId⟩ := i
  cases moduleId with
  | none =>
    refine Command.valueOf_absent ?_ hvariable
    cases certify <;> simp [given, certifyOption, quantumOption, receiptOption]
  | some m => cases certify <;> rfl

/-- The level is converted first, and of the others those that are given before the rest. -/
theorem converted_given (i : DeriveRequest) :
    deriveCommand.converted i.given = [quantumOption, certifyOption, receiptOption] ∨
      deriveCommand.converted i.given = [quantumOption, receiptOption, certifyOption] := by
  obtain ⟨quantum, term, certify, moduleId⟩ := i
  cases certify <;> cases moduleId
  case false.some => exact .inr rfl
  all_goals exact .inl rfl

theorem exists_values_given {environment : List (String × String)}
    (hvariable : ∀ o : OptionSpec, o.fromEnvironment deriveCommand.environment environment = none)
    (i : DeriveRequest) :
    ∃ v, deriveCommand.values environment i.given [i.term] = .ok v ∧ ofValues v = i := by
  have hquantum := valueOf_quantum environment i
  have hcertify := valueOf_certify (hvariable _) i
  have hreceipt := valueOf_receipt (hvariable _) i
  have hargument : deriveCommand.argument? [i.term] = some (some i.term) := rfl
  rcases converted_given i with hconverted | hconverted
  · refine ⟨⟨[("QUANTUM", .integer i.quantum), ("CERTIFY", .flag i.certify),
      ("MODULE_ID", .text i.moduleId)], some i.term⟩, ?_, rfl⟩
    rw [Command.values_eq_ok_iff, hconverted]
    simp only [List.mapM_cons, List.mapM_nil, hquantum, hcertify, hreceipt]
    exact ⟨rfl, hargument⟩
  · refine ⟨⟨[("QUANTUM", .integer i.quantum), ("MODULE_ID", .text i.moduleId),
      ("CERTIFY", .flag i.certify)], some i.term⟩, ?_, rfl⟩
    rw [Command.values_eq_ok_iff, hconverted]
    simp only [List.mapM_cons, List.mapM_nil, hquantum, hcertify, hreceipt]
    exact ⟨rfl, hargument⟩

/-- Every request can be made on the command line, whatever its term and its module are. -/
theorem isMadeBy_words (h : Unset setting.environment) (i : DeriveRequest) :
    i.IsMadeBy setting (deriveCommand.name :: i.words) := by
  have hprogram (o : OptionSpec) :
      o.fromEnvironment program.environment setting.environment = none :=
    h.fromEnvironment_eq_none (by decide) o
  have hvariable (o : OptionSpec) :
      o.fromEnvironment deriveCommand.environment setting.environment = none :=
    h.fromEnvironment_eq_none (by decide) o
  have hname : readProgram setting (deriveCommand.name :: i.words) =
      .ok (.inr (deriveCommand.name :: i.words)) := by
    rw [readProgram_cons (by decide), Command.requested_eq_none (by simp) hprogram]
    have hverbose : program.valueOf setting.environment [] verboseOption =
        .ok (verboseOption.parameter, verboseOption.absent) :=
      Command.valueOf_absent (by simp) (hprogram _)
    simp only [Bind.bind, Except.bind, hverbose]
    rfl
  have hrequest : deriveCommand.requested setting.environment i.given = .ok none := by
    refine Command.requested_eq_none ?_ hvariable
    obtain ⟨quantum, term, certify, moduleId⟩ := i
    cases certify <;> cases moduleId <;>
      simp [given, quantumOption, certifyOption, receiptOption, OptionSpec.isRequest]
  obtain ⟨v, hv, hvalues⟩ := exists_values_given hvariable i
  refine ⟨i.words, v, hname, ?_, hvalues⟩
  simp only [Command.bind, scan_words, Bind.bind, Except.bind, hrequest, hv]
  rfl

/-- A request is run on the values that it is read from. -/
theorem run_of_isMadeBy {words : List String} (h : i.IsMadeBy setting words) :
    ∃ v, ofValues v = i ∧ run setting words = derive setting v := by
  obtain ⟨rest, v, hname, hbind, hvalues⟩ := h
  have hne : words.isEmpty = false := by simpa using ne_nil_of_readProgram hname
  refine ⟨v, hvalues, ?_⟩
  have hfind : commands.find? (fun command => command.name = deriveCommand.name) =
      some deriveCommand := by decide
  simp only [run, hne, Bool.false_eq_true, if_false, hname, hfind, runCommand, hbind]
  rfl

end DeriveRequest

/-! ## Reading the term -/

section Term
variable {text : String} {t t' : Term} {n : Int}

/-- The text is JSON for a term. -/
def Writes (text : String) (t : Term) : Prop :=
  ∃ d, Json.parse? text = some d ∧ Term.ofStructure d = .ok t

/-- The text is no JSON, or JSON that is refused as a term. -/
def Refused (text : String) : Prop :=
  Json.parse? text = none ∨
    ∃ d e, Json.parse? text = some d ∧ Term.ofStructure d = .error e

theorem termOfText_eq_ok_iff : termOfText text = .ok t ↔ Writes text t := by
  rw [termOfText, Writes]
  cases Json.parse? text with
  | none => simp
  | some d => cases hterm : Term.ofStructure d <;> simp [hterm]

theorem exists_termOfText_eq_error_iff : (∃ e, termOfText text = .error e) ↔ Refused text := by
  rw [termOfText, Refused]
  cases Json.parse? text with
  | none => simp
  | some d => cases hterm : Term.ofStructure d <;> simp [hterm]

theorem not_refused_iff : ¬ Refused text ↔ ∃ t, Writes text t := by
  simp only [← exists_termOfText_eq_error_iff, ← termOfText_eq_ok_iff]
  cases termOfText text <;> simp

theorem Writes.unique (h : Writes text t) (h' : Writes text t') : t = t' :=
  Except.ok.inj ((termOfText_eq_ok_iff.2 h).symm.trans (termOfText_eq_ok_iff.2 h'))

theorem not_exists_writes (h : Refused text ∨ n < 0) (P : Term → Prop) :
    ¬ ∃ t, Writes text t ∧ 0 ≤ n ∧ P t := by
  rintro ⟨t, hwrites, hlevel, -⟩
  exact h.elim (not_refused_iff.2 ⟨t, hwrites⟩) (Int.not_lt.2 hlevel)

/-- What is said of a term that is written is said of the only one. -/
theorem Writes.exists_iff (h : Writes text t) (hlevel : 0 ≤ n) (P : Term → Prop) :
    (∃ t, Writes text t ∧ 0 ≤ n ∧ P t) ↔ P t := by
  constructor
  · rintro ⟨t', hwrites, -, hP⟩
    rwa [h.unique hwrites]
  · exact fun hP => ⟨t, h, hlevel, hP⟩

end Term

/-! ## The ring -/

section Ring
variable {v : Values}

theorem verifiedRing_of_neg (setting : Setting) (h : v.integer "QUANTUM" < 0) :
    ∃ e, verifiedRing setting v = .error (.misuse e) := by
  refine ⟨.refused "--quantum" (Error.quantumNegative (v.integer "QUANTUM")).message, ?_⟩
  simp only [verifiedRing, ringOf, Quantum.ofInt, if_pos h]

theorem verifiedRing_of_sound (environment : List (String × String)) (now : String)
    (h : 0 ≤ v.integer "QUANTUM") :
    verifiedRing ⟨environment, ByteRing.sound, now⟩ v =
      .ok { ByteRing.sound ⟨(v.integer "QUANTUM").toNat⟩ with verified := true } := by
  obtain ⟨report, hverify, hverified⟩ := ByteRing.verify_sound ⟨(v.integer "QUANTUM").toNat⟩ now
  simp only [verifiedRing, ringOf, Quantum.ofInt, if_neg (Int.not_lt.2 h), hverify, hverified,
    if_true]

end Ring

/-! ## The records -/

section Records
variable {setting : Setting} {v : Values} {r : ByteRing} {t : Term} {d : Derivation} {e : Error}

/-- A derivation with the other records that were asked for, as an object. -/
def document (d : Derivation) (certificate : Option Certificate) (receipt : Option Receipt) :
    Json :=
  .obj (("derivation", d.toJson) ::
    ((certificate.toList.map fun c => ("certificate", c.toJson)) ++
      receipt.toList.map fun c => ("receipt", c.toJson)))

section Document
variable {certificate : Option Certificate} {receipt : Option Receipt}

theorem member?_document_derivation :
    (document d certificate receipt).member? "derivation" = some d.toJson :=
  Json.lookup_cons_self ..

theorem member?_document_certificate :
    (document d certificate receipt).member? "certificate" =
      certificate.map Certificate.toJson := by
  cases certificate <;> cases receipt <;> simp [document, Json.member?, Json.lookup]

theorem member?_document_receipt :
    (document d certificate receipt).member? "receipt" = receipt.map Receipt.toJson := by
  cases certificate <;> cases receipt <;> simp [document, Json.member?, Json.lookup]

/-- A document determines the records in it. -/
theorem document_inj {d' : Derivation} {certificate' : Option Certificate}
    {receipt' : Option Receipt}
    (h : document d certificate receipt = document d' certificate' receipt') :
    d = d' ∧ certificate = certificate' ∧ receipt = receipt' := by
  have hderivation := congrArg (Json.member? "derivation") h
  have hcertificate := congrArg (Json.member? "certificate") h
  have hreceipt := congrArg (Json.member? "receipt") h
  rw [member?_document_derivation, member?_document_derivation] at hderivation
  rw [member?_document_certificate, member?_document_certificate] at hcertificate
  rw [member?_document_receipt, member?_document_receipt] at hreceipt
  exact ⟨Derivation.toJson_inj.1 (Option.some.inj hderivation),
    Option.map_injective (fun _ _ => Certificate.toJson_inj.1) hcertificate,
    Option.map_injective (fun _ _ => Receipt.toJson_inj.1) hreceipt⟩

theorem keysDistinct_document (h : d.toJson.KeysDistinct) :
    (document d certificate receipt).KeysDistinct := by
  cases certificate <;> cases receipt <;>
    simp [document, h, Certificate.keysDistinct_toJson, Receipt.keysDistinct_toJson]

end Document

theorem records_of_error (h : r.derive t setting.now = .error e) :
    records setting v r t = .error e := by
  cases hmodule : v.text "MODULE_ID" <;>
    simp [records, hmodule, ByteRing.issueReceipt, ByteRing.receiptOf, h, bind, Except.bind]

/-- A receipt for a derivation that is stable verifies itself and notes the flag of the ring. -/
theorem exists_issueReceipt_of_derive (h : r.derive t setting.now = .ok d) (moduleId : String) :
    ∃ c, r.issueReceipt moduleId t setting.now = .ok (d, c) ∧ c.moduleId = moduleId ∧
      c.selfVerified = true ∧ c.coherenceVerified = r.verified := by
  refine ⟨_, by rw [ByteRing.issueReceipt, h]; rfl, rfl, ?_, rfl⟩
  exact decide_eq_true rfl

variable (setting v) in
/-- A term that is derived is printed with what was asked for, and the checks of it pass. -/
theorem exists_records_of_derive (h : r.derive t setting.now = .ok d) :
    ∃ members certificate receipt, records setting v r t = .ok members ∧
      Json.obj members = document d certificate receipt ∧
      certificate.isSome = v.flag "CERTIFY" ∧
      (∀ c ∈ certificate, c.derivationId = d.id ∧ c.valid = true) ∧
      receipt.map Receipt.moduleId = v.text "MODULE_ID" ∧
      ∀ c ∈ receipt, c.selfVerified = true ∧ c.coherenceVerified = r.verified := by
  obtain ⟨c, hc, -, hname, hvalid⟩ := ByteRing.exists_certify_of_derive h d [] setting.now
  have hcertificate : ∀ c' ∈ some c, c'.derivationId = d.id ∧ c'.valid = true := by
    rintro _ ⟨⟩
    exact ⟨hname, hvalid.trans (decide_eq_true rfl)⟩
  cases hmodule : v.text "MODULE_ID" with
  | none =>
    cases hcertify : v.flag "CERTIFY" with
    | false =>
      refine ⟨_, none, none, ?_, rfl, rfl, by simp, rfl, by simp⟩
      simp only [records, hmodule, hcertify, h]
      rfl
    | true =>
      refine ⟨_, some c, none, ?_, rfl, rfl, hcertificate, rfl, by simp⟩
      simp only [records, hmodule, hcertify, h, hc, if_true, Bind.bind, Except.bind, pure,
        Except.pure]
      rfl
  | some moduleId =>
    obtain ⟨p, hp, hmoduleId, hself, hring⟩ := exists_issueReceipt_of_derive h moduleId
    have hreceipt : ∀ p' ∈ some p, p'.selfVerified = true ∧ p'.coherenceVerified = r.verified := by
      rintro _ ⟨⟩
      exact ⟨hself, hring⟩
    cases hcertify : v.flag "CERTIFY" with
    | false =>
      refine ⟨_, none, some p, ?_, rfl, rfl, by simp, congrArg some hmoduleId, hreceipt⟩
      simp only [records, hmodule, hcertify, hp]
      rfl
    | true =>
      refine ⟨_, some c, some p, ?_, rfl, rfl, hcertificate, congrArg some hmoduleId, hreceipt⟩
      simp only [records, hmodule, hcertify, hp, hc, if_true, Bind.bind, Except.bind, pure,
        Except.pure]
      rfl

end Records

/-! ## The outcome -/

section Outcome
variable {v : Values} {t : Term}

/-- What is printed for a request: the derivation of its term, and the records that it asks for, all
of whose checks pass. -/
structure IsAnswer (i : DeriveRequest) (now : String) (t : Term) (d : Derivation)
    (certificate : Option Certificate) (receipt : Option Receipt) : Prop where
  derive : (ByteRing.sound ⟨i.quantum.toNat⟩).derive t now = .ok d
  certify : certificate.isSome = i.certify
  valid : ∀ c ∈ certificate, c.derivationId = d.id ∧ c.valid = true
  moduleId : receipt.map Receipt.moduleId = i.moduleId
  verified : ∀ c ∈ receipt, c.selfVerified = true ∧ c.coherenceVerified = true

/-- What a document says member by member: which records it holds, and that their checks pass. -/
structure Shows (doc : Json) (i : DeriveRequest) (d : Derivation) (c : Option Certificate)
    (p : Option Receipt) : Prop where
  derivation : doc.member? "derivation" = some d.toJson
  certificate : doc.member? "certificate" = c.map Certificate.toJson
  receipt : doc.member? "receipt" = p.map Receipt.toJson
  certify : (doc.member? "certificate").isSome = i.certify
  valid : ∀ m ∈ doc.member? "certificate", m.member? "valid" = some (.bool true)
  moduleId : (doc.member? "receipt").bind (Json.member? "moduleId") = i.moduleId.map Json.str
  verified : ∀ m ∈ doc.member? "receipt", m.member? "selfVerified" = some (.bool true) ∧
    m.member? "coherenceVerified" = some (.bool true)
  unique : ∀ d' c' p', doc = document d' c' p' → d' = d ∧ c' = c ∧ p' = p

/-- The document of an answer shows it. -/
theorem IsAnswer.shows {i : DeriveRequest} {now : String} {d : Derivation}
    {certificate : Option Certificate} {receipt : Option Receipt}
    (h : IsAnswer i now t d certificate receipt) :
    Shows (document d certificate receipt) i d certificate receipt where
  derivation := member?_document_derivation
  certificate := member?_document_certificate
  receipt := member?_document_receipt
  certify := by rw [member?_document_certificate, Option.isSome_map, h.certify]
  valid := by
    intro c hc
    rw [member?_document_certificate] at hc
    obtain ⟨c, hmem, rfl⟩ := Option.mem_map.1 hc
    simp [Certificate.toJson, Json.member?, Json.lookup, (h.valid c hmem).2]
  moduleId := by
    rw [member?_document_receipt, ← h.moduleId]
    cases receipt <;> simp [Receipt.toJson, Json.member?, Json.lookup]
  verified := by
    intro c hc
    rw [member?_document_receipt] at hc
    obtain ⟨c, hmem, rfl⟩ := Option.mem_map.1 hc
    obtain ⟨hself, hring⟩ := h.verified c hmem
    simp [Receipt.toJson, Json.member?, Json.lookup, hself, hring]
  unique := by
    intro d' c' p' hdocument
    obtain ⟨rfl, rfl, rfl⟩ := document_inj hdocument
    exact ⟨rfl, rfl, rfl⟩

theorem Outcome.status_success (lines : List String) : (success lines).status = 0 := rfl

theorem Outcome.status_failure (message : String) : (failure message).status = 1 := rfl

theorem Outcome.status_misuse (e : UsageError) : (misuse e).status = 2 := rfl

theorem derive_of_misuse (setting : Setting)
    (h : Refused (v.argument.getD "") ∨ v.integer "QUANTUM" < 0) :
    ∃ e, derive setting v = .misuse e := by
  cases hterm : termOfText (v.argument.getD "") with
  | error e => exact ⟨e, by simp only [derive, hterm]⟩
  | ok t =>
    have hneg := h.resolve_left (not_refused_iff.2 ⟨t, termOfText_eq_ok_iff.1 hterm⟩)
    obtain ⟨e, he⟩ := verifiedRing_of_neg setting hneg
    exact ⟨e, by simp only [derive, hterm, he]⟩

/-- A variable that is left in the canonical form is reported. -/
theorem derive_of_unbound (environment : List (String × String)) (now : String)
    (hwrites : Writes (v.argument.getD "") t)
    (hlevel : 0 ≤ v.integer "QUANTUM")
    (hvars : (t.canonical ⟨(v.integer "QUANTUM").toNat⟩).vars ≠ []) :
    ∃ message, derive ⟨environment, ByteRing.sound, now⟩ v = .failure message := by
  obtain ⟨x, xs, hvars⟩ := List.exists_cons_of_ne_nil hvars
  have hring := verifiedRing_of_sound environment now hlevel
  generalize (v.integer "QUANTUM").toNat = level at hring hvars
  have herror := ByteRing.derive_of_error (r := { ByteRing.sound ⟨level⟩ with verified := true })
    (ByteRing.evaluate_of_vars_eq_cons hvars) now
  refine ⟨(Error.unboundVariable x.text).message, ?_⟩
  simp only [derive, termOfText_eq_ok_iff.2 hwrites, hring]
  rw [records_of_error herror]

/-- A term whose canonical form is without variables is printed with what is asked for. -/
theorem derive_of_bound (environment : List (String × String)) (now : String)
    (hwrites : Writes (v.argument.getD "") t)
    (hlevel : 0 ≤ v.integer "QUANTUM")
    (hvars : (t.canonical ⟨(v.integer "QUANTUM").toNat⟩).vars = []) :
    ∃ d certificate receipt,
      IsAnswer (DeriveRequest.ofValues v) now t d certificate receipt ∧
      derive ⟨environment, ByteRing.sound, now⟩ v =
        .success [(document d certificate receipt).indented] := by
  obtain ⟨d, hd, -⟩ := ByteRing.exists_derive_of_ok
    (r := ByteRing.sound ⟨(v.integer "QUANTUM").toNat⟩)
    (ByteRing.evaluate_of_ground false (fun _ => 0) hvars) now
  have hflagged := (ByteRing.derive_verified (ByteRing.sound _) true t now).trans hd
  obtain ⟨members, certificate, receipt, hrecords, hdocument, hcertify, hvalid, hmodule,
    hverified⟩ := exists_records_of_derive ⟨environment, ByteRing.sound, now⟩ v hflagged
  refine ⟨d, certificate, receipt, ⟨hd, hcertify, hvalid, hmodule, hverified⟩, ?_⟩
  simp only [derive, termOfText_eq_ok_iff.2 hwrites, verifiedRing_of_sound environment now hlevel]
  rw [hrecords, ← hdocument]

/-- **How deriving from the command line ends**, where rings are sound. Every request can be made in
words, and however it is made the status is 2 exactly if its text is no term or there is no ring of
its level, 1 exactly if a variable is left in the canonical form of the term at that level, and 0
otherwise. Only with status 0 something is printed: one line of JSON, which is read back, as it is
and as it is printed, as a document with the derivation of the term at the level, a valid
certificate exactly if one is asked for, and exactly if one is asked for a receipt that verifies
itself and notes the check of the ring. The document shows all of these records. Words are texts,
and digits and nesting are without limit, as everywhere in this description of the program. -/
theorem run_derive_classified (environment : List (String × String)) (now : String) :
    let setting : Setting := ⟨environment, ByteRing.sound, now⟩
    (Unset environment → ∀ i : DeriveRequest, i.IsMadeBy setting ("derive" :: i.words)) ∧
    ∀ (i : DeriveRequest) (words : List String), i.IsMadeBy setting words →
      let q : Quantum := ⟨i.quantum.toNat⟩
      let outcome := run setting words
      (outcome.status = 2 ↔ Refused i.term ∨ i.quantum < 0) ∧
      (outcome.status = 1 ↔ ∃ t, Writes i.term t ∧ 0 ≤ i.quantum ∧ (t.canonical q).vars ≠ []) ∧
      (outcome.status = 0 ↔ ∃ t, Writes i.term t ∧ 0 ≤ i.quantum ∧ (t.canonical q).vars = []) ∧
      (outcome.status = 0 ∨ outcome.status = 1 ∨ outcome.status = 2) ∧
      (outcome.status ≠ 0 → outcome.output = []) ∧
      (outcome.status = 0 → ∃ t d certificate receipt, Writes i.term t ∧
        IsAnswer i now t d certificate receipt ∧
        outcome.output = [(document d certificate receipt).indented] ∧
        Json.parse? (document d certificate receipt).indented =
          some (document d certificate receipt) ∧
        Json.parse? (Outcome.plainText outcome.output) = some (document d certificate receipt) ∧
        Shows (document d certificate receipt) i d certificate receipt) := by
  intro setting
  refine ⟨fun h i => DeriveRequest.isMadeBy_words h i, ?_⟩
  intro i words h q outcome
  obtain ⟨v, rfl, hrun⟩ := DeriveRequest.run_of_isMadeBy h
  rw [show outcome = derive setting v from hrun]
  by_cases hmisuse : Refused (v.argument.getD "") ∨ v.integer "QUANTUM" < 0
  · obtain ⟨e, he⟩ := derive_of_misuse setting hmisuse
    rw [he, Outcome.status_misuse]
    exact ⟨iff_of_true rfl hmisuse, iff_of_false (by decide) (not_exists_writes hmisuse _),
      iff_of_false (by decide) (not_exists_writes hmisuse _), .inr (.inr rfl), fun _ => rfl,
      fun h => nomatch h⟩
  · obtain ⟨hrefused, hlevel⟩ := not_or.1 hmisuse
    rw [Int.not_lt] at hlevel
    obtain ⟨t, hwrites⟩ := not_refused_iff.1 hrefused
    have hterm := hwrites.exists_iff hlevel
    by_cases hvars : (t.canonical q).vars = []
    · obtain ⟨d, certificate, receipt, hanswer, hsuccess⟩ :=
        derive_of_bound environment now hwrites hlevel hvars
      have hkeys : (document d certificate receipt).KeysDistinct :=
        keysDistinct_document (ByteRing.keysDistinct_of_derive hanswer.derive)
      rw [hsuccess, Outcome.status_success]
      exact ⟨iff_of_false (by decide) hmisuse,
        iff_of_false (by decide) ((hterm _).not.2 (not_not.2 hvars)),
        iff_of_true rfl ((hterm _).2 hvars), .inl rfl, fun h => absurd rfl h,
        fun _ => ⟨t, d, certificate, receipt, hwrites, hanswer, rfl, Json.parse?_indented hkeys,
          parse?_plainText_indented hkeys, hanswer.shows⟩⟩
    · obtain ⟨message, hfailure⟩ :=
        derive_of_unbound environment now hwrites hlevel hvars
      rw [hfailure, Outcome.status_failure]
      exact ⟨iff_of_false (by decide) hmisuse, iff_of_true rfl ((hterm _).2 hvars),
        iff_of_false (by decide) ((hterm _).not.2 hvars), .inr (.inl rfl), fun _ => rfl,
        fun h => nomatch h⟩

/-- A constant is printed with a certificate and a receipt, a variable fails, and a level below zero
is refused. -/
theorem run_derive_classified_seven :
    let environment := [("PATH", "/bin")]
    let setting : Setting := ⟨environment, ByteRing.sound, ""⟩
    let printed : DeriveRequest := ⟨1, "7", true, some "m"⟩
    let failed : DeriveRequest := ⟨0, "\"x\"", false, none⟩
    let refused : DeriveRequest := ⟨-1, "7", false, none⟩
    Unset environment ∧
    printed.words = ["-q", "1", "--certify", "--receipt", "m", "--", "7"] ∧
    printed.IsMadeBy setting ("derive" :: printed.words) ∧
    (run setting ("derive" :: printed.words)).status = 0 ∧
    (∃ d c p, IsAnswer printed "" (.const 7) d (some c) (some p) ∧
      (run setting ("derive" :: printed.words)).output =
        [(document d (some c) (some p)).indented] ∧
      ∃ doc, Json.parse? (Outcome.plainText (run setting ("derive" :: printed.words)).output) =
          some doc ∧
        doc.member? "derivation" = some d.toJson ∧ doc.member? "certificate" = some c.toJson ∧
        doc.member? "receipt" = some p.toJson) ∧
    failed.words = ["-q", "0", "--", "\"x\""] ∧
    (run setting ("derive" :: failed.words)).status = 1 ∧
    refused.words = ["-q", "-1", "--", "7"] ∧
    (run setting ("derive" :: refused.words)).status = 2 := by
  intro environment setting printed failed refused
  have hseven : Writes "7" (.const 7) := ⟨.int 7, rfl, rfl⟩
  have hx : Writes "\"x\"" (.var ⟨"x", by decide⟩) := ⟨.str "x", rfl, rfl⟩
  have hunset : Unset environment := by simp [Unset, environment]
  obtain ⟨hmade, hruns⟩ := run_derive_classified environment ""
  obtain ⟨-, -, hzero, -, -, hdocument⟩ := hruns _ _ (hmade hunset printed)
  obtain ⟨-, hone, -⟩ := hruns _ _ (hmade hunset failed)
  obtain ⟨htwo, -⟩ := hruns _ _ (hmade hunset refused)
  have hconst : ((Term.const 7).canonical ⟨1⟩).vars = [] := by
    rw [Term.canonical_of_ground rfl]
    rfl
  have hvar : ((Term.var ⟨"x", by decide⟩).canonical ⟨0⟩).vars ≠ [] := by
    have hleft : ((Term.var ⟨"x", by decide⟩).canonical ⟨0⟩).vars = [⟨"x", by decide⟩] := by cbv
    simp [hleft]
  have hstatus := hzero.2 ⟨.const 7, hseven, by decide, hconst⟩
  obtain ⟨t, d, certificate, receipt, hwrites, hanswer, houtput, -, hparse, hshows⟩ :=
    hdocument hstatus
  obtain rfl := hwrites.unique hseven
  obtain ⟨c, rfl⟩ := Option.isSome_iff_exists.1 hanswer.certify
  obtain ⟨p, rfl, -⟩ := Option.map_eq_some_iff.1 hanswer.moduleId
  exact ⟨hunset, rfl, hmade hunset printed, hstatus,
    ⟨d, c, p, hanswer, houtput, _, hparse, hshows.derivation, hshows.certificate, hshows.receipt⟩,
    rfl, hone.2 ⟨_, hx, by decide, hvar⟩, rfl, htwo.2 (.inr (by decide))⟩

end Outcome

end WordRing.CommandLine
