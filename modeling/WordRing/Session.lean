import WordRing.Certificate
import WordRing.Coherence.Check
import WordRing.Receipt
import WordRing.Term.Structure

/-!
# Sessions

A sequence of steps on some rings: checking them, deriving in them, and attesting and confirming
what was derived. Derivations and certificates are kept under names for later steps, and may be
altered on the way. A step that fails leaves the session as it was.

## Main definitions

* `Session.perform s step` — the session after a step with its outcome, or the error.
* `Session.run s step` — the session after a step, successful or not, with what came of it.
-/
namespace WordRing

/-- What is kept under a name. -/
inductive Record where
  | derivation (d : Derivation)
  | certificate (c : Certificate)

/-- A change to one field of a record. -/
inductive Amendment where
  | derivationId (id : String)
  | resultIri (iri : String)
  | resultValue (n : Int)
  | givenTerm (text : String)
  | valid (b : Bool)
  /-- A field by a name that stands for none of these. -/
  | other (name : String)
deriving DecidableEq, Repr

namespace Record

/-- The record as a linked-data object. -/
def toJson : Record → Json
  | derivation d => d.toJson
  | certificate c => c.toJson

/-- A record with a field changed, if it has the field. -/
def amend : Record → Amendment → Except Error Record
  | derivation d, .derivationId id => .ok (.derivation { d with id })
  | derivation d, .resultIri iri => .ok (.derivation { d with resultIri := iri })
  | derivation d, .resultValue n => .ok (.derivation { d with resultValue := n })
  | derivation d, .givenTerm text => .ok (.derivation { d with givenTerm := text })
  | derivation _, .valid _ => .error (.noSuchField "valid")
  | certificate c, .derivationId id => .ok (.certificate { c with derivationId := id })
  | certificate c, .valid b => .ok (.certificate { c with valid := b })
  | _, .other name => .error (.noSuchField name)
  | certificate _, .resultIri _ => .error (.noSuchField "resultIri")
  | certificate _, .resultValue _ => .error (.noSuchField "resultValue")
  | certificate _, .givenTerm _ => .error (.noSuchField "givenTerm")

end Record

/-- What a step does. Terms are given as structures and records by name. -/
inductive Action where
  /-- Checks the ring and raises its flag if it passes. -/
  | verify
  /-- Checks the ring and leaves its flag alone. -/
  | check (mode : CheckMode)
  /-- Replaces the faults of the ring. -/
  | setFaults (faults : List Fault)
  /-- Derives a term. -/
  | derive (term : Json)
  /-- Whether a term reproduces a derivation. -/
  | reproduce (derivation : String) (term : Json)
  /-- Certifies a derivation against a term. -/
  | certify (derivation : String) (term : Json) (parents : List String)
  /-- Whether a certificate and a derivation are confirmed by a term. -/
  | confirm (certificate derivation : String) (term : Json)
  /-- Copies a record with changes. -/
  | amend (record : String) (changes : List Amendment)
  /-- Derives a term with a receipt. An unstable derivation marks its identifier anew each time. -/
  | receipt (moduleId : String) (term : Json) (unstable : Bool)

/-- An action on one of the rings at a time, and the name its record is kept under. -/
structure Step where
  ring : Nat
  action : Action
  name : Option String
  now : String

/-- What a step yields. -/
inductive Outcome where
  | nothing
  | report (report : CoherenceReport)
  | verdict (b : Bool)
  | record (record : Record)
  | receipt (derivation : Derivation) (receipt : Receipt)

/-- The rings and the records of a session. -/
structure Session where
  rings : List ByteRing
  records : List (String × Record)

namespace Session
variable (s : Session)

/-- The session with a record kept under a name, if there is one. -/
def keep (name : Option String) (record : Record) : Session :=
  match name with
  | some name => { s with records := (name, record) :: s.records }
  | none => s

/-- The record last kept under a name. -/
def find (name : String) : Except Error Record :=
  match s.records.find? fun (key, _) => key = name with
  | some (_, record) => .ok record
  | none => .error (.noSuchRecord name)

/-- The derivation last kept under a name. -/
def findDerivation (name : String) : Except Error Derivation := do
  match ← s.find name with
  | .derivation d => return d
  | .certificate _ => throw (.noSuchRecord name)

/-- The certificate last kept under a name. -/
def findCertificate (name : String) : Except Error Certificate := do
  match ← s.find name with
  | .certificate c => return c
  | .derivation _ => throw (.noSuchRecord name)

/-- The ring at an index. -/
def ringAt (index : Nat) : Except Error ByteRing :=
  match s.rings[index]? with
  | some r => .ok r
  | none => .error (.noSuchRing index)

/-- A derivation whose identifier tells how often it was computed before. -/
def marked (d : Derivation) (attempt : Nat) : Derivation := { d with id := s!"{d.id}-{attempt}" }

/-- Performs an action in a ring of the session. -/
def act (r : ByteRing) (step : Step) : Action → Except Error (Session × Outcome)
  | .verify => do
    let (report, r) ← r.verify step.now
    return ({ s with rings := s.rings.set step.ring r }, .report report)
  | .check mode => do
    let report ← r.check mode step.now
    return (s, .report report)
  | .setFaults faults =>
    let faulty := { ByteRing.withFaults r.quantum faults with verified := r.verified }
    return ({ s with rings := s.rings.set step.ring faulty }, .nothing)
  | .derive term => do
    let d ← r.derive (← Term.ofStructure term) step.now
    return (s.keep step.name (.derivation d), .record (.derivation d))
  | .reproduce derivation term => do
    let d ← s.findDerivation derivation
    return (s, .verdict (← r.reproduces d (← Term.ofStructure term)))
  | .certify derivation term parents => do
    let d ← s.findDerivation derivation
    let c ← r.certify d (← Term.ofStructure term) parents step.now
    return (s.keep step.name (.certificate c), .record (.certificate c))
  | .confirm certificate derivation term => do
    let c ← s.findCertificate certificate
    let d ← s.findDerivation derivation
    return (s, .verdict (← r.confirms c d (← Term.ofStructure term)))
  | .amend name changes => do
    let amended ← changes.foldlM Record.amend (← s.find name)
    return (s.keep step.name amended, .record amended)
  | .receipt moduleId term unstable => do
    let t ← Term.ofStructure term
    let derived (attempt : Nat) : Except Error Derivation := do
      let d ← r.derive t step.now
      return if unstable then marked d attempt else d
    let (d, receipt) ← r.receiptOf moduleId t step.now (derived 0) (derived 1)
    return (s.keep step.name (.derivation d), .receipt d receipt)

/-- Performs a step. -/
def perform (step : Step) : Except Error (Session × Outcome) := do
  s.act (← s.ringAt step.ring) step step.action

/-- Runs a step; if it fails the session stays as it was. -/
def run (step : Step) : Session × Except Error Outcome :=
  match s.perform step with
  | .ok (after, outcome) => (after, .ok outcome)
  | .error e => (s, .error e)

/-- Runs steps one after another, with the session after each. -/
def runAll : Session → List Step → List (Session × Except Error Outcome)
  | _, [] => []
  | s, step :: steps => s.run step :: runAll (s.run step).1 steps

end Session

end WordRing
