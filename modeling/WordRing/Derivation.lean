import WordRing.Address
import WordRing.Evaluation
import WordRing.Grade
import WordRing.Hash.ContentId
import WordRing.Canonical.Form
import WordRing.Term.Metrics

/-!
# Derivations

A derivation binds a term to its canonical form and its value. Its identifier is the digest of
the canonical form and the address of the value, so terms with the same canonical form share it,
and whoever has the ring and the term can compute it again; there is no other signature.

## Main definitions

* `ByteRing.derive r t now` — the derivation of `t` in `r`, or the error of its evaluation.
* `ByteRing.reproduces r d t` — whether `t` derives the identifier of `d` again.
-/
namespace WordRing

/-- What canonicalizing saved. -/
structure Reduction where
  before : Nat
  after : Nat
deriving DecidableEq, Repr

namespace Reduction

/-- The node counts of a term and its canonical form. -/
def compare (given canonical : Term) : Reduction := ⟨given.nodeCount, canonical.nodeCount⟩

/-- The share of nodes saved, both steps rounded; nothing is saved of nothing. -/
def ratio (m : Reduction) : Binary64 :=
  if m.before = 0 then .zero false else (Binary64.nearest false m.after m.before).oneMinus

/-- The comparison as an object. -/
def toJson (m : Reduction) : Json :=
  .obj [("originalComplexity", .nat m.before), ("canonicalComplexity", .nat m.after),
    ("reductionRatio", .float m.ratio)]

end Reduction

/-- A term bound to its canonical form and its value. -/
structure Derivation where
  id : String
  /-- The term as it was given, in writing. -/
  givenTerm : String
  /-- The canonical form in writing, from which the identifier is computed. -/
  canonicalTerm : String
  resultValue : Int
  resultIri : String
  quantum : Quantum
  grade : Grade
  timestamp : String
  reduction : Reduction
  /-- The sizes of the term as it was given. -/
  metrics : TermMetrics
deriving DecidableEq

namespace Derivation

/-- What the identifiers of derivations begin with. -/
def urn : String := "urn:uor:derivation:sha256:"

/-- The text whose digest names a derivation. -/
def preimage (canonicalTerm resultIri : String) : String := s!"{canonicalTerm}={resultIri}"

/-- The identifier for a canonical form and the address of its value: sixteen hexadecimal digits
of a digest. -/
def idFor (canonicalTerm resultIri : String) : String :=
  let digest := Sha256.digest (Bytes.ofText (preimage canonicalTerm resultIri))
  urn ++ String.ofList ((Digest.hex digest).take 16)

/-- The derivation as a linked-data object. -/
def toJson (d : Derivation) : Json :=
  .obj [("@id", .str d.id), ("@type", .str "Derivation"), ("quantum", .nat d.quantum.level),
    ("originalTerm", .str d.givenTerm), ("canonicalTerm", .str d.canonicalTerm),
    ("resultValue", .int d.resultValue), ("result", .obj [("@id", .str d.resultIri)]),
    ("epistemicGrade", .str d.grade.letter), ("timestamp", .str d.timestamp),
    ("metrics", d.reduction.toJson), ("termMetrics", d.metrics.toJson)]

end Derivation

namespace ByteRing
variable (r : ByteRing)

/-- Derives a term: canonicalizes it, evaluates the canonical form, addresses the value. -/
def derive (t : Term) (now : String) : Except Error Derivation := do
  let canonical := t.canonical r.quantum
  let value := Bytes.toNat (← r.evaluate canonical)
  let iri := Address.ofInt r.quantum value
  let canonicalTerm := canonical.written r.quantum.width
  return {
    id := Derivation.idFor canonicalTerm iri
    givenTerm := t.written r.quantum.width
    canonicalTerm
    resultValue := value
    resultIri := iri
    quantum := r.quantum
    grade := .proven
    timestamp := now
    reduction := .compare t canonical
    metrics := t.metrics }

/-- Whether a term derives the identifier of a derivation again. -/
def reproduces (d : Derivation) (t : Term) : Except Error Bool := do
  return (← r.derive t d.timestamp).id = d.id

end ByteRing

end WordRing
