import WordRing.Derivation
import WordRing.Hash.ContentId

/-!
# Receipts

A receipt wraps a derivation with a check of its own: the term is derived a second time and the
digests of the two outputs are compared, so that whatever makes derivations vary shows up in the
record. Whether the ring had passed its check is noted as it stood at the time.
-/
namespace WordRing

/-- The record of a derivation that was computed twice. -/
structure Receipt where
  id : String
  moduleId : String
  operation : String
  inputHash : String
  outputHash : String
  recomputeHash : String
  selfVerified : Bool
  coherenceVerified : Bool
  timestamp : String
deriving DecidableEq, Repr

namespace Receipt

/-- What the identifiers of receipts begin with. -/
def urn : String := "urn:uor:receipt:"

/-- The text whose identifier names a receipt. -/
def preimage (moduleId operation timestamp : String) : String :=
  s!"{moduleId}:{operation}:{timestamp}"

/-- The identifier of a receipt. -/
def idFor (moduleId operation timestamp : String) : String :=
  urn ++ String.ofList ((ContentId.ofText (preimage moduleId operation timestamp)).take 24)

/-- What goes into a derivation, as an object. -/
def inputOf (operation : String) (q : Quantum) : Json :=
  .obj [("term", .str operation), ("quantum", .nat q.level)]

/-- What comes out of a derivation, as an object. -/
def outputOf (d : Derivation) : Json :=
  .obj [("derivationId", .str d.id), ("resultValue", .int d.resultValue),
    ("resultIri", .str d.resultIri)]

/-- The digest of what goes into a derivation. -/
def digestOfInput (operation : String) (q : Quantum) : String :=
  ContentId.abridged 32 (inputOf operation q)

/-- The digest of what comes out of a derivation. -/
def digestOfOutput (d : Derivation) : String := ContentId.abridged 32 (outputOf d)

/-- The receipt as a linked-data object. -/
def toJson (c : Receipt) : Json :=
  .obj [("@id", .str c.id), ("@type", .str "CanonicalReceipt"), ("moduleId", .str c.moduleId),
    ("operation", .str c.operation), ("inputHash", .str c.inputHash),
    ("outputHash", .str c.outputHash), ("recomputeHash", .str c.recomputeHash),
    ("selfVerified", .bool c.selfVerified), ("coherenceVerified", .bool c.coherenceVerified),
    ("timestamp", .str c.timestamp)]

end Receipt

namespace ByteRing
variable (r : ByteRing)

/-- The receipt for a term whose first and second derivation are given. -/
def receiptOf (moduleId : String) (t : Term) (now : String)
    (first second : Except Error Derivation) : Except Error (Derivation × Receipt) := do
  let operation := t.written r.quantum.width
  let derivation ← first
  let recomputed ← second
  let outputHash := Receipt.digestOfOutput derivation
  let recomputeHash := Receipt.digestOfOutput recomputed
  return (derivation, {
    id := Receipt.idFor moduleId operation now
    moduleId
    operation
    inputHash := Receipt.digestOfInput operation r.quantum
    outputHash
    recomputeHash
    selfVerified := recomputeHash = outputHash
    coherenceVerified := r.verified
    timestamp := now })

/-- Derives a term twice and wraps the first derivation in a receipt. -/
def issueReceipt (moduleId : String) (t : Term) (now : String) :
    Except Error (Derivation × Receipt) :=
  r.receiptOf moduleId t now (r.derive t now) (r.derive t now)

end ByteRing

end WordRing
