import WordRing.Derivation
import WordRing.Hash.ContentId

/-!
# Certificates

An attestation that a derivation reproduces. Whether it does is computed when the certificate is
issued, never taken on trust, and a derivation that does not reproduce gets a certificate that
says so. Checking a certificate computes it again and never turns an invalid one valid.
-/
namespace WordRing

/-- An attestation about a derivation. -/
structure Certificate where
  id : String
  certifiedIri : String
  derivationId : String
  valid : Bool
  issuedAt : String
  /-- The identifiers that the attestation rests on, the derivation's own last. -/
  chain : List String
deriving DecidableEq, Repr

namespace Certificate

/-- What the identifiers of certificates begin with. -/
def urn : String := "urn:uor:cert:"

/-- The identifier of the attestation of an outcome. -/
def idFor (d : Derivation) (valid : Bool) : String :=
  urn ++ ContentId.abridged 24 (.obj [("derivationId", .str d.id), ("resultIri", .str d.resultIri),
    ("valid", .bool valid)])

/-- The certificate as a linked-data object. -/
def toJson (c : Certificate) : Json :=
  .obj [("@id", .str c.id), ("@type", .str "DerivationCertificate"),
    ("certifies", .obj [("@id", .str c.certifiedIri)]),
    ("derivation", .obj [("@id", .str c.derivationId)]), ("valid", .bool c.valid),
    ("issuedAt", .str c.issuedAt), ("certChain", .strs c.chain)]

end Certificate

namespace ByteRing
variable (r : ByteRing)

/-- Derives the term again and attests whether it gave the derivation. -/
def certify (d : Derivation) (t : Term) (parents : List String) (now : String) :
    Except Error Certificate := do
  let valid ← r.reproduces d t
  return {
    id := Certificate.idFor d valid
    certifiedIri := d.resultIri
    derivationId := d.id
    valid
    issuedAt := now
    chain := parents ++ [d.id] }

/-- Whether a certificate was issued valid, names the derivation, and the derivation reproduces.
The term is derived only if the first two hold. -/
def confirms (c : Certificate) (d : Derivation) (t : Term) : Except Error Bool :=
  if c.valid ∧ c.derivationId = d.id then r.reproduces d t else .ok false

end ByteRing

end WordRing
