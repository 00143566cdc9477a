/-!
# The ring laws

The laws that a ring has to keep before what is derived in it can be trusted: nine that speak of
one element each, and the walk that reaches every element from zero by taking successors.
-/
namespace WordRing

/-- A law of the ring. -/
inductive Law where
  | bnotInvolution
  | negInvolution
  | criticalIdentity
  | predDerivation
  | succPredInverse
  | predSuccInverse
  | xorComplement
  | xorSelfCancel
  | additiveInverse
  | fullCycle
deriving DecidableEq, Repr

namespace Law

/-- The name of the law in reports. -/
def name : Law → String
  | bnotInvolution => "bnot-involution"
  | negInvolution => "neg-involution"
  | criticalIdentity => "critical-identity"
  | predDerivation => "pred-derivation"
  | succPredInverse => "succ-pred-inverse"
  | predSuccInverse => "pred-succ-inverse"
  | xorComplement => "xor-complement"
  | xorSelfCancel => "xor-self-cancel"
  | additiveInverse => "additive-inverse"
  | fullCycle => "full-cycle"

/-- The laws that are checked element by element, in the order of checking. -/
def elementwise : List Law :=
  [bnotInvolution, negInvolution, criticalIdentity, predDerivation, succPredInverse,
    predSuccInverse, xorComplement, xorSelfCancel, additiveInverse]

/-- All laws: those on elements and the full cycle. -/
def all : List Law := elementwise ++ [fullCycle]

end Law

/-- A law that fails at a value. -/
structure Violation where
  law : Law
  value : Nat
  expected : Nat
  actual : Nat
deriving DecidableEq, Repr

/-- The line that reports the failure. -/
def Violation.message (v : Violation) : String :=
  s!"[{v.law.name}] at x={v.value}: expected {v.expected}, got {v.actual}"

end WordRing
