/-!
# Epistemic grades

How a fact came to be known, from what has been derived down to what nobody has checked. Only the
first grade is ever given by a derivation; the others are for facts recorded elsewhere.
-/
namespace WordRing

/-- A grade of knowledge. -/
inductive Grade where
  /-- Derived, with an identifier, in a ring that keeps its laws. -/
  | proven
  /-- Certified after its shape was validated. -/
  | certified
  /-- Present with a source, but not derived. -/
  | present
  /-- Neither derived nor certified. -/
  | unverified
deriving DecidableEq, Repr

namespace Grade

/-- The letter of the grade. -/
def letter : Grade → String
  | proven => "A"
  | certified => "B"
  | present => "C"
  | unverified => "D"

/-- The place of the grade, the highest first. -/
def rank : Grade → Nat
  | proven => 0
  | certified => 1
  | present => 2
  | unverified => 3

/-- All grades, the highest first. -/
def all : List Grade := [proven, certified, present, unverified]

/-- The grade of a letter. -/
def ofLetter? (s : String) : Option Grade := all.find? fun g => g.letter = s

/-- What the grade says. -/
def label : Grade → String
  | proven => "Algebraically Proven"
  | certified => "Graph-Certified"
  | present => "Graph-Present"
  | unverified => "LLM-Generated / Unverified"

/-- How a fact of the grade may be cited. -/
def behavior : Grade → String
  | proven => "Cite with full confidence, include derivation ID."
  | certified => "Cite with high confidence, certificate IRI provided."
  | present => "Cite with moderate confidence, flag 'not algebraically verified'."
  | unverified => "Explicitly flag as unverified, route to derive() for verification."

/-- Whether one grade is above another. -/
def outranks (g h : Grade) : Bool := g.rank < h.rank

end Grade

end WordRing
