import Std.Data.HashSet
import WordRing.ByteRing
import WordRing.Coherence.Law
import WordRing.Coherence.Sample

/-!
# Checking the ring laws

A check asks the ring for both sides of every law at every test value, and then walks the whole
ring by successors where it is small enough. Collecting reports every failure; the other mode
stops at the first one. At level zero, where every element is tested, a passed check is a proof;
at wider levels it is evidence, and the report says so.

## Main definitions

* `ByteRing.checkAt r values mode now` — the report of a check at these elements, or the error that
  stopped it.
* `ByteRing.check r mode now` — a check at the test values of the level.
* `ByteRing.verify r now` — a collecting check, and the ring with its flag raised if it passed.
-/
namespace WordRing

/-- What a check does at a failure. -/
inductive CheckMode where
  /-- Go on and report all failures. -/
  | collect
  /-- Stop with an error. -/
  | abort
deriving DecidableEq, Repr

/-- The outcome of a check. -/
structure CoherenceReport where
  quantum : Quantum
  totalChecks : Nat
  violations : List Violation
  fullCycleVerified : Bool
  sampled : Bool
  timestamp : String
deriving DecidableEq, Repr

namespace CoherenceReport

/-- A ring passes if nothing failed. -/
def verified (report : CoherenceReport) : Bool := report.violations.isEmpty

/-- The failures as lines. -/
def failures (report : CoherenceReport) : List String := report.violations.map Violation.message

/-- The identity that makes successor a composition of the involutions. -/
def criticalIdentity : String := "neg(bnot(x)) = succ(x)"

/-- The report as an object. -/
def toJson (report : CoherenceReport) : Json :=
  .obj [("@type", .str "CoherenceProof"), ("quantum", .nat report.quantum.level),
    ("verified", .bool report.verified), ("lawsChecked", .nat Law.all.length),
    ("totalChecks", .nat report.totalChecks), ("failures", .strs report.failures),
    ("fullCycleVerified", .bool report.fullCycleVerified), ("sampled", .bool report.sampled),
    ("criticalIdentity", .str criticalIdentity), ("timestamp", .str report.timestamp)]

end CoherenceReport

/-- The greatest number of elements for which the whole cycle is walked. -/
def fullCycleLimit : Nat := 65536

namespace ByteRing
variable (r : ByteRing)

/-- Both sides of a law at a word: what is expected and what the ring answers. The full cycle is
no law of one element and says nothing here. -/
def sides (law : Law) (b : Bytes) : Except Error (Bytes × Bytes) :=
  match law with
  | .bnotInvolution => do return (b, ← r.unary .bnot (← r.unary .bnot b))
  | .negInvolution => do return (b, ← r.unary .neg (← r.unary .neg b))
  | .criticalIdentity => do
    return (← r.unary .succ b, ← r.unary .neg (← r.unary .bnot b))
  | .predDerivation => do
    return (← r.unary .pred b, ← r.unary .bnot (← r.unary .neg b))
  | .succPredInverse => do return (b, ← r.unary .succ (← r.unary .pred b))
  | .predSuccInverse => do return (b, ← r.unary .pred (← r.unary .succ b))
  | .xorComplement => do return (r.quantum.ones, ← r.nary .xor b (← r.unary .bnot b))
  | .xorSelfCancel => do return (r.quantum.zero, ← r.nary .xor b b)
  | .additiveInverse => do
    let inverse ← r.unary .neg b
    return (r.quantum.zero, r.quantum.word (Bytes.toNat inverse + Bytes.toNat b : Nat))
  | .fullCycle => return (b, b)

/-- The failure of a law at a value, if it fails there. -/
def violation? (law : Law) (n : Nat) : Except Error (Option Violation) := do
  let (expected, actual) ← r.sides law (r.quantum.word n)
  return if expected = actual then none
    else some ⟨law, n, Bytes.toNat expected, Bytes.toNat actual⟩

/-- What a check has found: how many questions were asked, and what failed. -/
structure Tally where
  checks : Nat
  violations : List Violation
deriving DecidableEq, Repr

/-- What becomes of a failure: it is reported, or it stops the check. -/
def record : CheckMode → Option Violation → Except Error (List Violation)
  | _, none => .ok []
  | .collect, some v => .ok [v]
  | .abort, some v => .error (.coherence v)

/-- Asks for a list of laws at values, in its order. -/
def checkEach (mode : CheckMode) : List (Nat × Law) → Except Error Tally
  | [] => .ok ⟨0, []⟩
  | (n, law) :: rest => do
    let found ← record mode (← r.violation? law n)
    let others ← checkEach mode rest
    return ⟨others.checks + 1, found ++ others.violations⟩

/-- Every law at every value, value by value. -/
def elementChecks (values : List Nat) : List (Nat × Law) :=
  values.flatMap fun n => Law.elementwise.map fun law => (n, law)

/-! ## The full cycle -/

/-- Takes successors a number of times from a word, noting the words on the way. Answers with the
last word and the number of different words noted. -/
def walkFrom : Nat → Bytes → Std.HashSet Bytes → Except Error (Bytes × Nat)
  | 0, b, visited => .ok (b, visited.size)
  | steps + 1, b, visited => do
    let next ← r.unary .succ b
    walkFrom steps next (visited.insert b)

/-- The failure of the full cycle: the walk from zero does not come back, or it comes by fewer
words than there are. -/
def cycleViolation? : Except Error (Option Violation) := do
  let (last, distinct) ← r.walkFrom r.quantum.cycle r.quantum.zero ∅
  return if Bytes.toNat last ≠ 0 then some ⟨.fullCycle, 0, 0, Bytes.toNat last⟩
    else if distinct ≠ r.quantum.cycle then some ⟨.fullCycle, 0, r.quantum.cycle, distinct⟩
    else none

/-- Whether the ring is small enough to be walked. -/
def isWalked : Bool := r.quantum.cycle ≤ fullCycleLimit

/-- Asks for the full cycle, where the ring is walked. -/
def checkCycle (mode : CheckMode) : Except Error Tally :=
  if r.isWalked then do return ⟨1, ← record mode (← r.cycleViolation?)⟩ else .ok ⟨0, []⟩

/-! ## Whole checks -/

/-- Checks every law of the ring, those of one element at these values. -/
def checkAt (values : List Nat) (mode : CheckMode) (now : String) :
    Except Error CoherenceReport := do
  let onElements ← r.checkEach mode (elementChecks values)
  let onCycle ← r.checkCycle mode
  return {
    quantum := r.quantum
    totalChecks := onElements.checks + onCycle.checks
    violations := onElements.violations ++ onCycle.violations
    fullCycleVerified := r.isWalked && onCycle.violations.isEmpty
    sampled := r.quantum.isSampled
    timestamp := now }

/-- Checks every law of the ring. -/
def check (mode : CheckMode) (now : String) : Except Error CoherenceReport :=
  r.checkAt r.quantum.testValues mode now

/-- Checks every law of the ring and raises its flag if they hold. The flag is never lowered. -/
def verify (now : String) : Except Error (CoherenceReport × ByteRing) := do
  let report ← r.check .collect now
  return (report, if report.verified then { r with verified := true } else r)

end ByteRing

end WordRing
