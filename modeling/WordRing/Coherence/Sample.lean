import WordRing.Quantum
import WordRing.Random.Twister

/-!
# Sample values

The elements at which the laws are checked. The smallest ring is checked everywhere; a wider one
at the ends, at the half and quarter points, at repeated byte patterns and at a fixed number of
values from a generator with a fixed seed, so that every check of a level uses the same values.
-/
namespace WordRing

/-- The seed of the generator at level zero. -/
def sampleSeed : Nat := 0x554F52

/-- How many values the generator contributes. -/
def sampleCount : Nat := 50

namespace Quantum
variable (q : Quantum)

/-- Whether the ring is too wide to be checked everywhere. -/
def isSampled : Bool := 8 < q.bits

/-- The ends and the middle. -/
def boundaries : List Nat := [0, 1, q.cycle - 1, q.cycle - 2, q.cycle / 2]

/-- Words that repeat one byte. -/
def patterns : List Nat :=
  [0x55, 0xAA, 0x0F, 0xF0].map fun x => Bytes.toNat (List.replicate q.width x)

/-- Sixteen elements each from the start, down from the end, and from the half and quarter
points. -/
def runs : List Nat :=
  (List.range 16).flatMap fun i =>
    [i % q.cycle, (q.cycle - 1 - i) % q.cycle, (q.cycle / 2 + i) % q.cycle,
      (q.cycle / 4 + i) % q.cycle]

/-- The values from the generator. -/
def draws : List Nat :=
  Twister.drawMany q.cycle sampleCount (Twister.ofSeed (sampleSeed + q.level))

/-- Drops every number that its successor repeats. -/
def dropRepeats : List Nat → List Nat
  | a :: b :: rest => if a = b then dropRepeats (b :: rest) else a :: dropRepeats (b :: rest)
  | short => short

/-- The sample in increasing order, each value once. -/
def samples : List Nat :=
  dropRepeats ((q.boundaries ++ q.patterns ++ q.runs ++ q.draws).mergeSort (· ≤ ·))

/-- The elements at which the laws are checked. -/
def testValues : List Nat := if q.isSampled then q.samples else List.range q.cycle

end Quantum

end WordRing
