/-!
# The Mersenne Twister

The generator MT19937 of 32-bit words, seeded with a list of words. Draws of any width fill words
from the least significant up, and a draw below a bound repeats until the number falls under it.
The sequence depends on the seed alone, so whatever samples from it is reproducible.
-/
namespace WordRing

/-- The 624 words of state and the place of the next one to give out. -/
structure Twister where
  words : Array UInt32
  next : Nat

namespace Twister

/-- The number of words of state. -/
def size : Nat := 624

/-- The word at an index. -/
def word (words : Array UInt32) (i : Nat) : UInt32 := words.getD i 0

/-! ## Seeding -/

/-- The state that the linear generator fills from one word. -/
def fill (seed : UInt32) : Array UInt32 :=
  (List.range (size - 1)).foldl
    (fun words i =>
      let last := word words i
      words.push ((last ^^^ (last >>> 30)) * 1812433253 + UInt32.ofNat (i + 1)))
    #[seed]

/-- One mixing step: the word at `i` takes in its predecessor, and after the last word the first
one repeats it. -/
def mixAt (factor addend : UInt32) (subtrahend : UInt32) (words : Array UInt32) (i : Nat) :
    Array UInt32 :=
  let last := word words (i - 1)
  let mixed := (word words i ^^^ ((last ^^^ (last >>> 30)) * factor)) + addend - subtrahend
  let words := words.setIfInBounds i mixed
  if i = size - 1 then words.setIfInBounds 0 mixed else words

/-- The index of the `n`-th mixing step that starts at `first`, cycling through `1 … 623`. -/
def cyclicIndex (first n : Nat) : Nat := (first - 1 + n) % (size - 1) + 1

/-- The generator seeded with a nonempty key. -/
def ofKey (key : List UInt32) : Twister :=
  let rounds := max size key.length
  let keyed := (List.range rounds).foldl
    (fun words n =>
      let j := n % key.length
      mixAt 1664525 (key.getD j 0 + UInt32.ofNat j) 0 words (cyclicIndex 1 n))
    (fill 19650218)
  let second := cyclicIndex 1 rounds
  let mixed := (List.range (size - 1)).foldl
    (fun words n =>
      let i := cyclicIndex second n
      mixAt 1566083941 0 (UInt32.ofNat i) words i)
    keyed
  { words := mixed.setIfInBounds 0 0x80000000, next := size }

/-- The generator seeded with a number below `2 ^ 32`. -/
def ofSeed (seed : Nat) : Twister := ofKey [UInt32.ofNat seed]

/-! ## Drawing -/

/-- The recurrence, applied to every word in turn. -/
def twist (words : Array UInt32) : Array UInt32 :=
  (List.range size).foldl
    (fun words i =>
      let y := (word words i &&& 0x80000000) ||| (word words ((i + 1) % size) &&& 0x7fffffff)
      let low : UInt32 := if y &&& 1 = 0 then 0 else 0x9908b0df
      words.setIfInBounds i (word words ((i + 397) % size) ^^^ (y >>> 1) ^^^ low))
    words

/-- Spreads the bits of a word of state. -/
def temper (y : UInt32) : UInt32 :=
  let y := y ^^^ (y >>> 11)
  let y := y ^^^ ((y <<< 7) &&& 0x9d2c5680)
  let y := y ^^^ ((y <<< 15) &&& 0xefc60000)
  y ^^^ (y >>> 18)

/-- The next word. -/
def draw (g : Twister) : UInt32 × Twister :=
  let g := if g.next < size then g else { words := twist g.words, next := 0 }
  (temper (word g.words g.next), { g with next := g.next + 1 })

/-- So many whole words and then the top `last` bits of one more, least significant first. -/
def drawWords (last : Nat) : Nat → Twister → Nat × Twister
  | 0, g =>
    let (w, g) := g.draw
    (w.toNat / Nat.pow 2 (32 - last), g)
  | whole + 1, g =>
    let (w, g) := g.draw
    let (rest, g) := drawWords last whole g
    (w.toNat + 0x100000000 * rest, g)

/-- A number of `bits` random bits, `bits` being positive. -/
def drawBits (bits : Nat) (g : Twister) : Nat × Twister :=
  let whole := (bits - 1) / 32
  drawWords (bits - 32 * whole) whole g

/-- A number below a positive bound: draws of the bound's own width, the first that falls under
it. After the last attempt the draw is reduced instead. -/
def drawBelow (bound : Nat) : Nat → Twister → Nat × Twister
  | 0, g =>
    let (n, g) := g.drawBits (Nat.log2 bound + 1)
    (n % bound, g)
  | attempts + 1, g =>
    let (n, g) := g.drawBits (Nat.log2 bound + 1)
    if n < bound then (n, g) else drawBelow bound attempts g

/-- How many refused draws are repeated. -/
def attempts : Nat := 19937

/-- A list of numbers below a positive bound. -/
def drawMany (bound : Nat) : Nat → Twister → List Nat
  | 0, _ => []
  | count + 1, g =>
    let (n, g) := drawBelow bound attempts g
    n :: drawMany bound count g

theorem drawBelow_lt (bound : Nat) (positive : 0 < bound) (attempts : Nat) (g : Twister) :
    (drawBelow bound attempts g).1 < bound := by
  induction attempts generalizing g with
  | zero => exact Nat.mod_lt _ positive
  | succ attempts ih =>
    rw [drawBelow]
    dsimp only
    split
    · assumption
    · exact ih _

theorem lt_of_mem_drawMany {bound : Nat} (positive : 0 < bound) {count : Nat} {g : Twister}
    {n : Nat} (h : n ∈ drawMany bound count g) : n < bound := by
  induction count generalizing g with
  | zero => simp [drawMany] at h
  | succ count ih =>
    rw [drawMany] at h
    dsimp only at h
    rcases List.mem_cons.1 h with rfl | h
    · exact drawBelow_lt bound positive _ _
    · exact ih h

end Twister

end WordRing
