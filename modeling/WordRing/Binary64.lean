/-!
# Floating-point numbers

Numbers of 64 bits in the binary format. The magnitudes of the finite ones are ranked in their
order: rank 0 is zero, the next ranks are the subnormal magnitudes, and the rank of infinity stands
behind all finite ones. Every magnitude is a multiple of the least one, `2 ^ -1074`, so that
rounding is exact arithmetic on natural numbers.

## Main definitions

* `Binary64.units rank` — the magnitude of a rank, in multiples of the least one.
* `Binary64.nearest negative num den` — the number nearest to a fraction.
* `Binary64.oneMinus x` — one minus a number.
-/
namespace WordRing

/-- How many ranks stand between two powers of two. -/
def Binary64.octave : Nat := Nat.pow 2 52

/-- The rank that infinity would have. -/
def Binary64.infiniteRank : Nat := 2047 * octave

/-- A floating-point number of 64 bits. -/
inductive Binary64 where
  | nan
  | infinite (negative : Bool)
  /-- A finite number, by its sign and the rank of its magnitude. -/
  | finite (negative : Bool) (rank : Fin Binary64.infiniteRank)
deriving DecidableEq, Repr, Inhabited

namespace Binary64

/-- The distance from a magnitude to the next one. It is one unit in the first two octaves and
doubles with each octave from there. -/
def gap (rank : Nat) : Nat := Nat.pow 2 (rank / octave - 1)

/-- A magnitude in multiples of the gap above it. -/
def significand (rank : Nat) : Nat := if rank < octave then rank else octave + rank % octave

/-- A magnitude in multiples of the least one. -/
def units (rank : Nat) : Nat := significand rank * gap rank

/-- How many units make one. -/
@[irreducible] def scale : Nat := Nat.pow 2 1074

/-- The number of a sign and a rank; from the rank of infinity on it is infinite. -/
def ofRank (negative : Bool) (rank : Nat) : Binary64 :=
  if h : rank < infiniteRank then finite negative ⟨rank, h⟩ else infinite negative

/-- Zero, with a sign. -/
def zero (negative : Bool) : Binary64 := ofRank negative 0

/-- The rank of the greatest magnitude that is not above a number of units. -/
def rankBelow (n : Nat) : Nat :=
  let shift := Nat.log2 n - 52
  shift * octave + n / Nat.pow 2 shift

/-- The rank of the magnitude nearest to `num / den`, of two equally near ones the even rank. -/
def nearestRank (num den : Nat) : Nat :=
  let scaled := num * scale
  let rank := rankBelow (scaled / den)
  let sum := (units rank + units (rank + 1)) * den
  if 2 * scaled < sum ∨ (2 * scaled = sum ∧ rank % 2 = 0) then rank else rank + 1

/-- The number nearest to `num / den` or its opposite. -/
def nearest (negative : Bool) (num den : Nat) : Binary64 := ofRank negative (nearestRank num den)

/-- One minus a number, rounded. -/
def oneMinus : Binary64 → Binary64
  | nan => nan
  | infinite negative => infinite !negative
  | finite negative rank =>
    let n := units rank
    if negative then nearest false (scale + n) scale
    else if n ≤ scale then nearest false (scale - n) scale
    else nearest true (n - scale) scale

/-- The bits of a number: the sign, and then the exponent and the fraction, which together are the
rank. -/
def toBits : Binary64 → UInt64
  | nan => 0x7FF8000000000000
  | infinite negative => UInt64.ofNat (negative.toNat * Nat.pow 2 63 + infiniteRank)
  | finite negative rank => UInt64.ofNat (negative.toNat * Nat.pow 2 63 + rank)

/-- The number of the machine with the same bits. -/
def toFloat (x : Binary64) : Float := Float.ofBits x.toBits

instance : Coe Binary64 Float := ⟨toFloat⟩

end Binary64

end WordRing
