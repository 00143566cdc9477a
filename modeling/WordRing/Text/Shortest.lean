import WordRing.Binary64
import WordRing.Text.Digits

/-!
# Shortest decimals for floating-point numbers

The reals that round to a finite magnitude form an interval around it, ends included when its rank
is even. `shortest` looks for the coarsest decimal grid with a point in that interval, and on it for
the point nearest to the magnitude, by exact arithmetic on natural numbers. `render` then places the
point: positional from `10 ^ -4` up to below `10 ^ 16`, with an exponent of at least two digits
elsewhere, and always with a sign that the number is no integer.
-/
namespace WordRing.Shortest
open Binary64 (units scale)

/-- A decimal `digits · 10 ^ exponent`. -/
structure Decimal where
  digits : Nat
  exponent : Int

/-- A positive rational with the interval of reals around it that round to the same magnitude,
all in units of `1 / denominator`. -/
structure Interval where
  low : Nat
  value : Nat
  high : Nat
  denominator : Nat
  closed : Bool

/-- The rounding interval of a magnitude, from the middle below it to the middle above it. -/
def Interval.ofRank (rank : Nat) : Interval where
  low := units (rank - 1) + units rank
  value := 2 * units rank
  high := units rank + units (rank + 1)
  denominator := 2 * scale
  closed := rank % 2 = 0

/-- Whether the rational `num / den` lies in the interval. -/
def Interval.contains (i : Interval) (num den : Nat) : Bool :=
  let x := num * i.denominator
  if i.closed then i.low * den ≤ x && x ≤ i.high * den
  else i.low * den < x && x < i.high * den

/-- The power of ten just above a value below one, counted downwards. -/
def leadingZeros (value den : Nat) : Nat → Nat
  | 0 => 0
  | fuel + 1 => if den ≤ 10 * value then 0 else leadingZeros (10 * value) den fuel + 1

/-- The least `k` with `value < 10 ^ k`. A binary64 is never below `10 ^ -324`. -/
def Interval.magnitude (i : Interval) : Int :=
  if i.denominator ≤ i.value then Digits.count 10 (i.value / i.denominator)
  else - (leadingZeros i.value i.denominator 330 : Int)

/-- The point nearest to the value among its two neighbours on the grid of `10 ^ exponent`, if
one lies in the interval; of two equally near the even one. -/
def Interval.onGrid (i : Interval) (exponent : Int) : Option Decimal :=
  let up := Nat.pow 10 exponent.toNat
  let down := Nat.pow 10 (-exponent).toNat
  let unit := i.denominator * up
  let lower := i.value * down / unit
  let rest := i.value * down % unit
  let inside (n : Nat) := i.contains (n * up) down
  match inside lower, inside (lower + 1) with
  | true, true =>
    if 2 * rest < unit ∨ (2 * rest = unit ∧ lower % 2 = 0) then some ⟨lower, exponent⟩
    else some ⟨lower + 1, exponent⟩
  | true, false => some ⟨lower, exponent⟩
  | false, true => some ⟨lower + 1, exponent⟩
  | false, false => none

/-- The shortest decimal that rounds to a magnitude above zero, the nearest one of that length.
Seventeen digits always suffice. -/
def shortest (rank : Nat) : Decimal :=
  let i := Interval.ofRank rank
  let k := i.magnitude
  ((List.range 17).findSome? fun n : Nat => i.onGrid (k - n - 1)).getD ⟨0, 0⟩

/-- Drops zeros from the end of a digit string. -/
def dropZeros (digits : List Char) : List Char :=
  (digits.reverse.dropWhile (· = '0')).reverse

/-- Writes `0.d₁d₂… · 10 ^ point`, positionally while the first digit stands between the fourth
place after the point and the sixteenth before it. -/
def place (digits : List Char) (point : Int) : List Char :=
  if -4 < point ∧ point ≤ 16 then
    if point ≤ 0 then '0' :: '.' :: (List.replicate (-point).toNat '0' ++ digits)
    else
      let whole := digits.take point.toNat
      let rest := digits.drop point.toNat
      whole ++ List.replicate (point.toNat - whole.length) '0' ++
        '.' :: (if rest.isEmpty then ['0'] else rest)
  else
    let e := point - 1
    let mantissa := match digits with
      | d :: (r :: rest) => d :: '.' :: r :: rest
      | short => short
    mantissa ++ 'e' :: (if e < 0 then '-' else '+') :: Digits.padded 10 2 e.natAbs

/-- The text of a decimal above zero. -/
def Decimal.text (d : Decimal) : List Char :=
  let digits := Digits.decimal d.digits
  place (dropZeros digits) (d.exponent + digits.length)

/-- A text with a minus sign, if there is to be one. -/
def signed (negative : Bool) (cs : List Char) : List Char := if negative then '-' :: cs else cs

/-- The text of a number: for a finite one the fewest digits that read back to it. -/
def render : Binary64 → List Char
  | .nan => "nan".toList
  | .infinite negative => signed negative "inf".toList
  | .finite negative rank =>
    signed negative (if rank.val = 0 then "0.0".toList else (shortest rank).text)

end WordRing.Shortest
