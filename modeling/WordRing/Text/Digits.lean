/-!
# Positional numerals

Numbers written with digits `0`–`9a`–`f`, most significant first. `Digits.fixed` writes a chosen
number of digits, `Digits.count` says how many a number needs, and `Digits.padded` joins the two:
at least so many digits, more where the number needs them. Reading back (`Digits.ofDigits`)
recovers the number modulo `base ^ count`.
-/
namespace WordRing.Digits

/-- The character of one digit; a value past `f` has no digit of its own. -/
def digitChar : Nat → Char
  | 0 => '0' | 1 => '1' | 2 => '2' | 3 => '3' | 4 => '4' | 5 => '5' | 6 => '6' | 7 => '7'
  | 8 => '8' | 9 => '9' | 10 => 'a' | 11 => 'b' | 12 => 'c' | 13 => 'd' | 14 => 'e' | 15 => 'f'
  | _ => '*'

/-- The value of one hexadecimal digit, in either case. -/
def digitValue? (c : Char) : Option Nat :=
  let n := c.toNat
  if 48 ≤ n ∧ n ≤ 57 then some (n - 48)
  else if 97 ≤ n ∧ n ≤ 102 then some (n - 87)
  else if 65 ≤ n ∧ n ≤ 70 then some (n - 55)
  else none

/-- The last `count` digits of a number, in front of a text. -/
def fixedBefore (base : Nat) : Nat → Nat → List Char → List Char
  | 0, _, cs => cs
  | count + 1, n, cs => fixedBefore base count (n / base) (digitChar (n % base) :: cs)

/-- The last `count` digits of a number, most significant first. -/
def fixed (base count n : Nat) : List Char := fixedBefore base count n []

theorem fixedBefore_eq (base count n : Nat) (cs : List Char) :
    fixedBefore base count n cs = fixed base count n ++ cs := by
  induction count generalizing n cs with
  | zero => rfl
  | succ count ih =>
    rw [fixed, fixedBefore, fixedBefore, ih, ih _ [_], List.append_assoc, List.singleton_append]

@[simp] theorem fixed_zero (base n : Nat) : fixed base 0 n = [] := rfl

theorem fixed_succ (base count n : Nat) :
    fixed base (count + 1) n = fixed base count (n / base) ++ [digitChar (n % base)] := by
  rw [fixed, fixedBefore, fixedBefore_eq]

@[simp] theorem length_fixed (base count n : Nat) : (fixed base count n).length = count := by
  induction count generalizing n with
  | zero => rfl
  | succ count ih => simp [fixed_succ, ih]

/-- Digits needed for `n`, counted by dividing at most `fuel` times. -/
def countWithin (base : Nat) : Nat → Nat → Nat
  | 0, _ => 1
  | fuel + 1, n => if n < base then 1 else countWithin base fuel (n / base) + 1

/-- How many digits `n` has; zero has one. Dividing `n` times is always enough. -/
def count (base n : Nat) : Nat := countWithin base n n

/-- `n` with at least `least` digits, zeros in front. -/
def padded (base least n : Nat) : List Char := fixed base (max least (count base n)) n

/-- `n` in hexadecimal with upper-case letters and at least `least` digits. -/
def upperHex (least n : Nat) : List Char := (padded 16 least n).map Char.toUpper

/-- A natural number in decimal. -/
def decimal (n : Nat) : List Char := padded 10 1 n

/-- An integer in decimal, with a minus sign before a negative one. -/
def signedDecimal : Int → List Char
  | .ofNat n => decimal n
  | .negSucc n => '-' :: decimal (n + 1)

/-- The number a list of digits writes, or nothing when a character is no digit of the base. -/
def ofDigits (base : Nat) (cs : List Char) : Option Nat :=
  cs.foldl (fun acc c => do
    let n ← acc
    let d ← digitValue? c
    if d < base then some (n * base + d) else none) (some 0)

/-- Decimal with a comma between groups of three digits. -/
def grouped (n : Nat) : List Char :=
  let digits := decimal n
  (digits.zipIdx.flatMap fun (c, i) =>
    if i ≠ 0 ∧ (digits.length - i) % 3 = 0 then [',', c] else [c])

end WordRing.Digits
