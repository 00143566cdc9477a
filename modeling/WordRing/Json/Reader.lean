import WordRing.Json
import WordRing.Text.Digits

/-!
# Reading JSON

`Json.parse?` reads a whole text as one value. Beyond the JSON grammar it admits the words `NaN`,
`Infinity` and `-Infinity`; a repeated key keeps its first place and takes its last value. A
reader takes characters off the front and returns what is left. The nesting of a value is
bounded by the length of its text, which is where the fuel comes from.
-/
namespace WordRing.Json

/-- Drops blanks, tabs and line breaks. -/
def skipBlanks (cs : List Char) : List Char :=
  cs.dropWhile fun c => c = ' ' ∨ c = '\t' ∨ c = '\n' ∨ c = '\r'

/-- Whether a character is one of the ten ASCII digits. -/
def isDigit (c : Char) : Bool := 48 ≤ c.toNat && c.toNat ≤ 57

/-- The leading digits of a text. -/
def spanDigits (cs : List Char) : List Char × List Char :=
  (cs.takeWhile isDigit, cs.dropWhile isDigit)

/-- The number that decimal digits write. -/
def digitsValue (cs : List Char) : Nat :=
  cs.foldl (fun n c => 10 * n + (c.toNat - 48)) 0

/-- The text after a word, if the text begins with it. -/
def afterWord (word : String) (cs : List Char) : Option (List Char) :=
  let w := word.toList
  if w.isPrefixOf cs then some (cs.drop w.length) else none

/-! ## Strings -/

/-- Four hexadecimal digits. -/
def readUnit : List Char → Option (Nat × List Char)
  | a :: b :: c :: d :: rest => do return (← Digits.ofDigits 16 [a, b, c, d], rest)
  | _ => none

/-- The character of a code point; a lone half of a surrogate pair reads as the replacement
character. -/
def charOf (n : Nat) : Char := if n.isValidChar then Char.ofNat n else '\ufffd'

/-- The character after `\u`: one UTF-16 unit, or two that form a pair. -/
def readEscapedUnits (cs : List Char) : Option (Char × List Char) := do
  let (high, rest) ← readUnit cs
  if 0xD800 ≤ high ∧ high < 0xDC00 then
    match rest with
    | '\\' :: 'u' :: more =>
      match readUnit more with
      | some (low, after) =>
        if 0xDC00 ≤ low ∧ low < 0xE000 then
          return (charOf (0x10000 + (high - 0xD800) * 0x400 + (low - 0xDC00)), after)
        else return (charOf high, rest)
      | none => return (charOf high, rest)
    | _ => return (charOf high, rest)
  else return (charOf high, rest)

/-- The rest of a string after its opening quote, with the characters read so far in reverse. -/
def readString : Nat → List Char → List Char → Option (String × List Char)
  | 0, _, _ => none
  | fuel + 1, acc, cs =>
    match cs with
    | [] => none
    | '"' :: rest => some (String.ofList acc.reverse, rest)
    | '\\' :: 'u' :: rest => do
      let (c, rest) ← readEscapedUnits rest
      readString fuel (c :: acc) rest
    | '\\' :: c :: rest =>
      match c with
      | '"' => readString fuel ('"' :: acc) rest
      | '\\' => readString fuel ('\\' :: acc) rest
      | '/' => readString fuel ('/' :: acc) rest
      | 'b' => readString fuel ('\x08' :: acc) rest
      | 'f' => readString fuel ('\x0c' :: acc) rest
      | 'n' => readString fuel ('\n' :: acc) rest
      | 'r' => readString fuel ('\r' :: acc) rest
      | 't' => readString fuel ('\t' :: acc) rest
      | _ => none
    | c :: rest => if c.toNat < 32 then none else readString fuel (c :: acc) rest

/-! ## Numbers -/

/-- The float nearest to `digits · 10 ^ exponent` or its opposite. Past the range of floats the
exponent no longer matters, so that it is never expanded. -/
def floatOf (negative : Bool) (digits : Nat) (exponent : Int) : Binary64 :=
  if digits = 0 then .zero negative
  else
    let top := exponent + Digits.count 10 digits
    if 310 < top then .infinite negative
    else if top < -330 then .zero negative
    else .nearest negative (digits * Nat.pow 10 exponent.toNat) (Nat.pow 10 (-exponent).toNat)

/-- A point and digits after it, if both are there. -/
def readFraction : List Char → List Char × List Char
  | '.' :: rest =>
    match spanDigits rest with
    | ([], _) => ([], '.' :: rest)
    | (digits, after) => (digits, after)
  | cs => ([], cs)

/-- The digits of an exponent after its mark and sign, if there are any. -/
def readExponentDigits (negative : Bool) (cs : List Char) : Option (Int × List Char) :=
  match spanDigits cs with
  | ([], _) => none
  | (digits, after) =>
    let e : Int := digitsValue digits
    some (if negative then -e else e, after)

/-- An exponent, if one is there in full. -/
def readExponent (cs : List Char) : Option (Int × List Char) :=
  match cs with
  | mark :: rest =>
    if mark = 'e' ∨ mark = 'E' then
      match rest with
      | '-' :: digits => readExponentDigits true digits
      | '+' :: digits => readExponentDigits false digits
      | digits => readExponentDigits false digits
    else none
  | [] => none

/-- The digits before the point, with no superfluous zero in front. -/
def readWhole : List Char → Option (List Char × List Char)
  | '0' :: rest => some (['0'], rest)
  | c :: rest => if isDigit c then some (spanDigits (c :: rest)) else none
  | [] => none

/-- A number without its sign: whole digits, then a fraction and an exponent where they are
complete. -/
def readUnsigned (negative : Bool) (cs : List Char) : Option (Json × List Char) := do
  let (whole, rest) ← readWhole cs
  let (fraction, rest) := readFraction rest
  let found := readExponent rest
  if fraction.isEmpty ∧ found.isNone then
    let n : Int := digitsValue whole
    return (int (if negative then -n else n), rest)
  let (e, rest) := found.getD (0, rest)
  return (float (floatOf negative (digitsValue (whole ++ fraction)) (e - fraction.length)), rest)

/-- A word or a number. -/
def readScalar (cs : List Char) : Option (Json × List Char) :=
  (afterWord "null" cs).map (null, ·)
    <|> (afterWord "true" cs).map (bool true, ·)
    <|> (afterWord "false" cs).map (bool false, ·)
    <|> (afterWord "NaN" cs).map (float .nan, ·)
    <|> (afterWord "Infinity" cs).map (float (.infinite false), ·)
    <|> (afterWord "-Infinity" cs).map (float (.infinite true), ·)
    <|> match cs with
      | '-' :: rest => readUnsigned true rest
      | rest => readUnsigned false rest

/-! ## Values -/

mutual

/-- A value at the front of a text, blanks before it dropped. -/
def readValue : Nat → List Char → Option (Json × List Char)
  | 0, _ => none
  | fuel + 1, cs =>
    match skipBlanks cs with
    | '"' :: rest => do
      let (s, rest) ← readString fuel [] rest
      return (str s, rest)
    | '[' :: rest =>
      match skipBlanks rest with
      | ']' :: rest => some (arr [], rest)
      | rest => do
        let (items, rest) ← readItems fuel rest
        return (arr items, rest)
    | '\x7b' :: rest =>
      match skipBlanks rest with
      | '\x7d' :: rest => some (obj [], rest)
      | rest => do
        let (members, rest) ← readMembers fuel rest
        return (obj (mergeMembers members), rest)
    | rest => readScalar rest

/-- The items of a list up to its closing bracket; there is at least one. -/
def readItems : Nat → List Char → Option (List Json × List Char)
  | 0, _ => none
  | fuel + 1, cs => do
    let (item, rest) ← readValue fuel cs
    match skipBlanks rest with
    | ']' :: rest => return ([item], rest)
    | ',' :: rest =>
      let (items, rest) ← readItems fuel rest
      return (item :: items, rest)
    | _ => none

/-- The members of an object up to its closing brace; there is at least one. -/
def readMembers : Nat → List Char → Option (List (String × Json) × List Char)
  | 0, _ => none
  | fuel + 1, cs => do
    match skipBlanks cs with
    | '"' :: rest =>
      let (key, rest) ← readString fuel [] rest
      match skipBlanks rest with
      | ':' :: rest =>
        let (value, rest) ← readValue fuel rest
        match skipBlanks rest with
        | '\x7d' :: rest => return ([(key, value)], rest)
        | ',' :: rest =>
          let (members, rest) ← readMembers fuel rest
          return ((key, value) :: members, rest)
        | _ => none
      | _ => none
    | _ => none

end

/-- The value that a whole text writes. Two steps of fuel pay for each character that is consumed,
so a string inside finds more fuel than characters left. -/
def parse? (text : String) : Option Json := do
  let cs := text.toList
  let (value, rest) ← readValue (2 * cs.length + 2) cs
  if (skipBlanks rest).isEmpty then some value else none

end WordRing.Json
