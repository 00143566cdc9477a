import WordRing.Json
import WordRing.Text
import WordRing.Text.Shortest

/-!
# Values quoted in messages

The one-line form in which an error message shows the value it complains about: `None`, `True`
and `False`, numbers in decimal, `[a, b]`, `{'k': v}`, and text in quotes with what would break
the line escaped. Text stands in single quotes unless it holds one and no double quote.
-/
namespace WordRing.Json

/-- The quote that a text is put in. -/
def quoteFor (cs : List Char) : Char :=
  if cs.contains '\'' && !cs.contains '"' then '"' else '\''

/-- One character of a quoted text. -/
def quoteChar (quote c : Char) : List Char :=
  if c = '\\' ∨ c = quote then ['\\', c]
  else if c = '\n' then ['\\', 'n']
  else if c = '\r' then ['\\', 'r']
  else if c = '\t' then ['\\', 't']
  else if Text.isVisible c then [c]
  else if c.toNat < 0x100 then '\\' :: 'x' :: Digits.padded 16 2 c.toNat
  else if c.toNat < 0x10000 then '\\' :: 'u' :: Digits.padded 16 4 c.toNat
  else '\\' :: 'U' :: Digits.padded 16 8 c.toNat

/-- A text in quotes. -/
def quote (s : String) : List Char :=
  let q := quoteFor s.toList
  q :: (s.toList.flatMap (quoteChar q) ++ [q])

mutual

/-- The form of a value in a message. -/
def inspect : Json → List Char
  | null => "None".toList
  | bool true => "True".toList
  | bool false => "False".toList
  | int n => Digits.signedDecimal n
  | float x => Shortest.render x
  | str s => quote s
  | arr items => '[' :: (Text.join ", ".toList (inspectItems items) ++ [']'])
  | obj members => '\x7b' :: (Text.join ", ".toList (inspectMembers members) ++ ['\x7d'])

/-- The items of a list, each in its form. -/
def inspectItems : List Json → List (List Char)
  | [] => []
  | d :: ds => inspect d :: inspectItems ds

/-- The members of an object, each with its quoted key in front. -/
def inspectMembers : List (String × Json) → List (List Char)
  | [] => []
  | (k, v) :: rest => (quote k ++ ':' :: ' ' :: inspect v) :: inspectMembers rest

end

/-- The form of a value in a message, as a string. -/
def shown (d : Json) : String := String.ofList d.inspect

end WordRing.Json
