import WordRing.Json.Inspect
import WordRing.Text.Order

/-!
# Canonical JSON

One text for each value up to the order of object members: keys in the order of texts, no
insignificant blanks, and only the double quote, the backslash and the characters below a space
escaped. Equal values therefore have equal bytes whatever order their members were written in,
which is what content addressing needs.
-/
namespace WordRing.Json

/-- One character of a JSON string. -/
def escapeChar (c : Char) : List Char :=
  if c = '"' then ['\\', '"']
  else if c = '\\' then ['\\', '\\']
  else if c = '\n' then ['\\', 'n']
  else if c = '\r' then ['\\', 'r']
  else if c = '\t' then ['\\', 't']
  else if c = '\x0c' then ['\\', 'f']
  else if c = '\x08' then ['\\', 'b']
  else if c.toNat < 32 then '\\' :: 'u' :: Digits.padded 16 4 c.toNat
  else [c]

/-- A text as a JSON string. -/
def escape (s : String) : List Char := '"' :: (s.toList.flatMap escapeChar ++ ['"'])

/-- A float as a JSON number; the values that JSON has no number for are written as words. -/
def floatText : Binary64 → List Char
  | .nan => "NaN".toList
  | .infinite negative => Shortest.signed negative "Infinity".toList
  | x => Shortest.render x

/-- A leaf of the JSON grammar; lists and objects have no text here. -/
def scalarText : Json → List Char
  | null => "null".toList
  | bool true => "true".toList
  | bool false => "false".toList
  | int n => Digits.signedDecimal n
  | float x => floatText x
  | str s => escape s
  | _ => []

/-- Members in the order of their keys. -/
def sortByKey {α : Type} (members : List (String × α)) : List (String × α) :=
  members.mergeSort fun a b => Text.le a.1.toList b.1.toList

mutual

/-- The canonical text of a value, character by character. -/
def canonicalChars : Json → List Char
  | arr items => '[' :: (Text.join [','] (canonicalItems items) ++ [']'])
  | obj members =>
    let written := sortByKey (canonicalMembers members)
    '\x7b' :: (Text.join [','] (written.map fun (k, v) => escape k ++ ':' :: v) ++ ['\x7d'])
  | d => scalarText d

/-- The canonical texts of the items of a list. -/
def canonicalItems : List Json → List (List Char)
  | [] => []
  | d :: ds => canonicalChars d :: canonicalItems ds

/-- The members of an object with the canonical texts of their values. -/
def canonicalMembers : List (String × Json) → List (String × List Char)
  | [] => []
  | (k, v) :: rest => (k, canonicalChars v) :: canonicalMembers rest

end

/-- The canonical text of a value. -/
def canonical (d : Json) : String := String.ofList d.canonicalChars

end WordRing.Json
