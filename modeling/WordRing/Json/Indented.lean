import WordRing.Json.Canonical

/-!
# Indented JSON

The layout for reading: one item or member a line, two blanks for each level, members in the
order they stand. `Json.indented` writes every character above a space as it is; the other
layout, `Json.indentedAscii`, keeps to printable ASCII and writes the rest as UTF-16 units.
-/
namespace WordRing.Json

/-- A UTF-16 unit as an escape. -/
def unitEscape (unit : Nat) : List Char := '\\' :: 'u' :: Digits.padded 16 4 unit

/-- One character of a JSON string in ASCII. -/
def escapeCharAscii (c : Char) : List Char :=
  if c.toNat < 127 then escapeChar c
  else if c.toNat < 0x10000 then unitEscape c.toNat
  else unitEscape (0xD800 + (c.toNat - 0x10000) / 0x400) ++
    unitEscape (0xDC00 + (c.toNat - 0x10000) % 0x400)

/-- A text as a JSON string in ASCII. -/
def escapeAscii (s : String) : List Char := '"' :: (s.toList.flatMap escapeCharAscii ++ ['"'])

/-- A line break and the indentation of a level. -/
def lineBreak (level : Nat) : List Char := '\n' :: List.replicate (2 * level) ' '

/-- Lines between brackets, at a level. -/
def block (left right : Char) (level : Nat) (lines : List (List Char)) : List Char :=
  if lines.isEmpty then [left, right]
  else left :: (lineBreak (level + 1) ++ Text.join (',' :: lineBreak (level + 1)) lines ++
    lineBreak level ++ [right])

mutual

/-- The indented text of a value that stands at a level, strings written by `text`. -/
def layout (text : String → List Char) (level : Nat) : Json → List Char
  | str s => text s
  | arr items => block '[' ']' level (layoutItems text (level + 1) items)
  | obj members => block '\x7b' '\x7d' level (layoutMembers text (level + 1) members)
  | d => scalarText d

/-- The items of a list, each laid out at the level. -/
def layoutItems (text : String → List Char) (level : Nat) : List Json → List (List Char)
  | [] => []
  | d :: ds => layout text level d :: layoutItems text level ds

/-- The members of an object, each laid out at the level. -/
def layoutMembers (text : String → List Char) (level : Nat) :
    List (String × Json) → List (List Char)
  | [] => []
  | (k, v) :: rest => (text k ++ ':' :: ' ' :: layout text level v) :: layoutMembers text level rest

end

/-- The indented text of a value. -/
def indented (d : Json) : String := String.ofList (layout escape 0 d)

/-- The indented text of a value in ASCII. -/
def indentedAscii (d : Json) : String := String.ofList (layout escapeAscii 0 d)

end WordRing.Json
