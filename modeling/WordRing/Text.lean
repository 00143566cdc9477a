/-!
# Texts

Classes of characters, and what is done with whole texts: trimming them of a class at both ends,
joining them with a separator, and taking styling sequences out of them. Styling sequences set
colours and the like on a terminal: an escape, an opening bracket, parameters, and a letter.

## Main definitions

* `Text.isBlank`, `Text.isVisible` — characters that leave a gap, and characters that leave a mark.
* `Text.join separator texts` — texts with a separator between any two.
* `Styling.strip s` — a text as it is written to anything that is no terminal.
-/
namespace WordRing

namespace Text

/-! ## Blanks -/

/-- The code points of blanks outside `U+0009 … U+000D` and the ranges of general punctuation. -/
def otherBlanks : List Nat :=
  [0x0020, 0x0085, 0x00A0, 0x1680, 0x2028, 0x2029, 0x202F, 0x205F, 0x3000]

/-- Whether a character is a blank of any script. -/
def isBlank (c : Char) : Bool :=
  let n := c.toNat
  (0x0009 ≤ n && n ≤ 0x000D) || (0x2000 ≤ n && n ≤ 0x200A) || otherBlanks.contains n

/-- Whether a character separates files, groups, records or units. Some readers take these controls
for blanks and others do not. -/
def isInformationSeparator (c : Char) : Bool := 0x001C ≤ c.toNat && c.toNat ≤ 0x001F

/-- Drops the characters of a class at both ends. -/
def trim (p : Char → Bool) (cs : List Char) : List Char :=
  ((cs.dropWhile p).reverse.dropWhile p).reverse

/-! ## Marks -/

/-- The ranges of code points from `U+0080` on that leave no mark, by their ends: controls, format
characters, blanks, private code points and those that are no characters. A code point that may yet
be assigned counts as visible. -/
def invisibleRanges : List (Nat × Nat) :=
  [(0x0080, 0x00A0), (0x00AD, 0x00AD), (0x0600, 0x0605), (0x061C, 0x061C), (0x06DD, 0x06DD),
   (0x070F, 0x070F), (0x0890, 0x0891), (0x08E2, 0x08E2), (0x1680, 0x1680), (0x180E, 0x180E),
   (0x2000, 0x200F), (0x2028, 0x202F), (0x205F, 0x206F), (0x3000, 0x3000), (0xE000, 0xF8FF),
   (0xFDD0, 0xFDEF), (0xFEFF, 0xFEFF), (0xFFF0, 0xFFFB), (0xFFFE, 0xFFFF), (0x110BD, 0x110BD),
   (0x110CD, 0x110CD), (0x13430, 0x1343F), (0x1BCA0, 0x1BCA3), (0x1D173, 0x1D17A),
   (0x1FFFE, 0x1FFFF), (0x2FFFE, 0x2FFFF), (0x3FFFE, 0xE00FF), (0xE01F0, 0x10FFFF)]

/-- Whether a character leaves a mark, or is the space. -/
def isVisible (c : Char) : Bool :=
  let n := c.toNat
  if n < 0x0080 then 0x0020 ≤ n && n ≠ 0x007F
  else !invisibleRanges.any fun (low, high) => low ≤ n && n ≤ high

/-! ## Joining -/

/-- Texts with a separator between them. -/
def join (separator : List Char) : List (List Char) → List Char
  | [] => []
  | [t] => t
  | t :: rest => t ++ separator ++ join separator rest

@[simp] theorem join_nil (separator : List Char) : join separator [] = [] := rfl

@[simp] theorem join_singleton (separator t : List Char) : join separator [t] = t := rfl

@[simp] theorem join_cons_cons (separator t u : List Char) (rest : List (List Char)) :
    join separator (t :: u :: rest) = t ++ separator ++ join separator (u :: rest) := rfl

end Text

namespace Styling

/-! ## Styling -/

/-- Whether a character may be a parameter of a sequence. -/
def isParameter (c : Char) : Bool := c.isDigit || c = ';' || c = '?'

/-- The length of the sequence that a text begins with, if it begins with one. -/
def sequenceLength? : List Char → Option Nat
  | '\x1b' :: '[' :: rest =>
    let parameters := rest.takeWhile isParameter
    match rest.drop parameters.length with
    | c :: _ => if c.isAlpha then some (parameters.length + 3) else none
    | [] => none
  | _ => none

/-- A text without its first characters and without the sequences after them. -/
def stripAfter : Nat → List Char → List Char
  | _, [] => []
  | skipped + 1, _ :: rest => stripAfter skipped rest
  | 0, c :: rest =>
    match sequenceLength? (c :: rest) with
    | some length => stripAfter (length - 1) rest
    | none => c :: stripAfter 0 rest

/-- A text without styling sequences. -/
def strip (s : String) : String := String.ofList (stripAfter 0 s.toList)

end Styling

end WordRing
