import WordRing.Term
import WordRing.Text.Digits
import WordRing.Text

/-!
# Written terms

A term in writing: a constant in hexadecimal with two digits for each byte of a width and a sign
in front if it is negative, a variable behind a question mark, and a node as its operator with
the operands in parentheses. Constants are not reduced, so a large one takes more digits.
-/
namespace WordRing

namespace Term

/-- A constant in writing. -/
def constText (width : Nat) : Int → List Char
  | .ofNat n => '0' :: 'x' :: Digits.padded 16 (2 * width) n
  | .negSucc n => '-' :: '0' :: 'x' :: Digits.padded 16 (2 * width) (n + 1)

/-- An operator with its operands in parentheses. -/
def nodeText (name : String) (operands : List (List Char)) : List Char :=
  name.toList ++ '(' :: (Text.join [','] operands ++ [')'])

/-- A term in writing, at a width in bytes. -/
def text (width : Nat) : Term → List Char :=
  fold (constText width) (fun x => '?' :: x.text.toList) (fun op t => nodeText op.name [t])
    (fun op ts => nodeText op.name ts)

/-- A term in writing, as a string. -/
def written (width : Nat) (t : Term) : String := String.ofList (t.text width)

@[simp] theorem text_const (width : Nat) (n : Int) : (const n).text width = constText width n := rfl

@[simp] theorem text_var (width : Nat) (x : VarName) :
    (var x).text width = '?' :: x.text.toList := rfl

@[simp] theorem text_unary (width : Nat) (op : UnaryOp) (t : Term) :
    (unary op t).text width = nodeText op.name [t.text width] := rfl

@[simp] theorem text_nary (width : Nat) (op : NaryOp) (ts : List Term) :
    (nary op ts).text width = nodeText op.name (ts.map (text width)) := by
  simp [text]

end Term

end WordRing
