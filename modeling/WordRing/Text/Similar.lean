import WordRing.Text.Order

/-!
# Similar texts

Which of a few known words an unknown one may have been meant for. Two texts match in their
longest common piece and, left and right of it, in what matches there; they are similar if at
least three fifths of their characters match.
-/
namespace WordRing.Similar

/-- The length of the longest common beginning. -/
def commonStart : List Char → List Char → Nat
  | a :: as, b :: bs => if a = b then commonStart as bs + 1 else 0
  | _, _ => 0

/-- A common piece: where it begins in either text and how long it is. -/
structure Piece where
  left : Nat
  right : Nat
  length : Nat
deriving DecidableEq, Repr

/-- The longest common piece, the earliest of several. -/
def longestPiece (a b : List Char) : Piece :=
  let starts := (List.range a.length).flatMap fun i => (List.range b.length).map fun j => (i, j)
  starts.foldl
    (fun best (i, j) =>
      let length := commonStart (a.drop i) (b.drop j)
      if best.length < length then ⟨i, j, length⟩ else best)
    ⟨0, 0, 0⟩

/-- How many characters match, looking for at most `fuel` pieces inside one another. -/
def matchedWithin : Nat → List Char → List Char → Nat
  | 0, _, _ => 0
  | fuel + 1, a, b =>
    let piece := longestPiece a b
    if piece.length = 0 then 0
    else matchedWithin fuel (a.take piece.left) (b.take piece.right) + piece.length +
      matchedWithin fuel (a.drop (piece.left + piece.length)) (b.drop (piece.right + piece.length))

/-- How many characters of two texts match. Each piece takes at least one character away. -/
def matched (a b : List Char) : Nat := matchedWithin a.length a b

/-- Whether at least three fifths of the characters of both texts match. -/
def isSimilar (a b : List Char) : Bool :=
  3 * (a.length + b.length) ≤ 10 * matched a b

/-- Orders texts by the share of characters that match a word, the greatest first; of equal shares
the later text comes first. -/
def closer (word a b : List Char) : Bool :=
  let left := matched a word * (b.length + word.length)
  let right := matched b word * (a.length + word.length)
  right < left || (left == right && Text.le b a)

/-- The at most three texts most similar to a word, in the order of texts. -/
def closest (word : String) (known : List String) : List String :=
  let w := word.toList
  let near := (known.filter fun k => isSimilar k.toList w).mergeSort
    fun a b => closer w a.toList b.toList
  (near.take 3).mergeSort fun a b => Text.le a.toList b.toList

end WordRing.Similar
