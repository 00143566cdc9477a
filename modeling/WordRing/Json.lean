import WordRing.Binary64

/-!
# JSON values

The values of the JSON data format. Objects keep their members in the order written, and numbers
written with a point or an exponent are kept apart from integers, which may have any size.
-/
namespace WordRing

/-- A JSON value. -/
inductive Json where
  | null
  | bool (b : Bool)
  | int (n : Int)
  | float (x : Binary64)
  | str (s : String)
  | arr (items : List Json)
  | obj (members : List (String × Json))
deriving Inhabited

namespace Json

/-- The member of an object with this key. -/
def lookup (key : String) : List (String × Json) → Option Json
  | [] => none
  | (k, v) :: rest => if k = key then some v else lookup key rest

@[simp] theorem lookup_cons_self (key : String) (v : Json) (rest : List (String × Json)) :
    lookup key ((key, v) :: rest) = some v := by simp [lookup]

/-- The member of an object with this key; nothing of any other value. -/
def member? (key : String) : Json → Option Json
  | obj members => lookup key members
  | _ => none

/-- Adds a member to an object. A key that is there already keeps its place and takes the new
value. -/
def insertMember (key : String) (value : Json) : List (String × Json) → List (String × Json)
  | [] => [(key, value)]
  | (k, v) :: rest => if k = key then (k, value) :: rest else (k, v) :: insertMember key value rest

/-- The members of an object whose keys may repeat, each key once. -/
def mergeMembers (members : List (String × Json)) : List (String × Json) :=
  members.foldl (fun acc (k, v) => insertMember k v acc) []

/-- An integer that is a natural number. -/
def nat (n : Nat) : Json := int n

/-- A list of texts. -/
def strs (texts : List String) : Json := arr (texts.map str)

end Json

end WordRing
