import WordRing.Operator

/-!
# Terms

Syntax trees over the signature: integer constants of any size, named variables, unary nodes and
nodes on any number of operands. A term is not a value until it is evaluated, and its constants
are not tied to a ring.

## Main definitions

* `Term.fold` computes bottom up, an operand list as the list of its results. Everything that
  walks a whole term goes through it, so its four equations are all there is to unfold.
* `Term.induct` proves a property of all terms from the operands of each node.
-/
namespace WordRing

/-! ## Variable names -/

/-- Whether a character may begin a name. -/
def isNameStart (c : Char) : Bool := c.isAlpha || c = '_'

/-- Whether a character may stand inside a name. -/
def isNameChar (c : Char) : Bool := c.isAlphanum || c = '_'

/-- What may follow the first character of a name: ASCII letters, digits and underscores, and
then at most one line break. -/
def isNameRest : List Char → Bool
  | [] => true
  | ['\n'] => true
  | c :: rest => isNameChar c && isNameRest rest

/-- Whether a text is a variable name. -/
def isName (s : String) : Bool :=
  match s.toList with
  | [] => false
  | c :: rest => isNameStart c && isNameRest rest

/-- The name of a variable. -/
structure VarName where
  text : String
  isName_text : isName text = true
deriving DecidableEq

/-- The name that a text is. -/
def VarName.ofText? (s : String) : Option VarName :=
  if h : isName s = true then some ⟨s, h⟩ else none

@[simp] theorem VarName.ofText?_text (x : VarName) : VarName.ofText? x.text = some x := by
  simp [VarName.ofText?, x.isName_text]

/-! ## Terms -/

/-- A term. -/
inductive Term where
  | const (value : Int)
  | var (name : VarName)
  | unary (op : UnaryOp) (operand : Term)
  | nary (op : NaryOp) (operands : List Term)

namespace Term

/-- Two terms are compared node by node. -/
def decEq : (s t : Term) → Decidable (s = t)
  | const m, const n => if h : m = n then isTrue (h ▸ rfl) else isFalse (by simpa using h)
  | var x, var y => if h : x = y then isTrue (h ▸ rfl) else isFalse (by simpa using h)
  | unary f s, unary g t =>
    match decEq s t with
    | isTrue hst =>
      if h : f = g then isTrue (by rw [h, hst]) else isFalse (by simp [h])
    | isFalse hst => isFalse (by simp [hst])
  | nary f ss, nary g ts =>
    match decEqList ss ts with
    | isTrue hst =>
      if h : f = g then isTrue (by rw [h, hst]) else isFalse (by simp [h])
    | isFalse hst => isFalse (by simp [hst])
  | const _, var _ | const _, unary _ _ | const _, nary _ _ => isFalse (by simp)
  | var _, const _ | var _, unary _ _ | var _, nary _ _ => isFalse (by simp)
  | unary _ _, const _ | unary _ _, var _ | unary _ _, nary _ _ => isFalse (by simp)
  | nary _ _, const _ | nary _ _, var _ | nary _ _, unary _ _ => isFalse (by simp)
where
  /-- Two operand lists are compared item by item. -/
  decEqList : (ss ts : List Term) → Decidable (ss = ts)
    | [], [] => isTrue rfl
    | [], _ :: _ => isFalse (by simp)
    | _ :: _, [] => isFalse (by simp)
    | s :: ss, t :: ts =>
      match decEq s t, decEqList ss ts with
      | isTrue h, isTrue hs => isTrue (by rw [h, hs])
      | isFalse h, _ => isFalse (by simp [h])
      | _, isFalse hs => isFalse (by simp [hs])

instance : DecidableEq Term := decEq

instance : Inhabited Term := ⟨const 0⟩

section Fold
variable {α : Type} (onConst : Int → α) (onVar : VarName → α) (onUnary : UnaryOp → α → α)
  (onNary : NaryOp → List α → α)

/-- Computes bottom up, with one function for each kind of node. -/
def fold : Term → α
  | const n => onConst n
  | var x => onVar x
  | unary op t => onUnary op (fold t)
  | nary op ts => onNary op (foldAll ts)
where
  /-- The results of an operand list. -/
  foldAll : List Term → List α
    | [] => []
    | t :: ts => fold t :: foldAll ts

@[simp] theorem foldAll_eq_map (ts : List Term) :
    fold.foldAll onConst onVar onUnary onNary ts =
      ts.map (fold onConst onVar onUnary onNary) := by
  induction ts with
  | nil => rfl
  | cons t ts ih => rw [fold.foldAll, ih, List.map_cons]

@[simp] theorem fold_const (n : Int) :
    fold onConst onVar onUnary onNary (const n) = onConst n := rfl

@[simp] theorem fold_var (x : VarName) : fold onConst onVar onUnary onNary (var x) = onVar x := rfl

@[simp] theorem fold_unary (op : UnaryOp) (t : Term) :
    fold onConst onVar onUnary onNary (unary op t) =
      onUnary op (fold onConst onVar onUnary onNary t) := rfl

@[simp] theorem fold_nary (op : NaryOp) (ts : List Term) :
    fold onConst onVar onUnary onNary (nary op ts) =
      onNary op (ts.map (fold onConst onVar onUnary onNary)) := by
  rw [fold, foldAll_eq_map]

end Fold

/-- Induction over terms, with the hypothesis for every operand of a node. -/
@[elab_as_elim] theorem induct {motive : Term → Prop} (const : ∀ n, motive (.const n))
    (var : ∀ x, motive (.var x)) (unary : ∀ op t, motive t → motive (.unary op t))
    (nary : ∀ op ts, (∀ t ∈ ts, motive t) → motive (.nary op ts)) (t : Term) : motive t :=
  t.rec (motive_1 := motive) (motive_2 := fun ts => ∀ t ∈ ts, motive t) const var unary nary
    (by simp) (fun t ts ht hts u hu => (List.mem_cons.1 hu).elim (fun h => h ▸ ht) (hts u))

/-- Whether a term is a constant. -/
def isConst : Term → Bool
  | const _ => true
  | _ => false

/-- The value of a constant. -/
def constant? : Term → Option Int
  | const n => some n
  | _ => none

/-- Whether there is a constant anywhere in a term. -/
def hasConst : Term → Bool :=
  fold (fun _ => true) (fun _ => false) (fun _ b => b) (fun _ bs => bs.any id)

end Term

end WordRing
