import WordRing.Term.Candidate

/-!
# Terms as structures

A term as a JSON value: an object for each node, its kind under `@type`. An operation is named by
an address that ends in the operator's name. Reading also takes bare integers for constants, bare
texts for variables and bare names for operations; the operands of a node are read from left to
right before its operator is looked up.
-/
namespace WordRing

namespace Term

/-- The structure of a term, operators addressed under a base. -/
def toStructure (base : String) : Term → Json :=
  fold
    (fun n => .obj [("@type", .str "Constant"), ("value", .int n)])
    (fun x => .obj [("@type", .str "Variable"), ("name", .str x.text)])
    (fun op operand => nodeStructure op.name [operand])
    (fun op operands => nodeStructure op.name operands)
where
  /-- The structure of a node. -/
  nodeStructure (name : String) (operands : List Json) : Json :=
    .obj [("@type", .str "TermNode"), ("operation", .obj [("@id", .str (base ++ "op/" ++ name))]),
      ("operands", .arr operands)]

@[simp] theorem toStructure_const (base : String) (n : Int) :
    (const n).toStructure base = .obj [("@type", .str "Constant"), ("value", .int n)] := rfl

@[simp] theorem toStructure_var (base : String) (x : VarName) :
    (var x).toStructure base = .obj [("@type", .str "Variable"), ("name", .str x.text)] := rfl

@[simp] theorem toStructure_unary (base : String) (op : UnaryOp) (t : Term) :
    (unary op t).toStructure base = toStructure.nodeStructure base op.name [t.toStructure base] :=
  rfl

@[simp] theorem toStructure_nary (base : String) (op : NaryOp) (ts : List Term) :
    (nary op ts).toStructure base =
      toStructure.nodeStructure base op.name (ts.map (toStructure base)) := by
  simp [toStructure]

/-- The part of a text after its last slash. -/
def afterLastSlash (s : String) : String :=
  String.ofList (s.toList.reverse.takeWhile (· ≠ '/')).reverse

/-- The operator name that an operation gives: a text, or an object with a text under `@id`. -/
def operationName (operation : Json) : Except Error String :=
  let named := match operation with
    | .obj members => (Json.lookup "@id" members).getD (.str "")
    | d => d
  match named with
  | .str s => .ok (afterLastSlash s)
  | d => .error (.operationNotText d)

/-- The term of an object with these members, whose operands read as given. -/
def ofMembers (members : List (String × Json)) (operands : Except Error (List Term)) :
    Except Error Term :=
  let get (key : String) := (Json.lookup key members).getD .null
  match get "@type" with
  | .str "Constant" => constantOf (get "value")
  | .str "Variable" => variableOf (get "name")
  | .str "TermNode" => do
    let name ← operationName (get "operation")
    node name (← operands)
  | kind => .error (.unknownTermType kind)

mutual

/-- The term of a structure. -/
def ofStructure : Json → Except Error Term
  | .int n => .ok (.const n)
  | .str s => variableOf (.str s)
  | .obj members => ofMembers members (readOperands members)
  | d => .error (.unreadableTerm d)

/-- The operands among the members of an object; there are none if the member is missing. -/
def readOperands : List (String × Json) → Except Error (List Term)
  | [] => .ok []
  | (key, value) :: rest => if key = "operands" then readList value else readOperands rest

/-- The terms of a list of structures. -/
def readList : Json → Except Error (List Term)
  | .arr items => readItems items
  | _ => .error .operandsNotList

/-- The terms of structures, from left to right. -/
def readItems : List Json → Except Error (List Term)
  | [] => .ok []
  | d :: ds => do
    let t ← ofStructure d
    let ts ← readItems ds
    return t :: ts

end

end Term

end WordRing
