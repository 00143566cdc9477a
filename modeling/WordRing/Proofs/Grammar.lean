import Mathlib.Data.List.Forall2
import WordRing.Proofs.Structure

/-!
# The grammar of structures

Which JSON values are structures of terms, said without reading them, and what is wrong with the
first part of a value that is none. The operands of a node come in the order given and before its
operator: an operator is unknown, or has too many operands, only once all operands are read, while
an operation that is no text and operands that are no list are found before any of them.

## Main definitions

* `Term.Denotes d t` — the value is a structure of the term.
* `Term.OwnError d e` — what is wrong with a value itself, once its operands are in order.
* `Term.FirstError d c e` — the first part that is wrong, and what is wrong with it.
-/
namespace WordRing

namespace Term
variable {members : List (String × Json)} {d c : Json} {ds before after : List Json} {s : String}
  {t : Term} {ts : List Term} {e : Error}

/-! ## Members -/

/-- The member of an object with this key, `null` if it is missing. -/
def field (key : String) (members : List (String × Json)) : Json :=
  (Json.lookup key members).getD .null

/-- What names an operation: the value itself, or what an object has under `@id`, which is empty if
it is missing. -/
def naming : Json → Json
  | .obj members => (Json.lookup "@id" members).getD (.str "")
  | d => d

/-- The operands of a node; there are none if the member is missing. -/
def operandsOf (members : List (String × Json)) : Json :=
  (Json.lookup "operands" members).getD (.arr [])

/-- A text names an operator if it is its name, or ends in a slash and its name. -/
def Names (s : String) (o : Operator) : Prop := s = o.name ∨ ∃ before, s = before ++ "/" ++ o.name

/-- An object is a node with a text for its operation and a list of operands. -/
structure IsNode (members : List (String × Json)) (s : String) (ds : List Json) : Prop where
  type : field "@type" members = .str "TermNode"
  operation : naming (field "operation" members) = .str s
  operands : operandsOf members = .arr ds

/-! ## The grammar -/

/-- The structures of a term. -/
inductive Denotes : Json → Term → Prop
  | int (n : Int) : Denotes (.int n) (.const n)
  | str (x : VarName) : Denotes (.str x.text) (.var x)
  | constant {members : List (String × Json)} {n : Int}
      (htype : field "@type" members = .str "Constant") (hvalue : field "value" members = .int n) :
      Denotes (.obj members) (.const n)
  | variable {members : List (String × Json)} {x : VarName}
      (htype : field "@type" members = .str "Variable")
      (hname : field "name" members = .str x.text) : Denotes (.obj members) (.var x)
  | unary {members : List (String × Json)} {s : String} {d : Json} {op : UnaryOp} {t : Term}
      (hnode : IsNode members s [d]) (hname : Names s (.unary op)) (hd : Denotes d t) :
      Denotes (.obj members) (.unary op t)
  | nary {members : List (String × Json)} {s : String} {ds : List Json} {op : NaryOp}
      {ts : List Term} (hnode : IsNode members s ds) (hname : Names s (.nary op))
      (hds : List.Forall₂ Denotes ds ts) : Denotes (.obj members) (.nary op ts)

/-- What is wrong with a value itself. -/
inductive OwnError : Json → Error → Prop
  | unreadable {d : Json} (hint : ∀ n, d ≠ .int n) (hstr : ∀ s, d ≠ .str s)
      (hobj : ∀ members, d ≠ .obj members) : OwnError d (.unreadableTerm d)
  | text {s : String} (h : isName s = false) : OwnError (.str s) (.variableName (.str s))
  | type {members : List (String × Json)} (hconstant : field "@type" members ≠ .str "Constant")
      (hvariable : field "@type" members ≠ .str "Variable")
      (hnode : field "@type" members ≠ .str "TermNode") :
      OwnError (.obj members) (.unknownTermType (field "@type" members))
  | constant {members : List (String × Json)} (htype : field "@type" members = .str "Constant")
      (h : ∀ n, field "value" members ≠ .int n) :
      OwnError (.obj members) (.constantNotInteger (field "value" members))
  | variable {members : List (String × Json)} (htype : field "@type" members = .str "Variable")
      (h : ∀ x : VarName, field "name" members ≠ .str x.text) :
      OwnError (.obj members) (.variableName (field "name" members))
  | operation {members : List (String × Json)} (htype : field "@type" members = .str "TermNode")
      (h : ∀ s, naming (field "operation" members) ≠ .str s) :
      OwnError (.obj members) (.operationNotText (naming (field "operation" members)))
  | operands {members : List (String × Json)} {s : String}
      (htype : field "@type" members = .str "TermNode")
      (hoperation : naming (field "operation" members) = .str s)
      (h : ∀ ds, operandsOf members ≠ .arr ds) : OwnError (.obj members) .operandsNotList
  | count {members : List (String × Json)} {s : String} {ds : List Json} {op : UnaryOp}
      (hnode : IsNode members s ds) (hds : ∀ d ∈ ds, ∃ t, Denotes d t)
      (hname : Names s (.unary op)) (hcount : ds.length ≠ 1) :
      OwnError (.obj members) (.operandCount op.name ds.length)
  | unknown {members : List (String × Json)} {s : String} {ds : List Json}
      (hnode : IsNode members s ds) (hds : ∀ d ∈ ds, ∃ t, Denotes d t)
      (hname : ∀ o, ¬Names s o) : OwnError (.obj members) (.unknownOperation (afterLastSlash s))

/-- The first part of a value that is wrong, and what is wrong with it. Operands come in their order
and before the operator of their node. -/
inductive FirstError : Json → Json → Error → Prop
  | here {d : Json} {e : Error} (h : OwnError d e) : FirstError d d e
  | operand {members : List (String × Json)} {s : String} {before after : List Json} {d c : Json}
      {e : Error} (hnode : IsNode members s (before ++ d :: after))
      (hbefore : ∀ b ∈ before, ∃ t, Denotes b t) (hd : FirstError d c e) :
      FirstError (.obj members) c e

/-! ## Names of operators -/

/-- A text is what is behind its last slash, or ends in a slash and that. -/
theorem eq_afterLastSlash_or (s : String) :
    s = afterLastSlash s ∨ ∃ before, s = before ++ "/" ++ afterLastSlash s := by
  have hsplit := List.takeWhile_append_dropWhile (p := (· ≠ '/')) (l := s.toList.reverse)
  cases hrest : s.toList.reverse.dropWhile (· ≠ '/') with
  | nil =>
    rw [hrest, List.append_nil] at hsplit
    exact .inl (by rw [afterLastSlash, hsplit, List.reverse_reverse, String.ofList_toList])
  | cons c rest =>
    obtain rfl : c = '/' := by
      have hhead := List.head?_dropWhile_not (· ≠ '/') s.toList.reverse
      rw [hrest] at hhead
      simpa using hhead
    have htext : s.toList = (s.toList.reverse.takeWhile (· ≠ '/') ++ '/' :: rest).reverse := by
      rw [← hrest, hsplit, List.reverse_reverse]
    refine .inr ⟨String.ofList rest.reverse, String.toList_injective (htext.trans ?_)⟩
    simp [afterLastSlash]

/-- A text names the operator whose name is behind its last slash. -/
theorem names_iff {o : Operator} : Names s o ↔ afterLastSlash s = o.name := by
  constructor
  · rintro (rfl | ⟨before, rfl⟩)
    · rcases eq_afterLastSlash_or o.name with h | ⟨before, h⟩
      · exact h.symm
      · refine absurd ?_ (slash_notMem_name o)
        rw [h]
        simp
    · have htext : (before ++ "/" ++ o.name).toList = before.toList ++ '/' :: o.name.toList := by
        simp
      exact afterLastSlash_eq htext (slash_notMem_name o)
  · intro h
    rw [Names, ← h]
    exact eq_afterLastSlash_or s

/-! ## What reading does -/

theorem operationName_eq (operation : Json) : operationName operation =
    match naming operation with
    | .str s => .ok (afterLastSlash s)
    | d => .error (.operationNotText d) := by
  cases operation <;> rfl

theorem readOperands_eq (members : List (String × Json)) :
    readOperands members = readList (operandsOf members) := by
  induction members with
  | nil => rfl
  | cons m members ih =>
    obtain ⟨key, value⟩ := m
    rw [readOperands, ih, operandsOf, operandsOf, Json.lookup]
    split <;> rfl

theorem ofStructure_constant (h : field "@type" members = .str "Constant") :
    ofStructure (.obj members) = constantOf (field "value" members) := by
  rw [field] at h
  simp [ofStructure, ofMembers, h, field]

theorem ofStructure_variable (h : field "@type" members = .str "Variable") :
    ofStructure (.obj members) = variableOf (field "name" members) := by
  rw [field] at h
  simp [ofStructure, ofMembers, h, field]

theorem ofStructure_termNode (h : field "@type" members = .str "TermNode") :
    ofStructure (.obj members) = (do
      let name ← operationName (field "operation" members)
      node name (← readList (operandsOf members))) := by
  rw [field] at h
  rw [ofStructure, readOperands_eq]
  simp [ofMembers, h, field]

theorem ofStructure_unknownType (hconstant : field "@type" members ≠ .str "Constant")
    (hvariable : field "@type" members ≠ .str "Variable")
    (hnode : field "@type" members ≠ .str "TermNode") :
    ofStructure (.obj members) = .error (.unknownTermType (field "@type" members)) := by
  rw [field] at hconstant hvariable hnode ⊢
  simp only [ofStructure, ofMembers]

/-- A node is read by reading its operands and then putting them under its operator. -/
theorem ofStructure_of_isNode (h : IsNode members s ds) :
    ofStructure (.obj members) = readItems ds >>= node (afterLastSlash s) := by
  rw [ofStructure_termNode h.type, operationName_eq, h.operation, h.operands, readList]
  rfl

theorem node_operandCount (op : UnaryOp) (h : ts.length ≠ 1) :
    node op.name ts = .error (.operandCount op.name ts.length) := by
  rcases ts with _ | ⟨t, _ | ⟨u, ts⟩⟩
  · simp [node]
  · exact absurd rfl h
  · simp [node]

theorem node_unknown {name : String} (h : ∀ o : Operator, name ≠ o.name) :
    node name ts = .error (.unknownOperation name) := by
  have hunary : UnaryOp.ofName? name = none :=
    List.find?_eq_none.2 fun op _ hop => h (.unary op) (of_decide_eq_true hop).symm
  have hnary : NaryOp.ofName? name = none :=
    List.find?_eq_none.2 fun op _ hop => h (.nary op) (of_decide_eq_true hop).symm
  simp [node, hunary, hnary]

/-! ## Induction over operands -/

theorem sizeOf_lookup_lt {key : String} (h : Json.lookup key members = some d) :
    sizeOf d < sizeOf members := by
  induction members with
  | nil => cases h
  | cons m members ih =>
    obtain ⟨k, v⟩ := m
    rw [Json.lookup] at h
    split at h
    · obtain rfl := Option.some.inj h
      simp only [List.cons.sizeOf_spec, Prod.mk.sizeOf_spec]
      omega
    · have hrest := ih h
      simp only [List.cons.sizeOf_spec]
      omega

/-- What holds of a value once it holds of the operands that it lists holds of every value. -/
@[elab_as_elim] theorem inductOperands {motive : Json → Prop}
    (step : ∀ d, (∀ members ds, d = .obj members → operandsOf members = .arr ds →
      ∀ x ∈ ds, motive x) → motive d) (d : Json) : motive d := by
  induction hsize : sizeOf d using Nat.strong_induction_on generalizing d with
  | _ size ih =>
    refine step d ?_
    rintro members ds rfl hoperands x hx
    refine ih (sizeOf x) ?_ x rfl
    have hitem : sizeOf x < sizeOf ds := List.sizeOf_lt_of_mem hx
    rw [operandsOf] at hoperands
    cases hlookup : Json.lookup "operands" members with
    | none =>
      rw [hlookup] at hoperands
      obtain rfl : [] = ds := Json.arr.inj hoperands
      cases hx
    | some d =>
      rw [hlookup] at hoperands
      obtain rfl : d = .arr ds := hoperands
      have hlist := sizeOf_lookup_lt hlookup
      simp only [Json.arr.sizeOf_spec] at hlist
      simp only [Json.obj.sizeOf_spec] at hsize
      omega

/-! ## Structures are read -/

theorem readItems_of_forall₂ (hds : List.Forall₂ Denotes ds ts)
    (h : ∀ d ∈ ds, ∀ t, Denotes d t → ofStructure d = .ok t) : readItems ds = .ok ts := by
  induction hds with
  | nil => rfl
  | cons hd hds ih =>
    obtain ⟨hfirst, hrest⟩ := List.forall_mem_cons.1 h
    rw [readItems, hfirst _ hd, ih hrest]
    rfl

/-- A structure reads as its term. -/
theorem ofStructure_of_denotes (h : Denotes d t) : ofStructure d = .ok t := by
  induction d using inductOperands generalizing t with
  | step d ih =>
    cases h with
    | int n => rfl
    | str x => simp [ofStructure, variableOf]
    | constant htype hvalue =>
      rw [ofStructure_constant htype, hvalue]
      rfl
    | «variable» htype hname =>
      rw [ofStructure_variable htype, hname]
      simp [variableOf]
    | unary hnode hname hd =>
      have hitems := readItems_of_forall₂ (.cons hd .nil)
        fun d hd t => ih _ _ rfl hnode.operands d hd
      rw [ofStructure_of_isNode hnode, hitems, names_iff.1 hname]
      exact node_unary _ _
    | nary hnode hname hds =>
      have hitems := readItems_of_forall₂ hds fun d hd t => ih _ _ rfl hnode.operands d hd
      rw [ofStructure_of_isNode hnode, hitems, names_iff.1 hname]
      exact node_nary _ _

theorem exists_forall₂_denotes (h : ∀ d ∈ ds, ∃ t, Denotes d t) :
    ∃ ts, List.Forall₂ Denotes ds ts := by
  induction ds with
  | nil => exact ⟨[], .nil⟩
  | cons d ds ih =>
    obtain ⟨⟨t, hd⟩, hds⟩ := List.forall_mem_cons.1 h
    obtain ⟨ts, hts⟩ := ih hds
    exact ⟨t :: ts, .cons hd hts⟩

/-! ## Other values are refused -/

theorem exists_readItems (h : ∀ d ∈ ds, ∃ t, Denotes d t) :
    ∃ ts, readItems ds = .ok ts ∧ ts.length = ds.length := by
  obtain ⟨ts, hts⟩ := exists_forall₂_denotes h
  exact ⟨ts, readItems_of_forall₂ hts fun _ _ _ => ofStructure_of_denotes, hts.length_eq.symm⟩

theorem ofStructure_of_ownError (h : OwnError d e) : ofStructure d = .error e := by
  cases h with
  | unreadable hint hstr hobj =>
    cases d with
    | int n => exact absurd rfl (hint n)
    | str s => exact absurd rfl (hstr s)
    | obj members => exact absurd rfl (hobj members)
    | _ => rfl
  | text h => simp [ofStructure, variableOf, VarName.ofText?, h]
  | type hconstant hvariable hnode => exact ofStructure_unknownType hconstant hvariable hnode
  | constant htype h =>
    rw [ofStructure_constant htype]
    cases hvalue : field "value" _ with
    | int n => exact absurd hvalue (h n)
    | _ => rfl
  | «variable» htype h =>
    rw [ofStructure_variable htype]
    cases hname : field "name" _ with
    | str s =>
      have hs : ¬isName s = true := fun hs => h ⟨s, hs⟩ hname
      simp [variableOf, VarName.ofText?, hs]
    | _ => rfl
  | operation htype h =>
    rw [ofStructure_termNode htype, operationName_eq]
    cases hnaming : naming (field "operation" _) with
    | str s => exact absurd hnaming (h s)
    | _ => rfl
  | operands htype hoperation h =>
    rw [ofStructure_termNode htype, operationName_eq, hoperation]
    cases hoperands : operandsOf _ with
    | arr ds => exact absurd hoperands (h ds)
    | _ => rfl
  | count hnode hds hname hcount =>
    obtain ⟨ts, hts, hlength⟩ := exists_readItems hds
    rw [ofStructure_of_isNode hnode, hts, names_iff.1 hname, ← hlength]
    exact node_operandCount _ (hlength ▸ hcount)
  | unknown hnode hds hname =>
    obtain ⟨ts, hts, -⟩ := exists_readItems hds
    rw [ofStructure_of_isNode hnode, hts]
    exact node_unknown fun o ho => hname o (names_iff.2 ho)

theorem readItems_of_error (hbefore : ∀ b ∈ before, ∃ t, Denotes b t)
    (hd : ofStructure d = .error e) : readItems (before ++ d :: after) = .error e := by
  induction before with
  | nil => simp [readItems, hd, bind, Except.bind]
  | cons b before ih =>
    obtain ⟨⟨t, hb⟩, hrest⟩ := List.forall_mem_cons.1 hbefore
    rw [List.cons_append, readItems, ofStructure_of_denotes hb, ih hrest]
    rfl

/-- A value is refused for the first part that is wrong. -/
theorem ofStructure_of_firstError (h : FirstError d c e) : ofStructure d = .error e := by
  induction h with
  | here h => exact ofStructure_of_ownError h
  | operand hnode hbefore _ ih =>
    rw [ofStructure_of_isNode hnode, readItems_of_error hbefore ih]
    rfl

/-! ## Every value is one or the other -/

theorem exists_first_error (h : ∀ d ∈ ds, (∃ t, Denotes d t) ∨ ∃ c e, FirstError d c e) :
    (∀ d ∈ ds, ∃ t, Denotes d t) ∨ ∃ before d after c e, ds = before ++ d :: after ∧
      (∀ b ∈ before, ∃ t, Denotes b t) ∧ FirstError d c e := by
  induction ds with
  | nil => exact .inl (by simp)
  | cons d ds ih =>
    obtain ⟨hd, hds⟩ := List.forall_mem_cons.1 h
    rcases hd with hd | ⟨c, e, hd⟩
    · rcases ih hds with hrest | ⟨before, x, after, c, e, rfl, hbefore, hx⟩
      · exact .inl (List.forall_mem_cons.2 ⟨hd, hrest⟩)
      · exact .inr ⟨d :: before, x, after, c, e, rfl, List.forall_mem_cons.2 ⟨hd, hbefore⟩, hx⟩
    · exact .inr ⟨[], d, ds, c, e, rfl, by simp, hd⟩

/-- A node whose operands are structures is one, unless its operator or their number is wrong. -/
theorem denotes_or_firstError_of_isNode (hnode : IsNode members s ds)
    (hds : ∀ d ∈ ds, ∃ t, Denotes d t) :
    (∃ t, Denotes (.obj members) t) ∨ ∃ c e, FirstError (.obj members) c e := by
  obtain ⟨ts, hts⟩ := exists_forall₂_denotes hds
  by_cases hname : ∃ o, Names s o
  · obtain ⟨o, hname⟩ := hname
    cases o with
    | unary op =>
      by_cases hcount : ds.length = 1
      · obtain ⟨d, rfl⟩ := List.length_eq_one_iff.1 hcount
        obtain ⟨t, hd⟩ := hds d List.mem_cons_self
        exact .inl ⟨_, .unary hnode hname hd⟩
      · exact .inr ⟨_, _, .here (.count hnode hds hname hcount)⟩
    | nary op => exact .inl ⟨_, .nary hnode hname hts⟩
  · exact .inr ⟨_, _, .here (.unknown hnode hds (not_exists.1 hname))⟩

/-- The form of a node is looked at before its operands. -/
theorem denotes_or_firstError_of_termNode (htype : field "@type" members = .str "TermNode")
    (h : ∀ ds, operandsOf members = .arr ds →
      ∀ d ∈ ds, (∃ t, Denotes d t) ∨ ∃ c e, FirstError d c e) :
    (∃ t, Denotes (.obj members) t) ∨ ∃ c e, FirstError (.obj members) c e := by
  by_cases hoperation : ∃ s, naming (field "operation" members) = .str s
  · obtain ⟨s, hoperation⟩ := hoperation
    by_cases hoperands : ∃ ds, operandsOf members = .arr ds
    · obtain ⟨ds, hoperands⟩ := hoperands
      have hnode : IsNode members s ds := ⟨htype, hoperation, hoperands⟩
      rcases exists_first_error (h ds hoperands) with
        hds | ⟨before, d, after, c, e, rfl, hbefore, hd⟩
      · exact denotes_or_firstError_of_isNode hnode hds
      · exact .inr ⟨c, e, .operand hnode hbefore hd⟩
    · exact .inr ⟨_, _, .here (.operands htype hoperation (not_exists.1 hoperands))⟩
  · exact .inr ⟨_, _, .here (.operation htype (not_exists.1 hoperation))⟩

/-- Every value is a structure or has a first part that is wrong. -/
theorem denotes_or_firstError (d : Json) : (∃ t, Denotes d t) ∨ ∃ c e, FirstError d c e := by
  induction d using inductOperands with
  | step d ih =>
    cases d with
    | int n => exact .inl ⟨_, .int n⟩
    | str s =>
      cases hname : isName s with
      | true => exact .inl ⟨_, .str ⟨s, hname⟩⟩
      | false => exact .inr ⟨_, _, .here (.text hname)⟩
    | obj members =>
      by_cases hconstant : field "@type" members = .str "Constant"
      · by_cases hvalue : ∃ n, field "value" members = .int n
        · obtain ⟨n, hvalue⟩ := hvalue
          exact .inl ⟨_, .constant hconstant hvalue⟩
        · exact .inr ⟨_, _, .here (.constant hconstant (not_exists.1 hvalue))⟩
      by_cases hvariable : field "@type" members = .str "Variable"
      · by_cases hname : ∃ x : VarName, field "name" members = .str x.text
        · obtain ⟨x, hname⟩ := hname
          exact .inl ⟨_, .variable hvariable hname⟩
        · exact .inr ⟨_, _, .here (.variable hvariable (not_exists.1 hname))⟩
      by_cases htype : field "@type" members = .str "TermNode"
      · exact denotes_or_firstError_of_termNode htype fun ds => ih members ds rfl
      · exact .inr ⟨_, _, .here (.type hconstant hvariable htype)⟩
    | _ => exact .inr ⟨_, _, .here (.unreadable (by simp) (by simp) (by simp))⟩

theorem ofStructure_eq_ok_iff : ofStructure d = .ok t ↔ Denotes d t := by
  refine ⟨fun h => ?_, ofStructure_of_denotes⟩
  rcases denotes_or_firstError d with ⟨u, hu⟩ | ⟨c, e, he⟩
  · obtain rfl : u = t := Except.ok.inj ((ofStructure_of_denotes hu).symm.trans h)
    exact hu
  · cases (ofStructure_of_firstError he).symm.trans h

theorem ofStructure_eq_error_iff : ofStructure d = .error e ↔ ∃ c, FirstError d c e := by
  refine ⟨fun h => ?_, fun ⟨c, hc⟩ => ofStructure_of_firstError hc⟩
  rcases denotes_or_firstError d with ⟨t, ht⟩ | ⟨c, e', he⟩
  · cases (ofStructure_of_denotes ht).symm.trans h
  · obtain rfl : e' = e := Except.error.inj ((ofStructure_of_firstError he).symm.trans h)
    exact ⟨c, he⟩

/-! ## The first part that is wrong -/

theorem FirstError.ownError (h : FirstError d c e) : OwnError c e := by
  induction h with
  | here h => exact h
  | operand _ _ _ ih => exact ih

theorem FirstError.not_denotes (h : FirstError d c e) (t : Term) : ¬Denotes d t := by
  intro ht
  cases (ofStructure_of_denotes ht).symm.trans (ofStructure_of_firstError h)

/-- A value that is wrong itself has no operand that is. -/
theorem OwnError.denotes_of_mem (h : OwnError (.obj members) e) (hnode : IsNode members s ds)
    (hd : d ∈ ds) : ∃ t, Denotes d t := by
  have htype {kind : String} (h : field "@type" members = .str kind) : kind = "TermNode" :=
    Json.str.inj (h.symm.trans hnode.type)
  cases h with
  | unreadable _ _ hobj => exact absurd rfl (hobj members)
  | type _ _ h => exact absurd hnode.type h
  | constant h => exact absurd (htype h) (by decide)
  | «variable» h => exact absurd (htype h) (by decide)
  | operation _ h => exact absurd hnode.operation (h s)
  | operands _ _ h => exact absurd hnode.operands (h ds)
  | count h hds | unknown h hds =>
    obtain rfl := Json.arr.inj (hnode.operands.symm.trans h.operands)
    exact hds d hd

/-- Two splits of a list at the first item that fails are at the same item. -/
theorem eq_of_first_split {α : Type} {p : α → Prop} {before before' after after' : List α}
    {x x' : α} (h : before ++ x :: after = before' ++ x' :: after') (hbefore : ∀ b ∈ before, p b)
    (hbefore' : ∀ b ∈ before', p b) (hx : ¬p x) (hx' : ¬p x') : x = x' := by
  induction before generalizing before' with
  | nil =>
    cases before' with
    | nil => exact (List.cons.inj h).1
    | cons b before' =>
      obtain rfl : x = b := (List.cons.inj h).1
      exact absurd (hbefore' x List.mem_cons_self) hx
  | cons b before ih =>
    obtain ⟨hb, hrest⟩ := List.forall_mem_cons.1 hbefore
    cases before' with
    | nil =>
      obtain rfl : b = x' := (List.cons.inj h).1
      exact absurd hb hx'
    | cons b' before' =>
      exact ih (List.cons.inj h).2 hrest (List.forall_mem_cons.1 hbefore').2

/-- There is one first part that is wrong. -/
theorem FirstError.unique {c' : Json} {e' : Error} (h : FirstError d c e)
    (h' : FirstError d c' e') : c = c' := by
  induction h with
  | here h =>
    cases h' with
    | here => rfl
    | operand hnode _ hd =>
      obtain ⟨t, ht⟩ := h.denotes_of_mem hnode (List.mem_append_right _ List.mem_cons_self)
      exact absurd ht (hd.not_denotes t)
  | operand hnode hbefore hd ih =>
    cases h' with
    | here h' =>
      obtain ⟨t, ht⟩ := h'.denotes_of_mem hnode (List.mem_append_right _ List.mem_cons_self)
      exact absurd ht (hd.not_denotes t)
    | operand hnode' hbefore' hd' =>
      have hds := Json.arr.inj (hnode.operands.symm.trans hnode'.operands)
      obtain rfl := eq_of_first_split hds hbefore hbefore' (not_exists.2 hd.not_denotes)
        (not_exists.2 hd'.not_denotes)
      exact ih hd'

/-! ## Reading -/

/-- Something is wrong with the form of a value, and not with the name of an operator. -/
def IsMalformed : Error → Prop
  | .unreadableTerm _ | .constantNotInteger _ | .variableName _ | .unknownTermType _
  | .operationNotText _ | .operandsNotList | .operandCount _ _ => True
  | _ => False

theorem OwnError.isMalformed_or (h : OwnError d e) :
    IsMalformed e ∨ ∃ name, e = .unknownOperation name := by
  cases h with
  | unknown => exact .inr ⟨_, rfl⟩
  | _ => exact .inl trivial

/-- **Reading accepts the structures of terms and nothing else.** A value reads as the term that it
is a structure of. Any other value is refused for the first part that is wrong, and it is refused
for its form or for an unknown operator; the latter only at a node whose operands all are
structures and whose operation ends in none of the seven names. -/
theorem ofStructure_accepts (d : Json) :
    (∀ t, ofStructure d = .ok t ↔ Denotes d t) ∧
    (∀ e, ofStructure d = .error e ↔ ∃! c, FirstError d c e) ∧
    (∀ e, ofStructure d = .error e → IsMalformed e ∨ ∃ name, e = .unknownOperation name) ∧
    ∀ name, ofStructure d = .error (.unknownOperation name) → ∃ members s ds,
      FirstError d (.obj members) (.unknownOperation name) ∧ IsNode members s ds ∧
      name = afterLastSlash s ∧ (∀ o : Operator, name ≠ o.name) ∧ ∀ x ∈ ds, ∃ t, Denotes x t := by
  refine ⟨fun t => ofStructure_eq_ok_iff, fun e => ?_, fun e h => ?_, fun name h => ?_⟩
  · rw [ofStructure_eq_error_iff]
    exact ⟨fun ⟨c, hc⟩ => ⟨c, hc, fun _ hc' => hc'.unique hc⟩, ExistsUnique.exists⟩
  · obtain ⟨c, hc⟩ := ofStructure_eq_error_iff.1 h
    exact hc.ownError.isMalformed_or
  · obtain ⟨c, hc⟩ := ofStructure_eq_error_iff.1 h
    cases hc.ownError with
    | unknown hnode hds hname =>
      exact ⟨_, _, _, hc, hnode, rfl, fun o ho => hname o (names_iff.2 ho), hds⟩

/-- An unknown operator over structures, beside an operand that comes later and is none. -/
theorem ofStructure_accepts_nand :
    let inner := [("@type", Json.str "TermNode"), ("operation", .str "op/nand"),
      ("operands", .arr [.int 5, .str "x"])]
    let outer := Json.obj [("@type", .str "TermNode"), ("operation", .str "neg"),
      ("operands", .arr [.obj inner, .null])]
    ofStructure outer = .error (.unknownOperation "nand") ∧
      (∃! c, FirstError outer c (.unknownOperation "nand")) ∧
      ∃ members s ds, FirstError outer (.obj members) (.unknownOperation "nand") ∧
        IsNode members s ds ∧ "nand" = afterLastSlash s ∧ (∀ o : Operator, "nand" ≠ o.name) ∧
        ∀ x ∈ ds, ∃ t, Denotes x t := by
  intro inner outer
  have houter : ofStructure outer = .error (.unknownOperation "nand") := by rfl
  exact ⟨houter, ((ofStructure_accepts outer).2.1 _).1 houter,
    (ofStructure_accepts outer).2.2.2 _ houter⟩

end Term

end WordRing
