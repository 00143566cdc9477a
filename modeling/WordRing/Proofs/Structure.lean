import WordRing.Proofs.Written
import WordRing.Term.Structure

/-!
# Structures give terms back

A structure reads back as the term it was made of, whatever base its operators are addressed
under. The base may hold slashes or end in anything: an operator's name is what stands behind the
last slash, and the names themselves hold none.
-/
namespace WordRing.Term
variable {base : String}

/-! ## Operator names -/

/-- What follows a slash is behind the last one if it holds none itself. -/
theorem afterLastSlash_eq {s name : String} {before : List Char}
    (hs : s.toList = before ++ '/' :: name.toList) (hname : '/' ∉ name.toList) :
    afterLastSlash s = name := by
  have hclean : ∀ c ∈ name.toList.reverse, decide (c ≠ '/') = true := by
    intro c hc
    refine decide_eq_true fun hslash => hname ?_
    rwa [← hslash, ← List.mem_reverse]
  rw [afterLastSlash, hs, List.reverse_append, List.reverse_cons, List.append_assoc,
    List.takeWhile_append_of_pos hclean]
  simp

theorem slash_notMem_name (o : Operator) : '/' ∉ o.name.toList := by
  intro h
  exact absurd (o.isAlpha_of_mem_name '/' h) (by decide)

/-- An operator is found again at the end of its address. -/
theorem operationName_address (base : String) (o : Operator) :
    operationName (.obj [("@id", .str (base ++ "op/" ++ o.name))]) = .ok o.name := by
  have haddress : (base ++ "op/" ++ o.name).toList =
      (base.toList ++ ['o', 'p']) ++ '/' :: o.name.toList := by
    simp
  have hlast := afterLastSlash_eq haddress (slash_notMem_name o)
  simp [operationName, hlast]

/-! ## Nodes -/

theorem node_unary (op : UnaryOp) (t : Term) : node op.name [t] = .ok (unary op t) := by
  simp [node]

theorem node_nary (op : NaryOp) (ts : List Term) : node op.name ts = .ok (nary op ts) := by
  have hname : UnaryOp.ofName? op.name = none := by cases op <;> decide
  simp [node, hname]

/-- A node reads back once its operands do. -/
theorem ofStructure_nodeStructure (o : Operator) {ds : List Json} {ts : List Term}
    (h : readItems ds = .ok ts) :
    ofStructure (toStructure.nodeStructure base o.name ds) = node o.name ts := by
  have hoperation := operationName_address base o
  have hoperands : readOperands [("@type", .str "TermNode"),
      ("operation", .obj [("@id", .str (base ++ "op/" ++ o.name))]), ("operands", .arr ds)] =
        .ok ts := by
    simp [readOperands, readList, h]
  rw [toStructure.nodeStructure, ofStructure, hoperands]
  simp [ofMembers, Json.lookup, hoperation, bind, Except.bind]

theorem readItems_map {f : Term → Json} {ts : List Term}
    (h : ∀ t ∈ ts, ofStructure (f t) = .ok t) : readItems (ts.map f) = .ok ts := by
  induction ts with
  | nil => rfl
  | cons t ts ih =>
    have htail := ih fun u hu => h u (List.mem_cons_of_mem t hu)
    simp [readItems, h t List.mem_cons_self, htail, bind, Except.bind, pure, Except.pure]

/-! ## Terms -/

/-- **A structure reads back as its term**, under every base. -/
theorem ofStructure_toStructure (base : String) (t : Term) :
    ofStructure (t.toStructure base) = .ok t := by
  induction t using induct with
  | const n => rfl
  | var x => simp [ofStructure, ofMembers, Json.lookup, variableOf]
  | unary op t ih =>
    have hoperand : readItems [t.toStructure base] = .ok [t] :=
      readItems_map (f := toStructure base) (List.forall_mem_singleton.2 ih)
    rw [toStructure_unary, ← node_unary]
    exact ofStructure_nodeStructure (.unary op) hoperand
  | nary op ts ih =>
    rw [toStructure_nary, ← node_nary]
    exact ofStructure_nodeStructure (.nary op) (readItems_map ih)

end WordRing.Term
