import WordRing.Proofs.Canonical.Rules

/-!
# Rules in any order

A pass may apply the rules in any order, some of them several times and some not at all. On terms
without empty conjunctions it keeps the value whatever the order. On an empty conjunction the order
matters: dropping identities makes the mask of it and cancelling copies makes zero, and the other
rules leave it to them, so what counts is which of the two comes first.

## Main definitions

* `Rule.applyEach q rules t` — rules at the root of `t`, one after another.
* `Rule.dropsFirst rules` — no copies are cancelled before identities are dropped.
* `Term.passWith q rules t` — a pass over `t` that applies these rules at every node.
* `Term.EvaluatesAlike r t u` — the ring evaluates both terms and to one word.
-/
namespace WordRing

namespace Rule
variable (q : Quantum)

/-- Rules at the root of a term, one after another. -/
def applyEach (rules : List Rule) (t : Term) : Term := rules.foldl (fun t rule => rule.apply q t) t

@[simp] theorem applyEach_nil (t : Term) : applyEach q [] t = t := rfl

@[simp] theorem applyEach_cons (rule : Rule) (rules : List Rule) (t : Term) :
    applyEach q (rule :: rules) t = applyEach q rules (rule.apply q t) := rfl

/-- Whether no copies are cancelled before identities have been dropped. -/
def dropsFirst : List Rule → Bool
  | [] => true
  | identityElimination :: _ => true
  | selfCancellation :: _ => false
  | _ :: rules => dropsFirst rules

theorem dropsFirst_cons {rule : Rule} {rules : List Rule} (hdrop : rule ≠ identityElimination)
    (hcancel : rule ≠ selfCancellation) : dropsFirst (rule :: rules) = dropsFirst rules := by
  cases rule with
  | identityElimination => exact absurd rfl hdrop
  | selfCancellation => exact absurd rfl hcancel
  | _ => rfl

/-- Either identities are dropped or no copies are cancelled at all. -/
theorem mem_or_not_mem_of_dropsFirst {rules : List Rule} (h : dropsFirst rules = true) :
    identityElimination ∈ rules ∨ selfCancellation ∉ rules := by
  induction rules with
  | nil => exact .inr List.not_mem_nil
  | cons rule rules ih =>
    by_cases hdrop : rule = identityElimination
    · exact .inl (hdrop ▸ List.mem_cons_self)
    · by_cases hcancel : rule = selfCancellation
      · subst hcancel
        exact absurd h Bool.false_ne_true
      · rw [dropsFirst_cons hdrop hcancel] at h
        refine (ih h).imp (List.mem_cons_of_mem rule) ?_
        exact List.not_mem_cons_of_ne_of_not_mem (Ne.symm hcancel)

end Rule

namespace Term
variable {q : Quantum} {s : VarName → Int} {op : NaryOp} {t u : Term} {ts : List Term}
  {rules : List Rule}

/-! ## Rules one after another -/

theorem occupied_applyEach (h : Occupied t) : Occupied (Rule.applyEach q rules t) := by
  induction rules generalizing t with
  | nil => exact h
  | cons rule rules ih => exact ih (occupied_apply rule h)

/-- On a term without empty conjunctions rules keep the value in any order. -/
theorem value_applyEach_of_occupied (h : Occupied t) :
    (Rule.applyEach q rules t).value q s = t.value q s := by
  induction rules generalizing t with
  | nil => rfl
  | cons rule rules ih =>
    rw [Rule.applyEach_cons, ih (occupied_apply rule h), value_apply rule (.inr h.root)]

theorem value_applyEach_of_not_mem (h : .selfCancellation ∉ rules) :
    (Rule.applyEach q rules t).value q s = t.value q s := by
  induction rules generalizing t with
  | nil => rfl
  | cons rule rules ih =>
    obtain ⟨hrule, hrules⟩ := List.ne_and_not_mem_of_not_mem_cons h
    rw [Rule.applyEach_cons, ih hrules, value_apply rule (.inl hrule.symm)]

theorem occupied_applyEach_nary_nil (h : .identityElimination ∈ rules) :
    Occupied (Rule.applyEach q rules (nary .and [])) := by
  induction rules with
  | nil => exact nomatch h
  | cons rule rules ih =>
    rw [Rule.applyEach_cons]
    by_cases hdrop : rule = .identityElimination
    · rw [hdrop, apply_identityElimination_nary_nil]
      exact occupied_applyEach (occupied_const _)
    · by_cases hcancel : rule = .selfCancellation
      · rw [hcancel, apply_selfCancellation_nary_nil]
        exact occupied_applyEach (occupied_const _)
      · rw [apply_nary_nil hdrop hcancel]
        exact ih (List.mem_of_ne_of_mem (Ne.symm hdrop) h)

/-- **An empty conjunction keeps its value exactly if identities are dropped first.** -/
theorem value_applyEach_nary_nil_iff :
    (Rule.applyEach q rules (nary .and [])).value q s = (nary .and []).value q s ↔
      Rule.dropsFirst rules = true := by
  induction rules with
  | nil => exact iff_of_true rfl rfl
  | cons rule rules ih =>
    rw [Rule.applyEach_cons]
    by_cases hdrop : rule = .identityElimination
    · subst hdrop
      refine iff_of_true ?_ rfl
      rw [apply_identityElimination_nary_nil, value_applyEach_of_occupied (occupied_const _),
        value_nary, total_nil]
      rfl
    · by_cases hcancel : rule = .selfCancellation
      · subst hcancel
        refine iff_of_false ?_ Bool.false_ne_true
        rw [apply_selfCancellation_nary_nil, value_applyEach_of_occupied (occupied_const _)]
        exact value_nary_nil_ne q s
      · rw [apply_nary_nil hdrop hcancel, ih, Rule.dropsFirst_cons hdrop hcancel]

/-- A node may be an empty conjunction itself if identities are dropped first. -/
theorem value_applyEach_nary (op : NaryOp) (hdrop : Rule.dropsFirst rules = true)
    (h : ∀ t ∈ ts, Occupied t) :
    (Rule.applyEach q rules (nary op ts)).value q s = (nary op ts).value q s := by
  by_cases hroot : nary op ts = nary .and []
  · rw [hroot]
    exact value_applyEach_nary_nil_iff.2 hdrop
  · exact value_applyEach_of_occupied ((everywhere_nary op ts).2 ⟨hroot, h⟩)

/-! ## Passes -/

/-- A pass over a whole term with any rules in any order. -/
def passWith (q : Quantum) (rules : List Rule) : Term → Term :=
  fold (fun n => Rule.applyEach q rules (const n)) (fun x => Rule.applyEach q rules (var x))
    (fun op t => Rule.applyEach q rules (unary op t))
    (fun op ts => Rule.applyEach q rules (nary op ts))

theorem passWith_all (q : Quantum) : passWith q Rule.all = pass q := rfl

@[simp] theorem passWith_const (rules : List Rule) (n : Int) :
    (const n).passWith q rules = Rule.applyEach q rules (const n) := rfl

@[simp] theorem passWith_var (rules : List Rule) (x : VarName) :
    (var x).passWith q rules = Rule.applyEach q rules (var x) := rfl

@[simp] theorem passWith_unary (rules : List Rule) (op : UnaryOp) (t : Term) :
    (unary op t).passWith q rules = Rule.applyEach q rules (unary op (t.passWith q rules)) := rfl

@[simp] theorem passWith_nary (rules : List Rule) (op : NaryOp) (ts : List Term) :
    (nary op ts).passWith q rules =
      Rule.applyEach q rules (nary op (ts.map (passWith q rules))) := by
  simp [passWith]

/-- A pass that drops identities leaves no empty conjunction. -/
theorem occupied_passWith (h : .identityElimination ∈ rules) (t : Term) :
    Occupied (t.passWith q rules) := by
  induction t using induct with
  | const n => exact occupied_applyEach (occupied_const n)
  | var x => exact occupied_applyEach (occupied_var x)
  | unary op t ih => exact occupied_applyEach ((occupied_unary op).2 ih)
  | nary op ts ih =>
    rw [passWith_nary]
    by_cases hroot : nary op (ts.map (passWith q rules)) = nary .and []
    · rw [hroot]
      exact occupied_applyEach_nary_nil h
    · exact occupied_applyEach ((everywhere_nary op _).2 ⟨hroot, List.forall_mem_map.2 ih⟩)

/-- **A pass that drops identities first keeps the value of every term.** -/
theorem value_passWith (hdrop : Rule.dropsFirst rules = true) (t : Term) :
    (t.passWith q rules).value q s = t.value q s := by
  have hcases := Rule.mem_or_not_mem_of_dropsFirst hdrop
  induction t using induct with
  | const n => exact value_applyEach_of_occupied (occupied_const n)
  | var x => exact value_applyEach_of_occupied (occupied_var x)
  | unary op t ih =>
    rw [passWith_unary, value_unary, ← ih, ← value_unary]
    rcases hcases with hmem | hnone
    · exact value_applyEach_of_occupied ((occupied_unary op).2 (occupied_passWith hmem t))
    · exact value_applyEach_of_not_mem hnone
  | nary op ts ih =>
    rw [passWith_nary, value_nary, ← total_map ih, ← value_nary]
    rcases hcases with hmem | hnone
    · refine value_applyEach_nary op hdrop (List.forall_mem_map.2 fun t _ => ?_)
      exact occupied_passWith hmem t
    · exact value_applyEach_of_not_mem hnone

/-- Where no conjunction is empty, a pass keeps the value in any order of the rules. -/
theorem value_passWith_of_occupied (h : Occupied t) :
    Occupied (t.passWith q rules) ∧ (t.passWith q rules).value q s = t.value q s := by
  have hnode {u v : Term} (hu : Occupied u) (hvalue : u.value q s = v.value q s) :
      Occupied (Rule.applyEach q rules u) ∧
        (Rule.applyEach q rules u).value q s = v.value q s :=
    ⟨occupied_applyEach hu, (value_applyEach_of_occupied hu).trans hvalue⟩
  induction t using induct with
  | const n => exact hnode h rfl
  | var x => exact hnode h rfl
  | unary op t ih =>
    obtain ⟨hpassed, hvalue⟩ := ih ((occupied_unary op).1 h)
    rw [passWith_unary]
    exact hnode ((occupied_unary op).2 hpassed) (congrArg op.apply hvalue)
  | nary op ts ih =>
    obtain ⟨hroot, hts⟩ := (everywhere_nary op ts).1 h
    have hpassed (t : Term) (ht : t ∈ ts) := ih t ht (hts t ht)
    rw [passWith_nary]
    refine hnode ((everywhere_nary op _).2 ⟨?_, ?_⟩) ?_
    · intro heq
      obtain ⟨rfl, hnil⟩ := nary.inj heq
      exact hroot (by rw [List.map_eq_nil_iff.1 hnil])
    · exact List.forall_mem_map.2 fun t ht => (hpassed t ht).1
    · rw [value_nary, value_nary, total_map fun t ht => (hpassed t ht).2]

/-! ## Evaluation -/

/-- Whatever constants stand for the variables, the ring evaluates both terms, and to one word. -/
def EvaluatesAlike (r : ByteRing) (t u : Term) : Prop :=
  ∀ s : VarName → Int, ∃ b, r.evaluate (t.instantiate s) = .ok b ∧
    r.evaluate (u.instantiate s) = .ok b

theorem evaluatesAlike_iff {verified : Bool} :
    EvaluatesAlike { ByteRing.sound q with verified } t u ↔
      ∀ s : VarName → Int, t.value q s = u.value q s := by
  refine forall_congr' fun s => ?_
  rw [ByteRing.evaluate_instantiate, ByteRing.evaluate_instantiate]
  constructor
  · rintro ⟨b, ht, hu⟩
    exact Except.ok.inj (ht.trans hu.symm)
  · intro h
    exact ⟨_, rfl, by rw [h]⟩

/-- **Every rule is sound on its own, with one exception**: cancelling copies in a conjunction
without operands. So a pass is sound on every term exactly for those orders of the rules that drop
identities before they cancel copies, the one of `pass` among them, and on terms without empty
conjunctions for every order. -/
theorem evaluatesAlike_rules (q : Quantum) (verified : Bool) :
    let r : ByteRing := { ByteRing.sound q with verified }
    (∀ (rule : Rule) (t : Term), EvaluatesAlike r (rule.apply q t) t ↔
      ¬ (rule = .selfCancellation ∧ t = nary .and [])) ∧
    (∀ rules : List Rule, (∀ t, EvaluatesAlike r (t.passWith q rules) t) ↔
      Rule.dropsFirst rules = true) ∧
    (∀ (rules : List Rule) (t : Term), Occupied t → EvaluatesAlike r (t.passWith q rules) t) ∧
    passWith q Rule.all = pass q ∧ Rule.dropsFirst Rule.all = true := by
  intro r
  refine ⟨?_, ?_, ?_, passWith_all q, rfl⟩
  · intro rule t
    rw [evaluatesAlike_iff]
    constructor
    · rintro hvalue ⟨rfl, rfl⟩
      exact value_nary_nil_ne q (fun _ => 0) (hvalue _)
    · intro h s
      exact value_apply rule (not_and_or.1 h)
  · intro rules
    constructor
    · intro h
      have hnil := evaluatesAlike_iff.1 (h (nary .and [])) fun _ => 0
      rw [passWith_nary, List.map_nil] at hnil
      exact value_applyEach_nary_nil_iff.1 hnil
    · intro hdrop t
      exact evaluatesAlike_iff.2 fun s => value_passWith hdrop t
  · intro rules t h
    exact evaluatesAlike_iff.2 fun s => (value_passWith_of_occupied h).2

/-- A conjunction of nothing evaluates to the mask, and cancelling copies makes zero of it. -/
theorem evaluate_cancelCopies_ne :
    let r : ByteRing := { ByteRing.sound ⟨0⟩ with verified := true }
    Rule.selfCancellation.apply ⟨0⟩ (nary .and []) = const 0 ∧
    r.evaluate (nary .and []) = .ok [0xFF] ∧ r.evaluate (const 0) = .ok [0] ∧
    ¬ EvaluatesAlike r (Rule.selfCancellation.apply ⟨0⟩ (nary .and [])) (nary .and []) := by
  intro r
  have hempty : r.evaluate (nary .and []) = .ok [0xFF] := by
    rw [ByteRing.evaluate_of_ground true (fun _ => 0) (by simp), value_nary, total_nil]
    exact congrArg Except.ok (Quantum.word_mask ⟨0⟩)
  have hzero : r.evaluate (const 0) = .ok [0] := congrArg Except.ok (Quantum.word_zero ⟨0⟩)
  refine ⟨rfl, hempty, hzero, ?_⟩
  intro h
  obtain ⟨b, hb, hb'⟩ := h fun _ => 0
  rw [apply_selfCancellation_nary_nil, instantiate_const, hzero] at hb
  rw [instantiate_nary, List.map_nil, hempty] at hb'
  exact absurd (Except.ok.inj (hb.trans hb'.symm)) (by decide)

/-- The rules in the reverse of their order, on a conjunction that holds an empty exclusive or. -/
theorem evaluatesAlike_rules_reversed :
    let r : ByteRing := { ByteRing.sound ⟨0⟩ with verified := true }
    let t : Term := nary .and [nary .xor [], unary .succ (const 300), var ⟨"x", by decide⟩]
    Occupied t ∧ EvaluatesAlike r (t.passWith ⟨0⟩ Rule.all.reverse) t := by
  intro r t
  have h : Occupied t := by decide
  exact ⟨h, (evaluatesAlike_rules ⟨0⟩ true).2.2.1 _ t h⟩

end Term

end WordRing
