import WordRing.Proofs.Canonical.RuleOrder
import WordRing.Proofs.Canonical.Variables

/-!
# Canonicalization preserves values

A pass drops identities before it cancels copies, so it keeps the value of every term, whatever
constants stand for the variables. It brings in no variable, and so a run answers with a term that
evaluates to the same word.
-/
namespace WordRing.Term
variable {q : Quantum} {s : VarName → Int} {t : Term} {ts : List Term}

/-! ## Passes -/

/-- Operand lists of tidy terms are not empty. -/
theorem Tidy.occupied (h : Tidy q t) : Occupied t := by
  rintro u hu rfl
  exact Arranged.ne_nil (h _ hu) rfl

theorem value_arrange (op : NaryOp) (h : ∀ t ∈ ts, Tidy q t) :
    (arrange q (nary op ts)).value q s = (nary op ts).value q s := by
  have hrules : arrange q (nary op ts) = Rule.applyEach q [.associativeFlattening,
      .commutativeSorting, .identityElimination, .selfCancellation] (nary op ts) := rfl
  rw [hrules, value_applyEach_nary op rfl fun t ht => (h t ht).occupied]

theorem value_applyAll_unary (op : UnaryOp) (h : Tidy q t) :
    (Rule.applyAll q (unary op t)).value q s = (unary op t).value q s := by
  have hrules : Rule.applyAll q (unary op t) = Rule.applyEach q Rule.all (unary op t) := rfl
  rw [hrules, value_applyEach_of_occupied ((occupied_unary op).2 h.occupied)]

/-- **A pass keeps the value of a term.** -/
theorem value_pass (t : Term) : (t.pass q).value q s = t.value q s := by
  have hdrop : Rule.dropsFirst Rule.all = true := rfl
  rw [← passWith_all, value_passWith hdrop]

theorem value_iterate_pass (m : Nat) (t : Term) : ((pass q)^[m] t).value q s = t.value q s := by
  induction m generalizing t with
  | zero => rfl
  | succ m ih => rw [Function.iterate_succ_apply, ih, value_pass]

theorem value_settleWithin (limit : Int) (t : Term) :
    (t.settleWithin q limit).1.value q s = t.value q s := by
  rw [fst_settleWithin, value_iterate_pass]

/-! ## Evaluation -/

/-- **Canonicalization preserves meaning.** A run under any limit answers with a term that has no
new variables and that a sound ring evaluates to the same word, whatever constants are put for the
variables; a term without variables and what a run makes of it evaluate to the same word as they
stand. The canonical form is what a run under the limit of a hundred passes answers. -/
theorem evaluate_settleWithin (q : Quantum) (verified : Bool) (limit : Int) (t : Term) :
    let r : ByteRing := { ByteRing.sound q with verified }
    (t.settleWithin q limit).1.vars ⊆ t.vars ∧
    (∀ s : VarName → Int, ∃ b, b.length = q.width ∧ r.evaluate (t.instantiate s) = .ok b ∧
      r.evaluate ((t.settleWithin q limit).1.instantiate s) = .ok b) ∧
    (t.vars = [] → ∃ b, b.length = q.width ∧ r.evaluate t = .ok b ∧
      r.evaluate (t.settleWithin q limit).1 = .ok b) ∧
    t.canonical q = (t.settleWithin q 100).1 := by
  intro r
  have hvars := vars_settleWithin_subset q limit t
  have hinstances (s : VarName → Int) : ∃ b, b.length = q.width ∧
      r.evaluate (t.instantiate s) = .ok b ∧
      r.evaluate ((t.settleWithin q limit).1.instantiate s) = .ok b := by
    refine ⟨t.value q s, length_value q s t, ByteRing.evaluate_instantiate q verified s t, ?_⟩
    rw [← value_settleWithin limit t]
    exact ByteRing.evaluate_instantiate q verified s _
  refine ⟨hvars, hinstances, ?_, rfl⟩
  intro hground
  have hresult : (t.settleWithin q limit).1.vars = [] :=
    List.subset_nil.1 (hground ▸ hvars)
  have h := hinstances fun _ => 0
  rwa [instantiate_of_vars_eq_nil _ hground, instantiate_of_vars_eq_nil _ hresult] at h

/-- The successor of 300 exclusive or the empty conjunction, after a single pass. -/
theorem evaluate_settleWithin_succ :
    let r : ByteRing := { ByteRing.sound ⟨0⟩ with verified := true }
    let t : Term := unary .succ (nary .xor [const 300, nary .and []])
    t.vars = [] ∧ ∃ b, b.length = 1 ∧ r.evaluate t = .ok b ∧
      r.evaluate (t.settleWithin ⟨0⟩ 1).1 = .ok b := by
  intro r t
  have hground : t.vars = [] := rfl
  exact ⟨hground, (evaluate_settleWithin ⟨0⟩ true 1 t).2.2.1 hground⟩

end WordRing.Term
