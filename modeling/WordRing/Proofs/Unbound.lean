import Mathlib.Data.List.Permutation
import WordRing.Proofs.Canonical.Soundness
import WordRing.Proofs.Derivation

/-!
# Terms that are not derived

A sound ring evaluates a term from left to right, so the first variable of the term is the one
error that it can meet. A derivation evaluates the canonical form, and fails exactly if a variable
is left there. If none is left, no variable of the term itself matters for its value.
-/
namespace WordRing.ByteRing
variable {q : Quantum} {verified : Bool} {t : Term} {ts : List Term} {x : VarName}
  {xs : List VarName}

/-! ## The error of an evaluation -/

/-- The first variable among the operands stops a node, if it stops the operand it stands in. -/
theorem accumulate_of_vars_eq_cons (op : NaryOp)
    (hstop : ∀ t ∈ ts, ∀ {x xs}, t.vars = x :: xs →
      evaluate { sound q with verified } t = .error (.unboundVariable x.text))
    (hvars : ts.flatMap Term.vars = x :: xs) {acc : Bytes} (hacc : acc.length = q.width) :
    accumulate { sound q with verified } op acc (ts.map (evaluate { sound q with verified })) =
      .error (.unboundVariable x.text) := by
  induction ts generalizing acc with
  | nil => exact nomatch hvars
  | cons t ts ih =>
    rw [List.flatMap_cons] at hvars
    cases ht : t.vars with
    | cons y ys =>
      rw [ht, List.cons_append] at hvars
      obtain rfl : y = x := (List.cons.inj hvars).1
      simp [accumulate, hstop t List.mem_cons_self ht, bind, Except.bind]
    | nil =>
      rw [ht, List.nil_append] at hvars
      -- The operands before the one that stops are words, so the operator takes them in.
      have hword : (t.value q fun _ => 0).length = q.width := t.length_value q _
      have hnext : (op.apply acc (t.value q fun _ => 0)).length = q.width := by
        rw [NaryOp.length_apply, hacc, hword, Nat.min_self]
      have hrest := ih (fun u hu => hstop u (List.mem_cons_of_mem t hu)) hvars hnext
      simpa [accumulate, evaluate_of_ground verified (fun _ => 0) ht, sound_nary op hacc hword,
        bind, Except.bind] using hrest

/-- **A sound ring stops at the first variable of a term.** -/
theorem evaluate_of_vars_eq_cons (h : t.vars = x :: xs) :
    evaluate { sound q with verified } t = .error (.unboundVariable x.text) := by
  induction t using Term.induct generalizing x xs with
  | const n => exact nomatch h
  | var y =>
    obtain rfl : y = x := (List.cons.inj h).1
    rfl
  | unary op t ih => rw [evaluate_unary, ih h]; rfl
  | nary op ts ih =>
    have hstart : (start q op).length = q.width := by rw [Term.start_eq, q.length_word]
    rw [evaluate_nary]
    exact accumulate_of_vars_eq_cons op ih (Term.vars_nary op ts ▸ h) hstart

/-! ## Deriving -/

theorem value_canonical (q : Quantum) (s : VarName → Int) (t : Term) :
    (t.canonical q).value q s = t.value q s := by
  rw [Term.canonical_eq, Term.value_iterate_pass]

/-- A derivation in a sound ring records the value of the term, whatever constants are put for
variables that are not left in the canonical form. -/
theorem records_value_of_derive {now : String} {d : Derivation} (s : VarName → Int)
    (h : derive { sound q with verified } t now = .ok d) :
    Derivation.Records q (t.canonical q) (t.value q s) d := by
  obtain ⟨b, hword, hrecords⟩ := records_of_derive h
  have hvalue : evaluate { sound q with verified } (t.canonical q) =
      .ok ((t.canonical q).value q s) :=
    evaluate_of_ground verified s (vars_eq_nil_of_evaluate hword)
  obtain rfl : b = (t.canonical q).value q s := Except.ok.inj (hword.symm.trans hvalue)
  rwa [value_canonical] at hrecords

/-- **What is derived does not depend on a variable.** A sound ring derives a term exactly if its
canonical form is without variables. Then the term evaluates to the word of the value derived,
whatever constants are put for its variables; and otherwise the error names the first variable that
is left in the canonical form, which is one of the term. -/
theorem derive_iff_vars_canonical (q : Quantum) (verified : Bool) (t : Term) (now : String) :
    let r : ByteRing := { sound q with verified }
    ((∃ d, r.derive t now = .ok d) ↔ (t.canonical q).vars = []) ∧
    (∀ d, r.derive t now = .ok d → 0 ≤ d.resultValue ∧ d.resultValue < q.cycle ∧
      ∀ s : VarName → Int, r.evaluate (t.instantiate s) = .ok (q.word d.resultValue)) ∧
    ∀ x xs, (t.canonical q).vars = x :: xs →
      x ∈ t.vars ∧ r.derive t now = .error (.unboundVariable x.text) := by
  intro r
  refine ⟨⟨?_, ?_⟩, ?_, ?_⟩
  · rintro ⟨d, hd⟩
    obtain ⟨b, hword, -⟩ := records_of_derive hd
    exact vars_eq_nil_of_evaluate hword
  · intro hground
    have hword : r.evaluate (t.canonical q) = .ok _ :=
      evaluate_of_ground verified (fun _ => 0) hground
    obtain ⟨d, hd, -⟩ := exists_derive_of_ok (r := r) hword now
    exact ⟨d, hd⟩
  · intro d hd
    obtain ⟨b, hword, hrecords⟩ := records_of_derive hd
    have hb : b.length = q.width := length_of_evaluate hword
    have hlt : (Bytes.toNat b : Int) < q.cycle := Int.ofNat_lt.2 (q.toNat_lt_cycle hb)
    refine ⟨hrecords.resultValue ▸ Int.natCast_nonneg _, hrecords.resultValue ▸ hlt, ?_⟩
    intro s
    have hvalue : r.evaluate (t.canonical q) = .ok ((t.canonical q).value q s) :=
      evaluate_of_ground verified s (vars_eq_nil_of_evaluate hword)
    obtain rfl : b = (t.canonical q).value q s := Except.ok.inj (hword.symm.trans hvalue)
    rw [hrecords.resultValue, q.word_toNat hb, value_canonical]
    exact evaluate_instantiate q verified s t
  · intro x xs hvars
    have hmem : x ∈ (t.canonical q).vars := hvars ▸ List.mem_cons_self
    exact ⟨Term.vars_settleWithin_subset q passLimit t hmem,
      derive_of_error (evaluate_of_vars_eq_cons hvars) now⟩

/-- In `xor(?y, succ(?x), ?y)` the first variable cancels and the other one is named; in
`and(?x, xor(?y, ?y))` none is left. -/
theorem derive_iff_vars_canonical_cancelling :
    let r : ByteRing := { sound ⟨0⟩ with verified := true }
    let x : VarName := ⟨"x", by decide⟩
    let y : VarName := ⟨"y", by decide⟩
    let t : Term := .nary .xor [.var y, .unary .succ (.var x), .var y]
    let u : Term := .nary .and [.var x, .nary .xor [.var y, .var y]]
    (t.canonical ⟨0⟩).vars = [x] ∧ x ∈ t.vars ∧
    r.derive t "" = .error (.unboundVariable "x") ∧
    ∃ d, r.derive u "" = .ok d ∧ d.resultValue = 0 ∧
      ∀ s : VarName → Int, r.evaluate (u.instantiate s) = .ok [0] := by
  intro r x y t u
  have hleft : (t.canonical ⟨0⟩).vars = [x] := by cbv
  have hnone : (u.canonical ⟨0⟩).vars = [] := by cbv
  obtain ⟨hmem, herror⟩ := (derive_iff_vars_canonical ⟨0⟩ true t "").2.2 x [] hleft
  obtain ⟨hderives, hvalues, -⟩ := derive_iff_vars_canonical ⟨0⟩ true u ""
  obtain ⟨d, hd⟩ := hderives.2 hnone
  obtain ⟨hnonneg, hlt, hinstances⟩ := hvalues d hd
  -- The value can be read off any instance.
  have hzero : r.evaluate (u.instantiate fun _ => 0) = .ok (u.value ⟨0⟩ fun _ => 0) :=
    evaluate_instantiate ⟨0⟩ true _ u
  have hresult : Quantum.word ⟨0⟩ d.resultValue = u.value ⟨0⟩ fun _ => 0 :=
    Except.ok.inj ((hinstances fun _ => 0).symm.trans hzero)
  have hword : (u.value ⟨0⟩ fun _ => 0) = [0] := by decide
  have hvalue : d.resultValue = 0 := by
    rw [← Int.emod_eq_of_lt hnonneg hlt, ← Quantum.toNat_word, hresult, hword]
    rfl
  refine ⟨hleft, hmem, herror, d, hd, hvalue, ?_⟩
  intro s
  rw [hinstances s, hresult, hword]

end WordRing.ByteRing
