import WordRing.Proofs.Weight

/-!
# The value of a term

A sound ring evaluates a term with constants put for its variables, and never fails on one. What
it answers is the `value` of the term under that choice of constants: a function of the term that
no error stands in the way of, so the rules of canonicalization can be compared on it.

## Main definitions

* `instantiate s t` — `t` with constants put for its variables.
* `vars t` — the variables of a term.
* `value q s t` — the word of a term, `total q s op ts` the word of a list of operands.
-/
namespace WordRing

namespace Term

/-- A term with a constant put for every variable. -/
def instantiate (s : VarName → Int) : Term → Term :=
  fold const (fun x => const (s x)) unary nary

/-- The variables of a term, from left to right. -/
def vars : Term → List VarName :=
  fold (fun _ => []) (fun x => [x]) (fun _ xs => xs) (fun _ => List.flatten)

section Equations
variable (s : VarName → Int)

@[simp] theorem instantiate_const (n : Int) : (const n).instantiate s = const n := rfl

@[simp] theorem instantiate_var (x : VarName) : (var x).instantiate s = const (s x) := rfl

@[simp] theorem instantiate_unary (op : UnaryOp) (t : Term) :
    (unary op t).instantiate s = unary op (t.instantiate s) := rfl

@[simp] theorem instantiate_nary (op : NaryOp) (ts : List Term) :
    (nary op ts).instantiate s = nary op (ts.map (instantiate s)) := by
  simp [instantiate]

@[simp] theorem vars_const (n : Int) : (const n).vars = [] := rfl

@[simp] theorem vars_var (x : VarName) : (var x).vars = [x] := rfl

@[simp] theorem vars_unary (op : UnaryOp) (t : Term) : (unary op t).vars = t.vars := rfl

@[simp] theorem vars_nary (op : NaryOp) (ts : List Term) :
    (nary op ts).vars = ts.flatMap vars := by
  simp [vars, List.flatMap_def]

end Equations

theorem mem_vars_nary {x : VarName} {op : NaryOp} {ts : List Term} :
    x ∈ (nary op ts).vars ↔ ∃ t ∈ ts, x ∈ t.vars := by
  rw [vars_nary, List.mem_flatMap]

/-- Without variables there is nothing to put constants for. -/
theorem instantiate_of_vars_eq_nil (s : VarName → Int) {t : Term} (h : t.vars = []) :
    t.instantiate s = t := by
  induction t using induct with
  | const n => rfl
  | var x => exact absurd h (List.cons_ne_nil x [])
  | unary op t ih => rw [instantiate_unary, ih h]
  | nary op ts ih =>
    rw [vars_nary, List.flatMap_eq_nil_iff] at h
    have hmap : ts.map (instantiate s) = ts :=
      (List.map_congr_left fun t ht => ih t ht (h t ht)).trans (List.map_id ts)
    rw [instantiate_nary, hmap]

/-! ## Values -/
variable (q : Quantum) (s : VarName → Int)

/-- The word of a term, its variables standing for constants. -/
def value : Term → Bytes :=
  fold q.word (fun x => q.word (s x)) UnaryOp.apply
    fun op bs => bs.foldl op.apply (ByteRing.start q op)

/-- The word of a list of operands under an operator. -/
def total (op : NaryOp) (ts : List Term) : Bytes :=
  (ts.map (value q s)).foldl op.apply (ByteRing.start q op)

@[simp] theorem value_const (n : Int) : (const n).value q s = q.word n := rfl

@[simp] theorem value_var (x : VarName) : (var x).value q s = q.word (s x) := rfl

@[simp] theorem value_unary (op : UnaryOp) (t : Term) :
    (unary op t).value q s = op.apply (t.value q s) := rfl

@[simp] theorem value_nary (op : NaryOp) (ts : List Term) :
    (nary op ts).value q s = total q s op ts := by
  simp [value, total]

variable {q s} {op : NaryOp} {t : Term} {ts us : List Term}

/-- The value of a term is a word of the ring. -/
@[simp] theorem length_value (q : Quantum) (s : VarName → Int) (t : Term) :
    (t.value q s).length = q.width := by
  induction t using induct with
  | const n => exact q.length_word n
  | var x => exact q.length_word (s x)
  | unary op t ih => rw [value_unary, UnaryOp.length_apply, ih]
  | nary op ts ih =>
    rw [value_nary]
    refine op.length_foldl_apply (by rw [start_eq, q.length_word]) ?_
    intro b hb
    obtain ⟨t, ht, rfl⟩ := List.mem_map.1 hb
    exact ih t ht

/-! ## Totals -/

/-- The value as a weight. -/
def valueWeight (q : Quantum) (s : VarName → Int) : Weight q := ⟨value q s, length_value q s⟩

theorem total_eq (op : NaryOp) (ts : List Term) :
    total q s op ts = (valueWeight q s).total op ts := rfl

@[simp] theorem total_nil : total q s op [] = q.word (op.identity q) :=
  (valueWeight q s).total_nil op

@[simp] theorem total_cons :
    total q s op (t :: ts) = op.apply (t.value q s) (total q s op ts) :=
  (valueWeight q s).total_cons op t ts

theorem total_singleton : total q s op [t] = t.value q s := (valueWeight q s).total_singleton op t

theorem total_append :
    total q s op (ts ++ us) = op.apply (total q s op ts) (total q s op us) :=
  (valueWeight q s).total_append op ts us

/-- The order of operands does not matter. -/
theorem total_perm (h : ts.Perm us) : total q s op ts = total q s op us :=
  (valueWeight q s).total_perm h

/-- Operands may be replaced by others of the same value. -/
theorem total_map {f : Term → Term} (h : ∀ t ∈ ts, (f t).value q s = t.value q s) :
    total q s op (ts.map f) = total q s op ts := by
  rw [total, total, List.map_map]
  exact congrArg (List.foldl _ _) (List.map_congr_left h)

end Term

/-! ## Evaluation in a sound ring -/

namespace ByteRing
variable {q : Quantum} {verified : Bool}

theorem sound_unary (op : UnaryOp) {b : Bytes} (hb : b.length = q.width) :
    (sound q).unary op b = .ok (op.apply b) := by
  simp [sound, q.expect_of_length hb, bind, Except.bind, pure, Except.pure]

theorem sound_nary (op : NaryOp) {a b : Bytes} (ha : a.length = q.width)
    (hb : b.length = q.width) : (sound q).nary op a b = .ok (op.apply a b) := by
  simp [sound, q.expect_of_length ha, q.expect_of_length hb, bind, Except.bind, pure, Except.pure]

theorem accumulate_sound (op : NaryOp) {b : Bytes} (hb : b.length = q.width) {bs : List Bytes}
    (hbs : ∀ c ∈ bs, c.length = q.width) :
    accumulate { sound q with verified } op b (bs.map .ok) = .ok (bs.foldl op.apply b) := by
  induction bs generalizing b with
  | nil => rfl
  | cons c bs ih =>
    have hc : c.length = q.width := hbs c List.mem_cons_self
    have hstep : (op.apply b c).length = q.width := by
      rw [NaryOp.length_apply, hb, hc, Nat.min_self]
    have hrest := ih hstep fun d hd => hbs d (List.mem_cons_of_mem c hd)
    simpa [accumulate, sound_nary op hb hc, bind, Except.bind] using hrest

/-- **A sound ring answers with the value**, whatever constants are put for the variables. -/
theorem evaluate_instantiate (q : Quantum) (verified : Bool) (s : VarName → Int) (t : Term) :
    evaluate { sound q with verified } (t.instantiate s) = .ok (t.value q s) := by
  induction t using Term.induct with
  | const n => rfl
  | var x => rfl
  | unary op t ih =>
    rw [Term.instantiate_unary, evaluate_unary, ih]
    exact sound_unary op (Term.length_value q s t)
  | nary op ts ih =>
    have hvalues : (ts.map (Term.instantiate s)).map (evaluate { sound q with verified }) =
        (ts.map (Term.value q s)).map .ok := by
      rw [List.map_map, List.map_map]
      exact List.map_congr_left ih
    have hwords : ∀ b ∈ ts.map (Term.value q s), b.length = q.width := by
      intro b hb
      obtain ⟨t, -, rfl⟩ := List.mem_map.1 hb
      exact Term.length_value q s t
    have hstart : (start q op).length = q.width := by rw [Term.start_eq, q.length_word]
    rw [Term.instantiate_nary, evaluate_nary, hvalues, Term.value_nary]
    exact accumulate_sound op hstart hwords

theorem exists_eq_ok_of_accumulate {r : ByteRing} {op : NaryOp} {acc b : Bytes}
    {xs : List (Except Error Bytes)} (h : r.accumulate op acc xs = .ok b) :
    ∀ x ∈ xs, ∃ c, x = .ok c := by
  induction xs generalizing acc with
  | nil => simp
  | cons x xs ih =>
    cases x with
    | error e => simp [accumulate, bind, Except.bind] at h
    | ok c =>
      cases hnext : r.nary op acc c with
      | error e => simp [accumulate, bind, Except.bind, hnext] at h
      | ok next =>
        have hrest : r.accumulate op next xs = .ok b := by
          simpa [accumulate, bind, Except.bind, hnext] using h
        intro y hy
        rcases List.mem_cons.1 hy with rfl | hy
        · exact ⟨c, rfl⟩
        · exact ih hrest y hy

/-- No ring, sound or not, has an answer to a term with a variable. -/
theorem vars_eq_nil_of_evaluate {r : ByteRing} {t : Term} {b : Bytes}
    (h : r.evaluate t = .ok b) : t.vars = [] := by
  induction t using Term.induct generalizing b with
  | const n => rfl
  | var x => simp at h
  | unary op t ih =>
    cases ht : r.evaluate t with
    | error e => simp [ht, bind, Except.bind] at h
    | ok c => exact ih ht
  | nary op ts ih =>
    rw [evaluate_nary] at h
    rw [Term.vars_nary, List.flatMap_eq_nil_iff]
    intro t ht
    obtain ⟨c, hc⟩ := exists_eq_ok_of_accumulate h _ (List.mem_map_of_mem ht)
    exact ih t ht hc

/-- A sound ring answers to a term without variables with its value. -/
theorem evaluate_of_ground {q : Quantum} (verified : Bool) (s : VarName → Int) {t : Term}
    (hground : t.vars = []) : evaluate { sound q with verified } t = .ok (t.value q s) := by
  have h := evaluate_instantiate q verified s t
  rwa [Term.instantiate_of_vars_eq_nil s hground] at h

theorem length_of_evaluate {q : Quantum} {verified : Bool} {t : Term} {b : Bytes}
    (h : evaluate { sound q with verified } t = .ok b) : b.length = q.width := by
  have hvalue : evaluate { sound q with verified } t = .ok (t.value q fun _ => 0) :=
    evaluate_of_ground verified _ (vars_eq_nil_of_evaluate h)
  obtain rfl : b = t.value q fun _ => 0 := Except.ok.inj (h.symm.trans hvalue)
  exact t.length_value q _

end ByteRing

end WordRing
