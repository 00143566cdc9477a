import WordRing.Proofs.CommandLine
import WordRing.Proofs.Coherence.Check

/-!
# The two modes of a check

Collecting and aborting ask the same questions in the same order: every law at every value, and
then the full cycle where it is walked. What collecting has found up to a place decides how
aborting ends: with the first of the failures if there is one, and otherwise as collecting does. A
ring passes in one mode exactly if it passes in the other, so `--abort` does not change the status
that `verify` ends with.

## Main definitions

* `ByteRing.questions r values` — what a check asks, in order.
* `ByteRing.failure? r question` — the failure at a question, if there is one.
* `ByteRing.failures r mode asked` — the failures at a list of questions.
* `ByteRing.cutShort found last` — how aborting ends.
* `ByteRing.EndsIn r P` — the errors that the operations of a ring end in.
* `ByteRing.OtherWidth q e` — the error is about a word of another width.
-/
namespace WordRing

section Map
variable {α β : Type} {x : Except Error α} {f : α → β}

theorem map_eq_ok {b : β} : x.map f = .ok b ↔ ∃ a, x = .ok a ∧ f a = b := by
  cases x <;> simp [Except.map]

theorem map_eq_error {e : Error} : x.map f = .error e ↔ x = .error e := by
  cases x <;> simp [Except.map]

/-- A step followed by another fails where either does. -/
theorem bind_eq_error {g : α → Except Error β} {e : Error} :
    x >>= g = .error e ↔ x = .error e ∨ ∃ a, x = .ok a ∧ g a = .error e := by
  cases x <;> simp [bind, Except.bind]

end Map

namespace ByteRing
variable {r : ByteRing} {mode : CheckMode} {values : List Nat} {now : String}
  {asked rest : List (Nat × Law)} {found : List Violation} {e : Error}

/-- The question about the full cycle, where the ring is walked. -/
def cycleQuestions (r : ByteRing) : List (Nat × Law) :=
  if r.isWalked then [(0, .fullCycle)] else []

/-- All that is asked in a check, in order. -/
def questions (r : ByteRing) (values : List Nat) : List (Nat × Law) :=
  elementChecks values ++ r.cycleQuestions

/-- The failure at a question, if there is one. -/
def failure? (r : ByteRing) : Nat × Law → Except Error (Option Violation)
  | (_, .fullCycle) => r.cycleViolation?
  | (n, law) => r.violation? law n

/-- The failures at a list of questions, in its order. -/
def failures (r : ByteRing) (mode : CheckMode) : List (Nat × Law) → Except Error (List Violation)
  | [] => .ok []
  | question :: rest => do
    let found ← record mode (← r.failure? question)
    let others ← r.failures mode rest
    return found ++ others

section Steps
variable {question : Nat × Law} {v : Violation}

theorem failures_cons_of_error (h : r.failure? question = .error e) :
    r.failures mode (question :: rest) = .error e := by
  simp [failures, h, bind, Except.bind]

theorem failures_cons_of_none (h : r.failure? question = .ok none) :
    r.failures mode (question :: rest) = r.failures mode rest := by
  cases hrest : r.failures mode rest <;>
    simp [failures, h, hrest, record, bind, Except.bind, pure, Except.pure]

theorem failures_collect_cons (h : r.failure? question = .ok (some v)) :
    r.failures .collect (question :: rest) = (r.failures .collect rest).map (v :: ·) := by
  cases hrest : r.failures .collect rest <;>
    simp [failures, h, hrest, record, bind, Except.bind, pure, Except.pure, Except.map]

theorem failures_abort_cons (h : r.failure? question = .ok (some v)) :
    r.failures .abort (question :: rest) = .error (.coherence v) := by
  simp [failures, h, record, bind, Except.bind]

end Steps

/-! ## A check asks its questions -/

theorem failures_append (r : ByteRing) (mode : CheckMode) (asked rest : List (Nat × Law)) :
    r.failures mode (asked ++ rest) = (do
      let found ← r.failures mode asked
      let others ← r.failures mode rest
      return found ++ others) := by
  induction asked with
  | nil =>
    rw [List.nil_append]
    cases r.failures mode rest <;> rfl
  | cons question asked ih =>
    rw [List.cons_append, failures, failures, ih]
    simp only [bind_assoc, pure_bind, List.append_assoc]

theorem failure?_of_ne {n : Nat} {law : Law} (h : law ≠ .fullCycle) :
    r.failure? (n, law) = r.violation? law n := by
  cases law with
  | fullCycle => exact absurd rfl h
  | _ => rfl

theorem ne_fullCycle_of_mem {question : Nat × Law} (h : question ∈ elementChecks values) :
    question.2 ≠ .fullCycle := by
  obtain ⟨n, law⟩ := question
  rintro rfl
  exact absurd (mem_elementChecks.1 h).2 (by decide)

theorem map_violations_checkEach {checks : List (Nat × Law)}
    (h : ∀ c ∈ checks, c.2 ≠ .fullCycle) :
    (r.checkEach mode checks).map Tally.violations = r.failures mode checks := by
  induction checks with
  | nil => rfl
  | cons c rest ih =>
    obtain ⟨n, law⟩ := c
    obtain ⟨hlaw, hrest⟩ := List.forall_mem_cons.1 h
    rw [checkEach, failures, failure?_of_ne hlaw, ← ih hrest]
    cases r.violation? law n with
    | error e => rfl
    | ok failure =>
      cases hrecord : record mode failure with
      | error e => simp [hrecord, Bind.bind, Except.bind, Except.map]
      | ok found =>
        cases r.checkEach mode rest <;>
          simp [hrecord, Bind.bind, Except.bind, Except.map, pure, Except.pure]

theorem map_violations_checkCycle :
    (r.checkCycle mode).map Tally.violations = r.failures mode r.cycleQuestions := by
  rw [checkCycle, cycleQuestions]
  split
  · simp only [failures, failure?]
    cases r.cycleViolation? with
    | error e => rfl
    | ok failure => cases failure <;> cases mode <;> rfl
  · rfl

/-- A check reports the failures at its questions, or the error that they end in. -/
theorem map_violations_checkAt (r : ByteRing) (values : List Nat) (mode : CheckMode)
    (now : String) : (r.checkAt values mode now).map CoherenceReport.violations =
      r.failures mode (r.questions values) := by
  rw [checkAt, questions, failures_append,
    ← map_violations_checkEach fun _ => ne_fullCycle_of_mem, ← map_violations_checkCycle]
  cases r.checkEach mode (elementChecks values) with
  | error e => rfl
  | ok onElements => cases r.checkCycle mode <;> rfl

theorem checkAt_eq_error_iff :
    r.checkAt values mode now = .error e ↔ r.failures mode (r.questions values) = .error e := by
  rw [← map_violations_checkAt r values mode now, map_eq_error]

/-! ## Collecting and aborting -/

/-- How aborting ends where collecting finds these failures and then ends in this way. -/
def cutShort (found : List Violation) (last : Except Error (List Violation)) :
    Except Error (List Violation) :=
  match found with
  | [] => last
  | v :: _ => .error (.coherence v)

/-- Where collecting comes to the end, aborting stops at the first failure that was found. -/
theorem failures_abort_of_ok (h : r.failures .collect asked = .ok found) :
    r.failures .abort asked = cutShort found (.ok []) := by
  induction asked generalizing found with
  | nil =>
    obtain rfl : [] = found := Except.ok.inj h
    rfl
  | cons question rest ih =>
    -- Nothing has been found before this question, so its answer decides unless it is none.
    cases hfailure : r.failure? question with
    | error e =>
      rw [failures_cons_of_error hfailure] at h
      cases h
    | ok failure =>
      cases failure with
      | none =>
        rw [failures_cons_of_none hfailure] at h ⊢
        exact ih h
      | some v =>
        rw [failures_collect_cons hfailure] at h
        rw [failures_abort_cons hfailure]
        obtain ⟨others, -, rfl⟩ := map_eq_ok.1 h
        rfl

/-- Where collecting ends in an error, some question has that error. Aborting ends in it as well,
unless collecting has found a failure at a question before. -/
theorem failures_abort_of_error (h : r.failures .collect asked = .error e) :
    ∃ before question after found, asked = before ++ question :: after ∧
      r.failure? question = .error e ∧ r.failures .collect before = .ok found ∧
      r.failures .abort asked = cutShort found (.error e) := by
  induction asked with
  | nil => cases h
  | cons question rest ih =>
    cases hfailure : r.failure? question with
    | error e' =>
      rw [failures_cons_of_error hfailure] at h
      obtain rfl : e' = e := Except.error.inj h
      exact ⟨[], question, rest, [], rfl, hfailure, rfl, failures_cons_of_error hfailure⟩
    | ok failure =>
      cases failure with
      | none =>
        rw [failures_cons_of_none hfailure] at h ⊢
        obtain ⟨before, last, after, found, rfl, hlast, hbefore, habort⟩ := ih h
        refine ⟨question :: before, last, after, found, rfl, hlast, ?_, habort⟩
        rw [failures_cons_of_none hfailure, hbefore]
      | some v =>
        rw [failures_collect_cons hfailure] at h
        obtain ⟨before, last, after, found, rfl, hlast, hbefore, -⟩ := ih (map_eq_error.1 h)
        refine ⟨question :: before, last, after, v :: found, rfl, hlast, ?_, ?_⟩
        · rw [failures_collect_cons hfailure, hbefore]
          rfl
        · exact failures_abort_cons hfailure

/-! ## Failures and their questions -/

theorem exists_question_of_mem (h : r.failures .collect asked = .ok found) {v : Violation}
    (hv : v ∈ found) : ∃ question ∈ asked, r.failure? question = .ok (some v) := by
  induction asked generalizing found with
  | nil =>
    obtain rfl : [] = found := Except.ok.inj h
    cases hv
  | cons question rest ih =>
    cases hfailure : r.failure? question with
    | error e =>
      rw [failures_cons_of_error hfailure] at h
      cases h
    | ok failure =>
      cases failure with
      | none =>
        rw [failures_cons_of_none hfailure] at h
        obtain ⟨asked, hmem, hfound⟩ := ih h hv
        exact ⟨asked, List.mem_cons_of_mem _ hmem, hfound⟩
      | some w =>
        rw [failures_collect_cons hfailure] at h
        obtain ⟨others, hothers, rfl⟩ := map_eq_ok.1 h
        rcases List.mem_cons.1 hv with rfl | hv
        · exact ⟨question, List.mem_cons_self, hfailure⟩
        · obtain ⟨asked, hmem, hfound⟩ := ih hothers hv
          exact ⟨asked, List.mem_cons_of_mem _ hmem, hfound⟩

theorem of_violation? {law : Law} {n : Nat} {v : Violation}
    (h : r.violation? law n = .ok (some v)) : (v.value, v.law) = (n, law) := by
  simp only [violation?, bind_eq_ok, pure, Except.pure, Except.ok.injEq] at h
  obtain ⟨sides, -, hv⟩ := h
  split at hv
  · cases hv
  · obtain rfl := Option.some.inj hv
    rfl

theorem of_cycleViolation? {v : Violation} (h : r.cycleViolation? = .ok (some v)) :
    (v.value, v.law) = (0, .fullCycle) := by
  simp only [cycleViolation?, bind_eq_ok, pure, Except.pure, Except.ok.injEq] at h
  obtain ⟨walk, -, hv⟩ := h
  split at hv
  · obtain rfl := Option.some.inj hv
    rfl
  · split at hv
    · obtain rfl := Option.some.inj hv
      rfl
    · cases hv

/-- A failure names the question that it answers. -/
theorem question_of_failure? {question : Nat × Law} {v : Violation}
    (hasked : question ∈ r.questions values) (h : r.failure? question = .ok (some v)) :
    (v.value, v.law) = question := by
  rcases List.mem_append.1 hasked with hmem | hmem
  · obtain ⟨n, law⟩ := question
    rw [failure?_of_ne (ne_fullCycle_of_mem hmem)] at h
    exact of_violation? h
  · rw [cycleQuestions] at hmem
    split at hmem
    · obtain rfl := List.mem_singleton.1 hmem
      exact of_cycleViolation? h
    · cases hmem

/-! ## Errors of another kind -/

/-- The operations of a ring end in no errors but these. -/
def EndsIn (r : ByteRing) (P : Error → Prop) : Prop :=
  (∀ op b e, r.unary op b = .error e → P e) ∧ ∀ op a b e, r.nary op a b = .error e → P e

/-- The error is about a word of another width than the ring's. -/
def OtherWidth (q : Quantum) (e : Error) : Prop := ∃ n, n ≠ q.width ∧ e = .operandWidth q.width n

section Faults
variable {q : Quantum} {faults : List Fault} {whole : Bytes → Except Error Bytes} {op : UnaryOp}
  {b : Bytes}

theorem otherWidth_of_expect (h : q.expect b = .error e) : OtherWidth q e := by
  rw [Quantum.expect] at h
  split at h
  next => cases h
  next hne => exact ⟨b.length, hne, (Except.error.inj h).symm⟩

theorem otherWidth_of_unaryWithFaults (hwhole : ∀ b e, whole b = .error e → OtherWidth q e)
    (h : unaryWithFaults q faults whole op b = .error e) : OtherWidth q e := by
  rcases bind_eq_error.1 h with hexpect | ⟨c, -, hanswer⟩
  · exact otherWidth_of_expect hexpect
  · split at hanswer
    · cases hanswer
    · exact hwhole c e hanswer

/-- A ring with faults refuses words of another width, and nothing else. -/
theorem withFaults_endsIn (q : Quantum) (faults : List Fault) :
    (withFaults q faults).EndsIn (OtherWidth q) := by
  have hneg (b : Bytes) (e : Error) (h : negWithFaults q faults b = .error e) : OtherWidth q e :=
    otherWidth_of_unaryWithFaults (by simp) h
  have hbnot (b : Bytes) (e : Error) (h : bnotWithFaults q faults b = .error e) :
      OtherWidth q e := otherWidth_of_unaryWithFaults (by simp) h
  constructor
  · intro op b e h
    cases op with
    | neg => exact hneg b e h
    | bnot => exact hbnot b e h
    | succ =>
      refine otherWidth_of_unaryWithFaults (fun b e h => ?_) h
      rcases bind_eq_error.1 h with h | ⟨c, -, h⟩
      · exact hbnot b e h
      · exact hneg c e h
    | pred =>
      refine otherWidth_of_unaryWithFaults (fun b e h => ?_) h
      rcases bind_eq_error.1 h with h | ⟨c, -, h⟩
      · exact hneg b e h
      · exact hbnot c e h
  · intro op a b e h
    rcases bind_eq_error.1 h with ha | ⟨a', -, h⟩
    · exact otherWidth_of_expect ha
    · rcases bind_eq_error.1 h with hb | ⟨b', -, h⟩
      · exact otherWidth_of_expect hb
      · split at h <;> cases h

end Faults

namespace EndsIn
variable {P : Error → Prop}

theorem of_sides (h : r.EndsIn P) {law : Law} {b : Bytes} (hsides : r.sides law b = .error e) :
    P e := by
  obtain ⟨hunary, hnary⟩ := h
  cases law <;>
    simp only [sides, bind_eq_error, pure, Except.pure, reduceCtorEq, and_false, exists_false,
      or_false] at hsides <;>
    grind

theorem of_walkFrom (h : r.EndsIn P) {steps : Nat} {b : Bytes} {visited : Std.HashSet Bytes}
    (hwalk : r.walkFrom steps b visited = .error e) : P e := by
  induction steps generalizing b visited with
  | zero => cases hwalk
  | succ steps ih =>
    rcases bind_eq_error.1 hwalk with hsucc | ⟨next, -, hrest⟩
    · exact h.1 .succ b e hsucc
    · exact ih hrest

/-- What stops a collecting check is an error of the ring's. -/
theorem of_failure? (h : r.EndsIn P) {question : Nat × Law}
    (hfailure : r.failure? question = .error e) : P e := by
  obtain ⟨n, law⟩ := question
  by_cases hlaw : law = .fullCycle
  · subst hlaw
    rcases bind_eq_error.1 hfailure with hwalk | ⟨_, -, hnever⟩
    · exact h.of_walkFrom hwalk
    · cases hnever
  · rw [failure?_of_ne hlaw] at hfailure
    rcases bind_eq_error.1 hfailure with hsides | ⟨_, -, hnever⟩
    · exact h.of_sides hsides
    · cases hnever

end EndsIn

end ByteRing

namespace CommandLine
variable {setting : Setting} {values : Values}

/-- Whatever the mode and the form of the report, `verify` succeeds exactly if there is a ring of
the level and it passes. -/
theorem status_verify_eq_zero_iff : (verify setting values).status = 0 ↔
    ∃ r, ringOf setting values = .ok r ∧ r.Passes r.quantum.testValues := by
  rw [verify]
  cases hring : ringOf setting values with
  | error e => simp [Outcome.misuse]
  | ok r =>
    simp only [Except.ok.injEq, exists_eq_left']
    generalize (if values.flag "ABORT" then CheckMode.abort else .collect) = mode
    constructor
    · intro hstatus
      cases hcheck : r.check mode setting.now with
      | ok report =>
        refine ByteRing.passes_of_checkAt hcheck ?_
        simpa [hcheck, printReport] using hstatus
      | error e => cases e <;> simp [hcheck, Outcome.stopped] at hstatus
    · intro hpasses
      rw [ByteRing.check, ByteRing.checkAt_of_passes hpasses]
      rfl

/-- The ring of the level depends on no other parameter. -/
theorem ringOf_congr {v v' : Values}
    (h : v.options.lookup "QUANTUM" = v'.options.lookup "QUANTUM") :
    ringOf setting v = ringOf setting v' := by
  rw [ringOf, ringOf, Values.integer, Values.integer, h]

/-- The status of `verify` is zero with `--abort` exactly if it is without. -/
theorem status_run_verify_abort {words rest others : List String} {given : List Given}
    (hwords : scan verifyCommand.allOptions true words = .ok (given, others)) (hend : "--" ∉ words)
    (hvariable : ∀ text, abortOption.fromEnvironment verifyCommand.environment
      setting.environment = some text → readBoolean text ≠ none) :
    (run setting ("verify" :: (words ++ "--abort" :: rest))).status = 0 ↔
      (run setting ("verify" :: (words ++ rest))).status = 0 := by
  have hverify : verifyCommand ∈ commands := by decide
  rcases run_name_cases setting hverify with ⟨outcome, hrun⟩ | hrun
  · rw [show "verify" = verifyCommand.name from rfl, hrun, hrun]
  · have habort :
        scan verifyCommand.allOptions true ["--abort"] = .ok ([⟨abortOption, none⟩], []) := by
      simp only [scan]
      rfl
    have hsame := Command.sameBut_bind rfl hvariable hwords hend habort rest
    rw [show "verify" = verifyCommand.name from rfl, hrun, hrun, runCommand, runCommand]
    -- The two readings matter only through what they have in common.
    generalize verifyCommand.bind setting.environment _ = x at hsame ⊢
    generalize verifyCommand.bind setting.environment _ = y at hsame ⊢
    cases hsame with
    | refused e e' => rfl
    | request o => rfl
    | @values v v' _ hlookup =>
      have hring : ringOf setting v = ringOf setting v' := ringOf_congr (hlookup _ (by decide))
      change (verify setting v).status = 0 ↔ (verify setting v').status = 0
      rw [status_verify_eq_zero_iff, status_verify_eq_zero_iff, hring]

end CommandLine

namespace ByteRing

/-- **Collecting and aborting agree.** Where collecting reports no failure, aborting gives the same
report but for the time; where it reports some, aborting stops with the first of them. Where
collecting ends in an error, which in a ring with faults is a word of another width, some question
has that error, and aborting ends in it as well or stops at a failure before. So `verify` succeeds
with `--abort`, put wherever an option is read, exactly if it does without. All that this asks for
is that its environment variable, which counts where it is not given, is a truth value if set. -/
theorem check_modes_agree (r : ByteRing) (values : List Nat) (now now' : String) :
    (∀ report, r.checkAt values .collect now = .ok report →
      (report.violations = [] →
        r.checkAt values .abort now' = .ok { report with timestamp := now' }) ∧
      ∀ v rest, report.violations = v :: rest →
        r.checkAt values .abort now' = .error (.coherence v)) ∧
    (∀ e, r.checkAt values .collect now = .error e →
      (∀ q faults verified, r = { withFaults q faults with verified } →
        ∃ n, n ≠ q.width ∧ e = .operandWidth q.width n) ∧
      ∃ before question after, r.questions values = before ++ question :: after ∧
        r.failure? question = .error e ∧
        (r.checkAt values .abort now' = .error e ∨
          ∃ v, (v.value, v.law) ∈ before ∧ r.failure? (v.value, v.law) = .ok (some v) ∧
            r.checkAt values .abort now' = .error (.coherence v))) ∧
    (∀ mode now, r.check mode now = r.checkAt r.quantum.testValues mode now) ∧
    ∀ (setting : CommandLine.Setting) words rest given others,
      CommandLine.scan CommandLine.verifyCommand.allOptions true words = .ok (given, others) →
      "--" ∉ words →
      (∀ text, CommandLine.abortOption.fromEnvironment CommandLine.verifyCommand.environment
        setting.environment = some text → CommandLine.readBoolean text ≠ none) →
      ((CommandLine.run setting ("verify" :: (words ++ "--abort" :: rest))).status = 0 ↔
        (CommandLine.run setting ("verify" :: (words ++ rest))).status = 0) := by
  refine ⟨fun report hcollect => ⟨fun hclean => ?_, fun v rest hfailures => ?_⟩,
    fun e hcollect => ⟨?_, ?_⟩, fun _ _ => rfl,
    fun _ _ _ _ _ => CommandLine.status_run_verify_abort⟩
  · have hpasses := passes_of_checkAt hcollect (by rw [CoherenceReport.verified, hclean]; rfl)
    obtain rfl : r.cleanReport values now = report :=
      Except.ok.inj ((checkAt_of_passes hpasses .collect now).symm.trans hcollect)
    exact checkAt_of_passes hpasses .abort now'
  · have hfound : r.failures .collect (r.questions values) = .ok (v :: rest) := by
      rw [← map_violations_checkAt r values .collect now, hcollect, ← hfailures]
      rfl
    exact checkAt_eq_error_iff.2 (failures_abort_of_ok hfound)
  · rintro q faults verified rfl
    obtain ⟨_, question, _, _, _, herror, _, _⟩ :=
      failures_abort_of_error (checkAt_eq_error_iff.1 hcollect)
    have hends : ({ withFaults q faults with verified } : ByteRing).EndsIn (OtherWidth q) :=
      withFaults_endsIn q faults
    exact hends.of_failure? herror
  · obtain ⟨before, question, after, found, hasked, herror, hfound, habort⟩ :=
      failures_abort_of_error (checkAt_eq_error_iff.1 hcollect)
    refine ⟨before, question, after, hasked, herror, ?_⟩
    cases found with
    | nil => exact .inl (checkAt_eq_error_iff.2 habort)
    | cons v rest =>
      obtain ⟨asked, hmem, hfailure⟩ := exists_question_of_mem hfound List.mem_cons_self
      obtain rfl := question_of_failure? (hasked ▸ List.mem_append_left _ hmem) hfailure
      exact .inr ⟨v, hmem, hfailure, checkAt_eq_error_iff.2 habort⟩

/-- A ring of three bytes whose negation is wrong at four and whose complement answers five with no
byte at all. -/
def wordlessAtFive : ByteRing :=
  withFaults ⟨2⟩ [⟨.unary .neg, [4], [0, 0, 0]⟩, ⟨.unary .bnot, [5], []⟩]

/-- At four alone there are three failures, and aborting stops at the first. At four and five
collecting comes to the word without bytes and aborting stops before. At seven there is nothing to
report. -/
theorem check_modes_agree_wordlessAtFive :
    wordlessAtFive.checkAt [4] .abort "" = .error (.coherence ⟨.negInvolution, 4, 4, 0⟩) ∧
    wordlessAtFive.checkAt [7] .abort "" = .ok (wordlessAtFive.cleanReport [7] "") ∧
    wordlessAtFive.checkAt [4, 5] .collect "" = .error (.operandWidth 3 0) ∧
    (∃ before question after, wordlessAtFive.questions [4, 5] = before ++ question :: after ∧
      wordlessAtFive.failure? question = .error (.operandWidth 3 0) ∧
      (wordlessAtFive.checkAt [4, 5] .abort "" = .error (.operandWidth 3 0) ∨
        ∃ v, (v.value, v.law) ∈ before ∧
          wordlessAtFive.failure? (v.value, v.law) = .ok (some v) ∧
          wordlessAtFive.checkAt [4, 5] .abort "" = .error (.coherence v))) ∧
    ((CommandLine.run ⟨[], sound, ""⟩ ["verify", "--abort"]).status = 0 ↔
      (CommandLine.run ⟨[], sound, ""⟩ ["verify"]).status = 0) := by
  have hcollect : wordlessAtFive.checkAt [4] .collect "" = .ok ⟨⟨2⟩, 9, [⟨.negInvolution, 4, 4, 0⟩,
      ⟨.succPredInverse, 4, 4, 0⟩, ⟨.additiveInverse, 4, 0, 4⟩], false, true, ""⟩ := rfl
  have hfour := ((check_modes_agree wordlessAtFive [4] "" "").1 _ hcollect).2 _ _ rfl
  have hseven := ((check_modes_agree wordlessAtFive [7] "" "").1
    (wordlessAtFive.cleanReport [7] "") rfl).1 rfl
  have hstopped : wordlessAtFive.checkAt [4, 5] .collect "" = .error (.operandWidth 3 0) := rfl
  have hfive := ((check_modes_agree wordlessAtFive [4, 5] "" "").2.1 _ hstopped).2
  have hrun := (check_modes_agree wordlessAtFive [] "" "").2.2.2 ⟨[], sound, ""⟩ [] [] [] [] rfl
    (by decide) (by simp [CommandLine.OptionSpec.fromEnvironment])
  exact ⟨hfour, hseven, hstopped, hfive, hrun⟩

end ByteRing

end WordRing
