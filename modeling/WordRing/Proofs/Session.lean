import WordRing.Proofs.Coherence.Check
import WordRing.Session

/-!
# What the flags of a session tell

A ring is flagged exactly if an earlier step had that very ring check itself and the check passed.
One step either is such a check, or replaces the faults of a ring and takes its flag over, or leaves
all rings alone; so whatever the run, its flags are a record of the checks that were passed, and a
receipt notes that record as it stood when the receipt was asked for.

## Main definitions

* `Session.flagged s i` — the flag of the ring at an index.
* `Session.reached s steps` — the session that steps lead to.
* `Session.RaisedAt s steps j i` — the step at a position of a run is a passed check of a ring.
-/
namespace WordRing

namespace Session
variable {s after : Session} {r : ByteRing} {step : Step} {steps : List Step} {i j k : Nat}
  {outcome : Outcome}

/-- Whether the ring at an index is flagged as verified; one that does not exist is not. -/
def flagged (s : Session) (i : Nat) : Bool := s.rings[i]?.any ByteRing.verified

theorem flagged_of_rings_eq (h : after.rings = s.rings) (i : Nat) :
    after.flagged i = s.flagged i := by rw [flagged, flagged, h]

/-- Putting a ring in another's place changes the flag of that place only. -/
theorem flagged_of_rings_eq_set {r' : ByteRing} (hring : s.rings[j]? = some r)
    (h : after.rings = s.rings.set j r') (i : Nat) :
    after.flagged i = if i = j then r'.verified else s.flagged i := by
  have hlt : j < s.rings.length := (List.getElem?_eq_some_iff.1 hring).1
  rw [flagged, h]
  by_cases hij : i = j
  · simp [hij, List.getElem?_set_self hlt]
  · simp [hij, List.getElem?_set_ne (Ne.symm hij), flagged]

theorem flagged_eq_true_iff :
    s.flagged i = true ↔ ∃ r, s.rings[i]? = some r ∧ r.verified = true := by
  cases hring : s.rings[i]? <;> simp [flagged, hring]

theorem flagged_eq_verified (hring : s.rings[i]? = some r) : s.flagged i = r.verified := by
  simp [flagged, hring]

theorem rings_keep (s : Session) (name : Option String) (record : Record) :
    (s.keep name record).rings = s.rings := by cases name <;> rfl

/-! ## One step -/

/-- All that an action can do to the rings: a check by `verify` raises the flag of its ring if it
passes, replacing faults takes the flag over, and every other action leaves the rings as they are.
A receipt notes the flag of its ring. -/
theorem act_cases (h : s.act r step step.action = .ok (after, outcome)) :
    (step.action = .verify ∧ ∃ report, outcome = .report report ∧ after.rings =
      s.rings.set step.ring (if report.verified then { r with verified := true } else r)) ∨
    (∃ faults, step.action = .setFaults faults ∧ outcome = .nothing ∧ after.rings =
      s.rings.set step.ring
        { ByteRing.withFaults r.quantum faults with verified := r.verified }) ∨
    ((step.action ≠ .verify ∧ after.rings = s.rings) ∧
      ∀ d c, outcome = .receipt d c → c.coherenceVerified = r.verified) := by
  cases haction : step.action with
  | verify =>
    simp only [haction, act, ByteRing.verify, bind_eq_ok, pure, Except.pure, Except.ok.injEq] at h
    obtain ⟨-, ⟨report, -, rfl⟩, hpair⟩ := h
    obtain ⟨rfl, rfl⟩ := Prod.mk.inj hpair
    exact .inl ⟨rfl, report, rfl, rfl⟩
  | setFaults faults =>
    simp only [haction, act, pure, Except.pure, Except.ok.injEq] at h
    obtain ⟨rfl, rfl⟩ := Prod.mk.inj h
    exact .inr (.inl ⟨faults, rfl, rfl, rfl⟩)
  | check mode =>
    simp only [haction, act, bind_eq_ok, pure, Except.pure, Except.ok.injEq] at h
    obtain ⟨report, -, hpair⟩ := h
    obtain ⟨rfl, rfl⟩ := Prod.mk.inj hpair
    exact .inr (.inr ⟨⟨by simp, rfl⟩, by simp⟩)
  | derive term =>
    simp only [haction, act, bind_eq_ok, pure, Except.pure, Except.ok.injEq] at h
    obtain ⟨t, -, d, -, hpair⟩ := h
    obtain ⟨rfl, rfl⟩ := Prod.mk.inj hpair
    exact .inr (.inr ⟨⟨by simp, rings_keep ..⟩, by simp⟩)
  | reproduce derivation term =>
    simp only [haction, act, bind_eq_ok, pure, Except.pure, Except.ok.injEq] at h
    obtain ⟨d, -, t, -, b, -, hpair⟩ := h
    obtain ⟨rfl, rfl⟩ := Prod.mk.inj hpair
    exact .inr (.inr ⟨⟨by simp, rfl⟩, by simp⟩)
  | certify derivation term parents =>
    simp only [haction, act, bind_eq_ok, pure, Except.pure, Except.ok.injEq] at h
    obtain ⟨d, -, t, -, c, -, hpair⟩ := h
    obtain ⟨rfl, rfl⟩ := Prod.mk.inj hpair
    exact .inr (.inr ⟨⟨by simp, rings_keep ..⟩, by simp⟩)
  | confirm certificate derivation term =>
    simp only [haction, act, bind_eq_ok, pure, Except.pure, Except.ok.injEq] at h
    obtain ⟨c, -, d, -, t, -, b, -, hpair⟩ := h
    obtain ⟨rfl, rfl⟩ := Prod.mk.inj hpair
    exact .inr (.inr ⟨⟨by simp, rfl⟩, by simp⟩)
  | amend record changes =>
    simp only [haction, act, bind_eq_ok, pure, Except.pure, Except.ok.injEq] at h
    obtain ⟨found, -, amended, -, hpair⟩ := h
    obtain ⟨rfl, rfl⟩ := Prod.mk.inj hpair
    exact .inr (.inr ⟨⟨by simp, rings_keep ..⟩, by simp⟩)
  | receipt moduleId term unstable =>
    simp only [haction, act, ByteRing.receiptOf, bind_eq_ok, pure, Except.pure,
      Except.ok.injEq] at h
    obtain ⟨t, -, -, ⟨first, -, second, -, rfl⟩, hpair⟩ := h
    obtain ⟨rfl, rfl⟩ := Prod.mk.inj hpair
    refine .inr (.inr ⟨⟨by simp, rings_keep ..⟩, ?_⟩)
    rintro d c hreceipt
    obtain ⟨rfl, rfl⟩ := Outcome.receipt.inj hreceipt
    rfl

/-- A step that has the ring at an index check itself, with the outcome that it passed. -/
def Raises (i : Nat) (step : Step) (outcome : Except Error Outcome) : Prop :=
  step.ring = i ∧ step.action = .verify ∧
    ∃ report, outcome = .ok (.report report) ∧ report.verified = true

theorem not_raises_of_action_ne {outcome : Except Error Outcome} (h : step.action ≠ .verify) :
    ¬ Raises i step outcome := fun hraises => h hraises.2.1

theorem run_of_perform_ok (h : s.perform step = .ok (after, outcome)) :
    s.run step = (after, .ok outcome) := by simp [run, h]

theorem run_of_perform_error {e : Error} (h : s.perform step = .error e) :
    s.run step = (s, .error e) := by simp [run, h]

theorem perform_eq_ok_iff :
    s.perform step = .ok (after, outcome) ↔
      ∃ r, s.rings[step.ring]? = some r ∧ s.act r step step.action = .ok (after, outcome) := by
  cases hring : s.rings[step.ring]? <;> simp [perform, ringAt, hring, bind, Except.bind]

/-- **A step raises the flag of the ring that it has check itself, if the check passes**, and does
nothing else to flags, whether it fails or not. -/
theorem flagged_run (s : Session) (step : Step) (i : Nat) :
    (s.run step).1.flagged i = true ↔ s.flagged i = true ∨ Raises i step (s.run step).2 := by
  cases hperform : s.perform step with
  | error e =>
    rw [run_of_perform_error hperform]
    simp [Raises]
  | ok result =>
    obtain ⟨after, outcome⟩ := result
    rw [run_of_perform_ok hperform]
    obtain ⟨r, hring, hact⟩ := perform_eq_ok_iff.1 hperform
    rcases act_cases hact with ⟨haction, report, rfl, hrings⟩ | ⟨faults, haction, -, hrings⟩ |
      ⟨⟨haction, hrings⟩, -⟩
    · rw [flagged_of_rings_eq_set hring hrings]
      by_cases hi : i = step.ring
      · subst hi
        rw [if_pos rfl, flagged_eq_verified hring]
        cases hverified : report.verified <;> simp [Raises, haction, hverified]
      · rw [if_neg hi]
        simp [Raises, Ne.symm hi]
    · have hnot : ¬ Raises i step (.ok outcome) :=
        not_raises_of_action_ne (by simp [haction])
      rw [flagged_of_rings_eq_set hring hrings, or_iff_left hnot]
      by_cases hi : i = step.ring
      · subst hi
        rw [if_pos rfl, flagged_eq_verified hring]
      · rw [if_neg hi]
    · rw [flagged_of_rings_eq hrings, or_iff_left (not_raises_of_action_ne haction)]

/-- A receipt notes the flag of its ring. -/
theorem coherenceVerified_of_run {d : Derivation} {c : Receipt}
    (h : (s.run step).2 = .ok (.receipt d c)) : c.coherenceVerified = s.flagged step.ring := by
  cases hperform : s.perform step with
  | error e =>
    simp [run_of_perform_error hperform] at h
  | ok result =>
    obtain ⟨after, outcome⟩ := result
    rw [run_of_perform_ok hperform] at h
    obtain ⟨r, hring, hact⟩ := perform_eq_ok_iff.1 hperform
    obtain rfl : outcome = .receipt d c := Except.ok.inj h
    rw [flagged_eq_verified hring]
    rcases act_cases hact with ⟨-, report, hreport, -⟩ | ⟨faults, -, hnothing, -⟩ | ⟨-, hreceipt⟩
    · cases hreport
    · cases hnothing
    · exact hreceipt d c rfl

/-- A step that fails leaves the session as it was. -/
theorem run_of_error {e : Error} (h : (s.run step).2 = .error e) : (s.run step).1 = s := by
  cases hperform : s.perform step with
  | error e => rw [run_of_perform_error hperform]
  | ok result =>
    simp [run_of_perform_ok hperform] at h

/-! ## Runs -/

/-- The session that steps lead to. -/
def reached (s : Session) (steps : List Step) : Session :=
  steps.foldl (fun s step => (s.run step).1) s

/-- What a run lists at a position is the step there, run where the steps before it lead to. -/
theorem getElem?_runAll (s : Session) (steps : List Step) (k : Nat) :
    (s.runAll steps)[k]? = steps[k]?.map (s.reached (steps.take k)).run := by
  induction steps generalizing s k with
  | nil => rfl
  | cons step steps ih =>
    cases k with
    | zero => rfl
    | succ k => exact ih (s.run step).1 k

theorem reached_take_succ (s : Session) (hstep : steps[k]? = some step) :
    s.reached (steps.take (k + 1)) = ((s.reached (steps.take k)).run step).1 := by
  rw [List.take_add_one, hstep, reached, List.foldl_append]
  rfl

/-- The step at a position of a run has the ring at an index check itself, and the check passes. -/
def RaisedAt (s : Session) (steps : List Step) (j i : Nat) : Prop :=
  ∃ step after outcome, steps[j]? = some step ∧ (s.runAll steps)[j]? = some (after, outcome) ∧
    Raises i step outcome

theorem raisedAt_iff (hstep : steps[j]? = some step) :
    s.RaisedAt steps j i ↔ Raises i step ((s.reached (steps.take j)).run step).2 := by
  have hrun : (s.runAll steps)[j]? = some ((s.reached (steps.take j)).run step) := by
    rw [getElem?_runAll, hstep, Option.map_some]
  constructor
  · rintro ⟨step', after, outcome, hstep', hrun', hraises⟩
    obtain rfl := Option.some_inj.1 (hstep.symm.trans hstep')
    rw [Option.some_inj.1 (hrun.symm.trans hrun')]
    exact hraises
  · exact fun hraises => ⟨step, _, _, hstep, hrun, hraises⟩

/-- **The flags after any number of steps are a record of the checks passed so far.** -/
theorem flagged_reached_take (s : Session) (steps : List Step) (k i : Nat) :
    (s.reached (steps.take k)).flagged i = true ↔
      s.flagged i = true ∨ ∃ j < k, s.RaisedAt steps j i := by
  induction k with
  | zero => simp [reached]
  | succ k ih =>
    have hsplit : (∃ j < k + 1, s.RaisedAt steps j i) ↔
        (∃ j < k, s.RaisedAt steps j i) ∨ s.RaisedAt steps k i := by
      simp only [Nat.lt_succ_iff_lt_or_eq, or_and_right, exists_or, exists_eq_left]
    rw [hsplit, ← or_assoc, ← ih]
    cases hstep : steps[k]? with
    | none =>
      have hnot : ¬ s.RaisedAt steps k i := by simp [RaisedAt, hstep]
      rw [List.take_add_one, hstep, or_iff_left hnot, Option.toList_none, List.append_nil]
    | some step => rw [reached_take_succ s hstep, flagged_run, raisedAt_iff hstep]

/-- **Flags tell the history of checks.** In a session of new rings, sound or not, every step of a
run is answered, and a ring is flagged after it exactly if that step or an earlier one had this very
ring check itself with a report that found it verified. No step lowers a flag or touches that of
another ring, a step that fails changes nothing, no action but `verify` changes a flag, not even the
bare check in either mode, and every receipt notes whether its ring had passed a check before. -/
theorem flagged_iff_raisedAt (hnew : ∀ r ∈ s.rings, r.verified = false)
    (hstep : steps[k]? = some step) :
    let before := s.reached (steps.take k)
    let after := (before.run step).1
    let outcome := (before.run step).2
    (s.runAll steps)[k]? = some (after, outcome) ∧
    (∀ i, after.flagged i = true ↔ ∃ j ≤ k, s.RaisedAt steps j i) ∧
    (∀ i, before.flagged i = true → after.flagged i = true) ∧
    (∀ i, i ≠ step.ring → after.flagged i = before.flagged i) ∧
    (∀ e, outcome = .error e → after = before) ∧
    (step.action ≠ .verify → ∀ i, after.flagged i = before.flagged i) ∧
    (∀ d c, outcome = .ok (.receipt d c) →
      (c.coherenceVerified = true ↔ ∃ j < k, s.RaisedAt steps j step.ring)) := by
  intro before after outcome
  have hfresh (i : Nat) : ¬ s.flagged i = true := by
    intro h
    obtain ⟨r, hring, hverified⟩ := flagged_eq_true_iff.1 h
    exact Bool.false_ne_true ((hnew r (List.mem_of_getElem? hring)).symm.trans hverified)
  have hhistory (k i : Nat) : (s.reached (steps.take k)).flagged i = true ↔
      ∃ j < k, s.RaisedAt steps j i := by
    rw [flagged_reached_take, or_iff_right (hfresh i)]
  have hafter : s.reached (steps.take (k + 1)) = after := reached_take_succ s hstep
  have hflags (i : Nat) : after.flagged i = true ↔
      before.flagged i = true ∨ Raises i step outcome := flagged_run before step i
  have hsame {i : Nat} (hnot : ¬ Raises i step outcome) : after.flagged i = before.flagged i := by
    rw [Bool.eq_iff_iff, hflags, or_iff_left hnot]
  refine ⟨by rw [getElem?_runAll, hstep]; rfl, ?_, ?_, ?_, ?_, ?_, ?_⟩
  · intro i
    rw [← hafter, hhistory]
    simp only [Nat.lt_succ_iff]
  · intro i h
    exact (hflags i).2 (.inl h)
  · intro i hi
    exact hsame fun hraises => hi hraises.1.symm
  · intro e herror
    exact run_of_error herror
  · intro haction i
    exact hsame (not_raises_of_action_ne haction)
  · intro d c hreceipt
    rw [coherenceVerified_of_run hreceipt]
    exact hhistory k step.ring

/-- A sound ring checks itself, then a ring with a fault is only checked, and then a receipt is
asked for in the sound ring: the receipt, if there is one, notes the check of the sound ring, and
the other ring is not flagged. -/
theorem flagged_iff_raisedAt_receipt :
    let s : Session := ⟨[.sound ⟨0⟩, .withFaults ⟨0⟩ [⟨.unary .neg, [3], [7]⟩]], []⟩
    let steps : List Step := [⟨0, .verify, none, ""⟩, ⟨1, .check .collect, none, ""⟩,
      ⟨0, .receipt "m" (.int 7) false, none, ""⟩]
    (∀ r ∈ s.rings, r.verified = false) ∧
    steps[2]? = some ⟨0, .receipt "m" (.int 7) false, none, ""⟩ ∧
    (s.reached steps).flagged 0 = true ∧ ¬ (s.reached steps).flagged 1 = true ∧
    ∀ d c, ((s.reached (steps.take 2)).run ⟨0, .receipt "m" (.int 7) false, none, ""⟩).2 =
      .ok (.receipt d c) → c.coherenceVerified = true := by
  intro s steps
  have hnew : ∀ r ∈ s.rings, r.verified = false := by simp [s, ByteRing.sound, ByteRing.withFaults]
  have hsound : (ByteRing.sound ⟨0⟩).Passes (Quantum.testValues ⟨0⟩) :=
    ByteRing.passes_of_sound (fun _ _ hb => ByteRing.sound_unary _ hb)
      (fun _ _ ha hb => ByteRing.sound_nary _ ha hb) _
  obtain ⟨report, r, hverify, hverified⟩ : ∃ report r, ByteRing.verify (.sound ⟨0⟩) "" =
      .ok (report, r) ∧ report.verified = true := ByteRing.exists_verify_iff.2 hsound
  have hfirst : s.RaisedAt steps 0 0 := by
    refine (raisedAt_iff rfl).2 ⟨rfl, rfl, report, ?_, hverified⟩
    have hact : s.perform ⟨0, .verify, none, ""⟩ =
        .ok ({ s with rings := s.rings.set 0 r }, .report report) := by
      simp [perform, ringAt, act, s, hverify, bind, Except.bind, pure, Except.pure]
    exact congrArg Prod.snd (run_of_perform_ok hact)
  have hstep : steps[2]? = some ⟨0, .receipt "m" (.int 7) false, none, ""⟩ := rfl
  obtain ⟨-, hflags, -, -, -, -, hreceipt⟩ := flagged_iff_raisedAt hnew hstep
  refine ⟨hnew, hstep, (hflags 0).2 ⟨0, by decide, hfirst⟩, ?_, ?_⟩
  · intro h
    obtain ⟨j, -, step, -, -, hstep, -, hring, haction, -⟩ := (hflags 1).1 h
    have hmem : step ∈ steps := List.mem_of_getElem? hstep
    simp only [steps, List.mem_cons, List.not_mem_nil, or_false] at hmem
    rcases hmem with rfl | rfl | rfl
    · exact absurd hring (by decide)
    · cases haction
    · exact absurd hring (by decide)
  · intro d c h
    exact (hreceipt d c h).2 ⟨0, by decide, hfirst⟩

end Session

end WordRing
