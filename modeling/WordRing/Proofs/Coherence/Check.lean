import WordRing.Proofs.Coherence.Walk

/-!
# Which rings pass a check

A check, in either mode, reports no failure exactly if every law holds at every element it looks
at and the walk, where the ring is small enough for one, comes back by all the words there are.
A sound ring passes at every level, whatever elements are looked at.

## Main definitions

* `ByteRing.Passes r values` — nothing fails at these elements or on the walk.
* `ByteRing.cleanReport r values now` — the report of a check in which nothing fails.
-/
namespace WordRing

/-! ## Test values -/

namespace Quantum
variable {q : Quantum} {n : Nat}

theorem mem_of_mem_dropRepeats {ns : List Nat} (h : n ∈ dropRepeats ns) : n ∈ ns := by
  fun_induction dropRepeats ns with
  | case1 a rest ih => exact List.mem_cons_of_mem a (ih h)
  | case2 a b rest _ ih =>
    rcases List.mem_cons.1 h with rfl | h
    · exact List.mem_cons_self
    · exact List.mem_cons_of_mem a (ih h)
  | case3 => exact h

/-- Every test value is an element of the ring, whatever the generator draws. -/
theorem lt_cycle_of_mem_testValues (h : n ∈ q.testValues) : n < q.cycle := by
  have hpos := q.cycle_pos
  have htwo : 2 ≤ q.cycle := Nat.le_self_pow (Nat.succ_ne_zero _) 2
  rw [testValues] at h
  split at h
  next =>
    have hsample := List.mem_mergeSort.1 (mem_of_mem_dropRepeats h)
    simp only [List.mem_append, or_assoc] at hsample
    rcases hsample with h | h | h | h
    · simp only [boundaries, List.mem_cons, List.not_mem_nil, or_false] at h
      omega
    · obtain ⟨x, -, rfl⟩ := List.mem_map.1 h
      exact q.toNat_lt_cycle (List.length_replicate ..)
    · obtain ⟨i, -, hi⟩ := List.mem_flatMap.1 h
      simp only [List.mem_cons, List.not_mem_nil, or_false] at hi
      rcases hi with rfl | rfl | rfl | rfl <;> exact Nat.mod_lt _ hpos
    · exact Twister.lt_of_mem_drawMany hpos h
  next => exact List.mem_range.1 h

end Quantum

namespace ByteRing
variable {r : ByteRing} {mode : CheckMode} {values : List Nat} {now : String}

/-! ## Laws at elements -/

theorem violation?_eq_none_iff {law : Law} {n : Nat} :
    r.violation? law n = .ok none ↔ r.Keeps law (r.quantum.word n) := by
  simp only [violation?, bind_eq_ok, pure, Except.pure, Keeps]
  constructor
  · rintro ⟨⟨expected, actual⟩, hsides, hnone⟩
    by_cases h : expected = actual
    · exact ⟨actual, h ▸ hsides⟩
    · simp [h] at hnone
  · rintro ⟨c, hsides⟩
    exact ⟨(c, c), hsides, by simp⟩

theorem record_eq_nil_iff {found : Option Violation} :
    record mode found = .ok [] ↔ found = none := by
  cases found with
  | none => simp [record]
  | some v => cases mode <;> simp [record]

/-- A check counts every question that it asks. -/
theorem checks_of_checkEach {checks : List (Nat × Law)} {tally : Tally}
    (h : r.checkEach mode checks = .ok tally) : tally.checks = checks.length := by
  induction checks generalizing tally with
  | nil =>
    obtain rfl : (⟨0, []⟩ : Tally) = tally := Except.ok.inj h
    rfl
  | cons c rest ih =>
    obtain ⟨n, law⟩ := c
    simp only [checkEach, bind_eq_ok, pure, Except.pure, Except.ok.injEq] at h
    obtain ⟨v, -, found, -, others, hothers, rfl⟩ := h
    exact congrArg (· + 1) (ih hothers)

/-- The walk counts as one question, where there is one. -/
theorem checks_of_checkCycle {tally : Tally} (h : r.checkCycle mode = .ok tally) :
    tally.checks = if r.isWalked then 1 else 0 := by
  rw [checkCycle] at h
  split at h
  next hwalked =>
    simp only [bind_eq_ok, pure, Except.pure, Except.ok.injEq] at h
    obtain ⟨v, -, found, -, rfl⟩ := h
    rw [if_pos hwalked]
  next hwalked =>
    obtain rfl : (⟨0, []⟩ : Tally) = tally := Except.ok.inj h
    rw [if_neg hwalked]

/-- Whether a check goes on after a failure or not, it reports none exactly if there is none. -/
theorem checkEach_eq_nil_iff {checks : List (Nat × Law)} :
    r.checkEach mode checks = .ok ⟨checks.length, []⟩ ↔
      ∀ n law, (n, law) ∈ checks → r.Keeps law (r.quantum.word n) := by
  induction checks with
  | nil => simp [checkEach]
  | cons c rest ih =>
    obtain ⟨m, law'⟩ := c
    simp only [checkEach, bind_eq_ok, pure, Except.pure, Except.ok.injEq, Tally.mk.injEq,
      List.append_eq_nil_iff]
    constructor
    · rintro ⟨v, hv, found, hfound, others, hothers, hcount, rfl, hnone⟩ n law hmem
      rcases List.mem_cons.1 hmem with heq | hrest
      · obtain ⟨rfl, rfl⟩ := Prod.mk.inj heq
        rw [record_eq_nil_iff.1 hfound] at hv
        exact violation?_eq_none_iff.1 hv
      · refine ih.1 (hothers.trans ?_) n law hrest
        rw [← checks_of_checkEach hothers, ← hnone]
    · intro hkeeps
      have hfirst := violation?_eq_none_iff.2 (hkeeps m law' List.mem_cons_self)
      have hrest := ih.2 fun n law hmem => hkeeps n law (List.mem_cons_of_mem _ hmem)
      exact ⟨none, hfirst, [], rfl, _, hrest, rfl, rfl, rfl⟩

theorem mem_elementChecks {n : Nat} {law : Law} :
    (n, law) ∈ elementChecks values ↔ n ∈ values ∧ law ∈ Law.elementwise := by
  simp [elementChecks]

/-- Nine laws are asked at every element. -/
theorem length_elementChecks (values : List Nat) :
    (elementChecks values).length = 9 * values.length := by
  have hlaws : Law.elementwise.length = 9 := rfl
  simp [elementChecks, List.length_flatMap, hlaws, Nat.mul_comm]

/-! ## Whole checks -/

/-- Every law holds at these elements, and the full cycle where it is walked. -/
def Passes (r : ByteRing) (values : List Nat) : Prop :=
  (∀ n ∈ values, ∀ law ∈ Law.elementwise, r.Keeps law (r.quantum.word n)) ∧
    (r.isWalked = true → r.cycleViolation? = .ok none)

/-- The report of a check without failures. -/
def cleanReport (r : ByteRing) (values : List Nat) (now : String) : CoherenceReport where
  quantum := r.quantum
  totalChecks := 9 * values.length + if r.isWalked then 1 else 0
  violations := []
  fullCycleVerified := r.isWalked
  sampled := r.quantum.isSampled
  timestamp := now

theorem checkElements_eq_nil_iff :
    r.checkEach mode (elementChecks values) = .ok ⟨9 * values.length, []⟩ ↔
      ∀ n ∈ values, ∀ law ∈ Law.elementwise, r.Keeps law (r.quantum.word n) := by
  rw [← length_elementChecks, checkEach_eq_nil_iff]
  simp only [mem_elementChecks, and_imp]
  exact ⟨fun h n hn law => h n law hn, fun h n law hn => h n hn law⟩

theorem checkCycle_eq_nil_iff :
    r.checkCycle mode = .ok ⟨if r.isWalked then 1 else 0, []⟩ ↔
      (r.isWalked = true → r.cycleViolation? = .ok none) := by
  rw [checkCycle]
  split
  next hwalked =>
    simp only [bind_eq_ok, pure, Except.pure, Except.ok.injEq, Tally.mk.injEq,
      true_and, exists_eq_right, record_eq_nil_iff]
    exact ⟨fun h _ => h, fun h => h hwalked⟩
  next hwalked => simp [hwalked]

theorem checkAt_of_passes (h : r.Passes values) (mode : CheckMode) (now : String) :
    r.checkAt values mode now = .ok (r.cleanReport values now) := by
  rw [checkAt, checkElements_eq_nil_iff.2 h.1, checkCycle_eq_nil_iff.2 h.2]
  simp [cleanReport, bind, Except.bind, pure, Except.pure]

/-- A check that comes to its end has asked every question of every element, and has walked the ring
if it is small enough. -/
theorem totalChecks_of_checkAt {report : CoherenceReport}
    (h : r.checkAt values mode now = .ok report) :
    report.totalChecks = 9 * values.length + if r.isWalked then 1 else 0 := by
  simp only [checkAt, bind_eq_ok, pure, Except.pure, Except.ok.injEq] at h
  obtain ⟨onElements, helements, onCycle, hcycle, rfl⟩ := h
  rw [← length_elementChecks, ← checks_of_checkEach helements, ← checks_of_checkCycle hcycle]

theorem passes_of_checkAt {report : CoherenceReport} (h : r.checkAt values mode now = .ok report)
    (hverified : report.verified = true) : r.Passes values := by
  simp only [checkAt, bind_eq_ok, pure, Except.pure, Except.ok.injEq] at h
  obtain ⟨onElements, helements, onCycle, hcycle, rfl⟩ := h
  obtain ⟨hnoneElements, hnoneCycle⟩ : onElements.violations = [] ∧ onCycle.violations = [] := by
    simpa [CoherenceReport.verified] using hverified
  refine ⟨checkElements_eq_nil_iff.1 (helements.trans ?_),
    checkCycle_eq_nil_iff.1 (hcycle.trans ?_)⟩
  · rw [← hnoneElements, ← length_elementChecks, ← checks_of_checkEach helements]
  · rw [← hnoneCycle, ← checks_of_checkCycle hcycle]

/-- A ring is found verified exactly if nothing fails at the test values of its level or on the
walk. -/
theorem exists_verify_iff :
    (∃ report s, r.verify now = .ok (report, s) ∧ report.verified = true) ↔
      r.Passes r.quantum.testValues := by
  constructor
  · rintro ⟨report, s, hverify, hverified⟩
    simp only [verify, check, bind_eq_ok, pure, Except.pure, Except.ok.injEq] at hverify
    obtain ⟨report', hcheck, hpair⟩ := hverify
    obtain rfl : report' = report := congrArg Prod.fst hpair
    exact passes_of_checkAt hcheck hverified
  · intro h
    have hcheck := checkAt_of_passes h .collect now
    refine ⟨_, _, by rw [verify, check, hcheck]; rfl, rfl⟩

/-! ## Sound rings -/

theorem passes_of_takesForComplement {f : Bytes → Bytes} (h : r.TakesForComplement f)
    (hcycle : r.isWalked = true → r.cycleViolation? = .ok none) (values : List Nat) :
    r.Passes values :=
  ⟨fun n _ law _ => h.keeps law (r.quantum.length_word n), hcycle⟩

theorem passes_of_sound (hunary : r.UnarySound) (hxor : r.NarySound .xor) (values : List Nat) :
    r.Passes values :=
  passes_of_takesForComplement (takesForComplement_of_sound hunary hxor)
    (fun _ => cycleViolation?_of_sound hunary) values

/-- A sound ring passes its check, and is flagged from then on. -/
theorem verify_sound (q : Quantum) (now : String) :
    ∃ report, (sound q).verify now =
      .ok (report, { sound q with verified := true }) ∧ report.verified = true := by
  have hpasses : (sound q).Passes (sound q).quantum.testValues :=
    passes_of_sound (fun _ _ hb => sound_unary _ hb)
      (fun _ _ ha hb => sound_nary _ ha hb) _
  have hcheck := checkAt_of_passes hpasses .collect now
  refine ⟨_, by rw [verify, check, hcheck]; rfl, rfl⟩

theorem isSampled_iff {q : Quantum} : q.isSampled = true ↔ 1 ≤ q.level := by
  rw [Quantum.isSampled, decide_eq_true_iff, Quantum.bits, Quantum.width]
  omega

/-- **A sound ring passes at every level and in either mode.** Each of the nine laws holds at every
word. Whatever elements are looked at, the report shows no failure; it counts nine checks for each
of them and one more where the ring has at most 65536 elements, which is also where the full cycle
is verified; and from level one on it is marked as sampled. The test values that a check looks at
are elements of the ring. The walk from zero meets every word once and ends at zero. -/
theorem check_sound_passes (q : Quantum) (verified : Bool) :
    let r : ByteRing := { sound q with verified }
    (∀ law ∈ Law.elementwise, ∀ b, b.length = q.width → r.Keeps law b) ∧
    (∀ values mode now, ∃ report, r.checkAt values mode now = .ok report ∧
      report.verified = true ∧ report.violations = [] ∧
      report.totalChecks = 9 * values.length + (if q.cycle ≤ 65536 then 1 else 0) ∧
      (report.sampled = true ↔ 1 ≤ q.level) ∧
      (report.fullCycleVerified = true ↔ q.cycle ≤ 65536)) ∧
    (∀ mode now, r.check mode now = r.checkAt q.testValues mode now) ∧
    (∀ n ∈ q.testValues, n < q.cycle) ∧
    (∀ b, b.length = q.width → ∃! i, i < q.cycle ∧ r.walkFrom i q.zero ∅ = .ok (b, i)) ∧
    r.walkFrom q.cycle q.zero ∅ = .ok (q.zero, q.cycle) := by
  intro r
  have hunary : r.UnarySound := fun op b hb => sound_unary op hb
  have hxor : r.NarySound .xor := fun a b ha hb => sound_nary .xor ha hb
  have hwalked : r.isWalked = true ↔ q.cycle ≤ 65536 := by rw [isWalked, decide_eq_true_iff]; rfl
  refine ⟨fun law _ b hb => (takesForComplement_of_sound hunary hxor).keeps law hb, ?_,
    fun mode now => rfl, fun n hn => Quantum.lt_cycle_of_mem_testValues hn,
    fun b hb => existsUnique_walkFrom_eq hunary hb, walkFrom_cycle hunary⟩
  intro values mode now
  have hsampled : r.quantum.isSampled = true ↔ 1 ≤ q.level := isSampled_iff
  refine ⟨r.cleanReport values now,
    checkAt_of_passes (passes_of_sound hunary hxor values) mode now, rfl, rfl, ?_⟩
  simp only [cleanReport, hwalked, hsampled, and_self]

end ByteRing

end WordRing
