import Mathlib.Logic.Equiv.Basic
import WordRing.Proofs.Coherence.Check
import WordRing.Proofs.Nodes

/-!
# What a check says about a faulty ring

At level zero a check looks at every element. A ring with faults, whose exclusive or has none,
passes exactly if its unary operators do what they stand for, so that the check proves them sound.
It proves nothing about `and` and `or`, which no law mentions, and about exclusive or only what it
answers to equal and to complementary words. A ring that passes evaluates every term as a sound one
exactly if these three operators are sound as well.
-/
namespace WordRing

/-! ## Operators with faults -/

theorem Quantum.length_of_expect {q : Quantum} {b c : Bytes} (h : q.expect b = .ok c) :
    b.length = q.width := by
  rw [expect] at h
  split at h
  next hb => exact hb
  next => cases h

theorem Fault.answer?_eq_none {faults : List Fault} {o : Operator}
    (h : ∀ f ∈ faults, f.operator ≠ o) (bs : List Bytes) : answer? faults o bs = none := by
  rw [answer?, Option.map_eq_none_iff, List.find?_eq_none]
  intro f hf
  simp [h f hf]

namespace ByteRing
variable {q : Quantum} {faults : List Fault} {verified : Bool} {r : ByteRing}

/-- With faults or without, the operators refuse what is not a word of the ring's width. -/
theorem refusesWidths_withFaults :
    RefusesWidths { withFaults q faults with verified } := by
  have hwhole (whole : Bytes → Except Error Bytes) (op : UnaryOp) (b c : Bytes)
      (h : unaryWithFaults q faults whole op b = .ok c) : b.length = q.width := by
    obtain ⟨b', hexpect, -⟩ := bind_eq_ok.1 h
    exact Quantum.length_of_expect hexpect
  intro op b c h
  cases op with
  | neg => exact hwhole _ _ b c h
  | bnot => exact hwhole _ _ b c h
  | succ => exact hwhole _ _ b c h
  | pred => exact hwhole _ _ b c h

theorem unaryWithFaults_word {whole : Bytes → Except Error Bytes} (op : UnaryOp) {b : Bytes}
    (hb : b.length = q.width) : unaryWithFaults q faults whole op b =
      (Fault.answer? faults (.unary op) [b]).elim (whole b) .ok := by
  rw [unaryWithFaults, q.expect_of_length hb]
  cases h : Fault.answer? faults (.unary op) [b] <;> simp [h, bind, Except.bind, pure, Except.pure]

theorem nary_withFaults (op : NaryOp) {a b : Bytes} (ha : a.length = q.width)
    (hb : b.length = q.width) : (withFaults q faults).nary op a b =
      .ok ((Fault.answer? faults (.nary op) [a, b]).getD (op.apply a b)) := by
  simp only [withFaults, q.expect_of_length ha, q.expect_of_length hb, bind, Except.bind]
  cases Fault.answer? faults (.nary op) [a, b] <;> rfl

theorem narySound_withFaults {op : NaryOp} (h : ∀ f ∈ faults, f.operator ≠ .nary op) :
    NarySound { withFaults q faults with verified } op := by
  intro a b ha hb
  rw [← Option.getD_none (a := op.apply a b), ← Fault.answer?_eq_none h [a, b]]
  exact nary_withFaults op ha hb

theorem unaryWithFaults_of_ne (whole : Bytes → Except Error Bytes) {op : UnaryOp}
    (h : ∀ f ∈ faults, f.operator ≠ .unary op) {b : Bytes} (hb : b.length = q.width) :
    unaryWithFaults q faults whole op b = whole b := by
  rw [unaryWithFaults_word op hb, Fault.answer?_eq_none h]
  rfl

/-- Without faults of its own, successor is negation after complement. -/
theorem unary_succ_withFaults (h : ∀ f ∈ faults, f.operator ≠ .unary .succ) {b : Bytes}
    (hb : b.length = q.width) : (withFaults q faults).unary .succ b =
      (withFaults q faults).unary .bnot b >>= (withFaults q faults).unary .neg :=
  unaryWithFaults_of_ne _ h hb

/-- Without faults of its own, predecessor is complement after negation. -/
theorem unary_pred_withFaults (h : ∀ f ∈ faults, f.operator ≠ .unary .pred) {b : Bytes}
    (hb : b.length = q.width) : (withFaults q faults).unary .pred b =
      (withFaults q faults).unary .neg b >>= (withFaults q faults).unary .bnot :=
  unaryWithFaults_of_ne _ h hb

theorem unarySound_withFaults (h : ∀ f ∈ faults, ∀ op, f.operator ≠ .unary op) :
    UnarySound (withFaults q faults) := by
  have hneg {b : Bytes} (hb : b.length = q.width) :
      (withFaults q faults).unary .neg b = .ok (Bytes.neg b) :=
    unaryWithFaults_of_ne _ (fun f hf => h f hf .neg) hb
  have hbnot {b : Bytes} (hb : b.length = q.width) :
      (withFaults q faults).unary .bnot b = .ok (Bytes.bnot b) :=
    unaryWithFaults_of_ne _ (fun f hf => h f hf .bnot) hb
  intro op b (hb : b.length = q.width)
  cases op with
  | neg => exact hneg hb
  | bnot => exact hbnot hb
  | succ =>
    rw [unary_succ_withFaults (fun f hf => h f hf .succ) hb, hbnot hb]
    exact hneg ((Bytes.length_bnot b).trans hb)
  | pred =>
    rw [unary_pred_withFaults (fun f hf => h f hf .pred) hb, hneg hb]
    exact hbnot ((Bytes.length_neg b).trans hb)

/-- Faults in complement and exclusive or leave the laws intact where the answers to a complement
are an involution and exclusive or goes along with it. -/
theorem takesForComplement_withFaults {f : Bytes → Bytes}
    (hoperators : ∀ g ∈ faults, g.operator = .unary .bnot ∨ g.operator = .nary .xor)
    (hf : ∀ b, f b = (Fault.answer? faults (.unary .bnot) [b]).getD b.bnot)
    (hwords : ∀ b, b.length = q.width → (f b).length = q.width ∧ f (f b) = b ∧
      (Fault.answer? faults (.nary .xor) [b, f b]).getD (b.xor (f b)) = q.ones ∧
      Fault.answer? faults (.nary .xor) [b, b] = none) :
    TakesForComplement (withFaults q faults) f := by
  have hnone (op : UnaryOp) (hop : op ≠ .bnot) : ∀ g ∈ faults, g.operator ≠ .unary op := by
    intro g hg hoperator
    simpa [hoperator, hop] using hoperators g hg
  have hneg {b : Bytes} (hb : b.length = q.width) :
      (withFaults q faults).unary .neg b = .ok (Bytes.neg b) :=
    unaryWithFaults_of_ne _ (hnone .neg (by decide)) hb
  have hbnot {b : Bytes} (hb : b.length = q.width) :
      (withFaults q faults).unary .bnot b = .ok (f b) := by
    refine (unaryWithFaults_word .bnot hb).trans ?_
    rw [hf]
    cases Fault.answer? faults (.unary .bnot) [b] <;> rfl
  have hlength {b : Bytes} (hb : b.length = q.width) : (f b).length = q.width := (hwords b hb).1
  refine ⟨hlength, fun hb => (hwords _ hb).2.1, hneg, hbnot, ?_, ?_, ?_, ?_⟩
  · intro b (hb : b.length = q.width)
    rw [unary_succ_withFaults (hnone .succ (by decide)) hb, hbnot hb]
    exact hneg (hlength hb)
  · intro b (hb : b.length = q.width)
    rw [unary_pred_withFaults (hnone .pred (by decide)) hb, hneg hb]
    exact hbnot ((Bytes.length_neg b).trans hb)
  · intro b (hb : b.length = q.width)
    refine (nary_withFaults .xor hb (hlength hb)).trans ?_
    exact congrArg Except.ok (hwords b hb).2.2.1
  · intro b (hb : b.length = q.width)
    refine (nary_withFaults .xor hb hb).trans ?_
    rw [(hwords b hb).2.2.2, Option.getD_none, NaryOp.apply_xor_self hb]
    exact congrArg Except.ok q.word_zero

/-! ## Exhaustive checks -/

/-- Where a level is not sampled, every word is looked at. -/
theorem keeps_of_passes (hall : r.quantum.isSampled = false)
    (h : r.Passes r.quantum.testValues) :
    ∀ law ∈ Law.elementwise, ∀ b, b.length = r.quantum.width → r.Keeps law b := by
  intro law hlaw b hb
  obtain ⟨n, hn, rfl⟩ := r.quantum.exists_word_eq hb
  refine h.1 n ?_ law hlaw
  rw [Quantum.testValues, hall]
  exact List.mem_range.2 hn

/-- An exhaustive check leaves only the complement open. -/
theorem passes_iff_exists_takesForComplement (hrefuses : r.RefusesWidths)
    (hall : r.quantum.isSampled = false) :
    r.Passes r.quantum.testValues ↔
      (∃ f, r.TakesForComplement f) ∧ (r.isWalked = true → r.cycleViolation? = .ok none) := by
  constructor
  · intro h
    exact ⟨(keeps_iff_exists_takesForComplement hrefuses).1 (keeps_of_passes hall h), h.2⟩
  · rintro ⟨⟨f, hf⟩, hcycle⟩
    exact passes_of_takesForComplement hf hcycle _

/-- **An exhaustive check proves the unary operators.** -/
theorem passes_iff_unarySound (hrefuses : r.RefusesWidths) (hxor : r.NarySound .xor)
    (hall : r.quantum.isSampled = false) :
    r.Passes r.quantum.testValues ↔ r.UnarySound := by
  constructor
  · intro h
    obtain ⟨⟨f, hf⟩, -⟩ := (passes_iff_exists_takesForComplement hrefuses hall).1 h
    exact hf.unarySound hxor.tellsComplements
  · exact fun h => passes_of_sound h hxor _

/-- At one byte the unary operators are the operations modulo 256. -/
theorem apply_singleton (x : UInt8) :
    UnaryOp.neg.apply [x] = [-x] ∧ UnaryOp.bnot.apply [x] = [255 - x] ∧
      UnaryOp.succ.apply [x] = [x + 1] ∧ UnaryOp.pred.apply [x] = [x - 1] := by
  have hneg (y : UInt8) : Bytes.neg [y] = [-y] := by
    have hnumber : Bytes.toNat [y] = y.toNat := Nat.zero_add _
    have hbyte : UInt8.ofNat (256 - y.toNat) = -y := by
      rw [← UInt8.toNat_inj, UInt8.toNat_ofNat', UInt8.toNat_neg]
    rw [Bytes.neg, hnumber, ← hbyte]
    rfl
  have hbnot (y : UInt8) : Bytes.bnot [y] = [255 - y] := by
    have hbyte : ~~~y = 255 - y := by
      rw [UInt8.not_eq_neg_sub]
      grind
    rw [← hbyte]
    rfl
  refine ⟨hneg x, hbnot x, ?_, ?_⟩
  · have hbyte : -(255 - x) = x + 1 := by grind
    rw [UnaryOp.apply, Bytes.succ, hbnot, hneg, hbyte]
  · have hbyte : 255 - -x = x - 1 := by grind
    rw [UnaryOp.apply, Bytes.pred, hneg, hbnot, hbyte]

theorem unarySound_iff_of_level_zero (hlevel : r.quantum = ⟨0⟩) :
    r.UnarySound ↔ ∀ x : UInt8, r.unary .neg [x] = .ok [-x] ∧ r.unary .bnot [x] = .ok [255 - x] ∧
      r.unary .succ [x] = .ok [x + 1] ∧ r.unary .pred [x] = .ok [x - 1] := by
  have hwidth : r.quantum.width = 1 := by rw [hlevel]; rfl
  constructor
  · intro h x
    obtain ⟨hneg, hbnot, hsucc, hpred⟩ := apply_singleton x
    rw [h .neg [x] hwidth.symm, h .bnot [x] hwidth.symm, h .succ [x] hwidth.symm,
      h .pred [x] hwidth.symm, hneg, hbnot, hsucc, hpred]
    exact ⟨rfl, rfl, rfl, rfl⟩
  · intro h op b hb
    obtain ⟨x, rfl⟩ := List.length_eq_one_iff.1 (hb.trans hwidth)
    obtain ⟨hneg, hbnot, hsucc, hpred⟩ := apply_singleton x
    cases op with
    | neg => rw [hneg, (h x).1]
    | bnot => rw [hbnot, (h x).2.1]
    | succ => rw [hsucc, (h x).2.2.1]
    | pred => rw [hpred, (h x).2.2.2]

/-- **An exhaustive check is a proof for the unary operators.** A ring of one byte with faults, none
of them in exclusive or, is found verified exactly if `neg`, `bnot`, `succ` and `pred` answer every
element with the one byte that they are to answer with. -/
theorem verify_iff_unary_exact (faults : List Fault) (verified : Bool) (now : String)
    (hxor : ∀ f ∈ faults, f.operator ≠ .nary .xor) :
    let r : ByteRing := { withFaults ⟨0⟩ faults with verified }
    (∃ report s, r.verify now = .ok (report, s) ∧ report.verified = true) ↔
      ∀ x : UInt8, r.unary .neg [x] = .ok [-x] ∧ r.unary .bnot [x] = .ok [255 - x] ∧
        r.unary .succ [x] = .ok [x + 1] ∧ r.unary .pred [x] = .ok [x - 1] := by
  intro r
  rw [exists_verify_iff, passes_iff_unarySound refusesWidths_withFaults
    (narySound_withFaults hxor) rfl, unarySound_iff_of_level_zero rfl]

/-- A successor that answers with the right number, but in too many bytes, is found out. -/
theorem verify_iff_unary_exact_wide :
    let faults : List Fault := [⟨.unary .succ, [7], [0, 8]⟩, ⟨.nary .or, [1, 2], []⟩]
    (∀ f ∈ faults, f.operator ≠ .nary .xor) ∧
    ¬ ∃ report s, verify (withFaults ⟨0⟩ faults) "" = .ok (report, s) ∧
      report.verified = true := by
  intro faults
  have hxor : ∀ f ∈ faults, f.operator ≠ .nary .xor := by decide
  refine ⟨hxor, fun hverify => ?_⟩
  obtain ⟨-, -, hsucc, -⟩ := (verify_iff_unary_exact faults false "" hxor).1 hverify 7
  exact absurd (Except.ok.inj hsucc) (by decide)

/-! ## Evaluation -/

theorem accumulate_eq_sound {op : NaryOp} (hop : r.NarySound op) {b : Bytes}
    (hb : b.length = r.quantum.width) {xs : List (Except Error Bytes)}
    (hxs : ∀ c, .ok c ∈ xs → c.length = r.quantum.width) :
    r.accumulate op b xs = (sound r.quantum).accumulate op b xs := by
  induction xs generalizing b with
  | nil => rfl
  | cons x xs ih =>
    cases x with
    | error e => rfl
    | ok c =>
      have hc : c.length = r.quantum.width := hxs c List.mem_cons_self
      have hnext : (op.apply b c).length = r.quantum.width := by
        rw [NaryOp.length_apply, hb, hc, Nat.min_self]
      have hrest := ih hnext fun d hd => hxs d (List.mem_cons_of_mem _ hd)
      simpa [accumulate, hop b c hb hc, sound_nary op hb hc, bind, Except.bind] using hrest

/-- Where the operators of a term are sound, so is its evaluation. -/
theorem evaluate_eq_sound (hunary : r.UnarySound) {t : Term}
    (hnary : t.Everywhere fun u => ∀ op ts, u = .nary op ts → r.NarySound op) :
    r.evaluate t = (sound r.quantum).evaluate t := by
  induction t using Term.induct with
  | const n => rfl
  | var x => rfl
  | unary op t ih =>
    rw [evaluate_unary, evaluate_unary, ih ((Term.everywhere_unary op t).1 hnary).2]
    cases ht : (sound r.quantum).evaluate t with
    | error e => rfl
    | ok b =>
      have hb : b.length = r.quantum.width := length_of_evaluate ht
      exact (hunary op b hb).trans (sound_unary op hb).symm
  | nary op ts ih =>
    obtain ⟨hroot, hbelow⟩ := (Term.everywhere_nary op ts).1 hnary
    have hoperands : ts.map r.evaluate = ts.map (sound r.quantum).evaluate :=
      List.map_congr_left fun t ht => ih t ht (hbelow t ht)
    have hstart : (start r.quantum op).length = r.quantum.width := by
      rw [Term.start_eq, r.quantum.length_word]
    rw [evaluate_nary, evaluate_nary, hoperands]
    refine accumulate_eq_sound (hroot op ts rfl) hstart ?_
    intro c hc
    obtain ⟨t, -, ht⟩ := List.mem_map.1 hc
    exact length_of_evaluate ht

/-- Evaluation shows what an operator answers to two words. -/
theorem narySound_of_evaluate_eq
    (h : ∀ t : Term, t.vars = [] → r.evaluate t = (sound r.quantum).evaluate t) (op : NaryOp) :
    r.NarySound op := by
  intro a b ha hb
  have hfold : op.apply (start r.quantum op) a = a := by
    rw [Term.start_eq, op.apply_comm, op.apply_identity ha]
  have hstart : (start r.quantum op).length = r.quantum.width := by
    rw [Term.start_eq, r.quantum.length_word]
  -- With one operand the node answers that operand, so with two it answers for the pair.
  have hone := h (.nary op [.const (Bytes.toNat a)]) rfl
  have htwo := h (.nary op [.const (Bytes.toNat a), .const (Bytes.toNat b)]) rfl
  have hquantum : (sound r.quantum).quantum = r.quantum := rfl
  simp only [evaluate_nary, List.map_cons, List.map_nil, evaluate_const, hquantum,
    r.quantum.word_toNat ha, r.quantum.word_toNat hb, accumulate, sound_nary op hstart ha, hfold,
    sound_nary op ha hb, bind, Except.bind] at hone htwo
  have hfirst : r.nary op (start r.quantum op) a = .ok a := by
    cases hanswer : r.nary op (start r.quantum op) a with
    | error e => simp [hanswer] at hone
    | ok c => simpa [hanswer] using hone
  rw [hfirst] at htwo
  cases hanswer : r.nary op a b with
  | error e => simp [hanswer] at htwo
  | ok c => simpa [hanswer] using htwo

/-- **What a passed check says about evaluation.** In a ring of one byte with faults that is found
verified, `neg` is sound; if exclusive or answers all ones to complements only, all unary operators
are, and every term evaluates as in a sound ring whose operators on many operands are sound; and all
terms without variables evaluate so exactly if all these operators are sound. -/
theorem evaluate_of_verified (faults : List Fault) (verified : Bool) (now : String)
    {report : CoherenceReport} {s : ByteRing}
    (hverify : verify { withFaults ⟨0⟩ faults with verified } now = .ok (report, s))
    (hverified : report.verified = true) :
    let r : ByteRing := { withFaults ⟨0⟩ faults with verified }
    (∀ x : UInt8, r.unary .neg [x] = .ok [-x]) ∧
    (r.TellsComplements → r.UnarySound ∧
      ∀ t : Term, (∀ op ts, .nary op ts ∈ t.nodes → r.NarySound op) →
        r.evaluate t = (sound ⟨0⟩).evaluate t) ∧
    ((∀ t : Term, t.vars = [] → r.evaluate t = (sound ⟨0⟩).evaluate t) ↔
      ∀ op, r.NarySound op) := by
  intro r
  have hpasses : r.Passes r.quantum.testValues :=
    exists_verify_iff.1 ⟨report, s, hverify, hverified⟩
  obtain ⟨⟨f, hf⟩, -⟩ :=
    (passes_iff_exists_takesForComplement refusesWidths_withFaults rfl).1 hpasses
  have hagree (htells : r.TellsComplements) (t : Term)
      (hnary : ∀ op ts, .nary op ts ∈ t.nodes → r.NarySound op) :
      r.evaluate t = (sound ⟨0⟩).evaluate t := by
    refine evaluate_eq_sound (hf.unarySound htells) ?_
    rintro u hu op ts rfl
    exact hnary op ts hu
  refine ⟨?_, fun htells => ⟨hf.unarySound htells, hagree htells⟩, ?_, ?_⟩
  · intro x
    rw [← (apply_singleton x).1]
    exact hf.neg rfl
  · exact narySound_of_evaluate_eq
  · intro hsound t _
    exact hagree (hsound .xor).tellsComplements t fun op _ _ => hsound op

/-- One wrong conjunction, of 3 and 5. -/
def conjunctionFault : List Fault := [⟨.nary .and, [3, 5], [7]⟩]

/-- Complements that pair 0 with 1 and 254 with 255, and an exclusive or that takes these pairs for
complements. -/
def pairingFaults : List Fault :=
  [⟨.unary .bnot, [0], [1]⟩, ⟨.unary .bnot, [1], [0]⟩,
    ⟨.unary .bnot, [254], [255]⟩, ⟨.unary .bnot, [255], [254]⟩,
    ⟨.nary .xor, [0, 1], [255]⟩, ⟨.nary .xor, [1, 0], [255]⟩,
    ⟨.nary .xor, [254, 255], [255]⟩, ⟨.nary .xor, [255, 254], [255]⟩]

theorem passes_conjunctionFault (values : List Nat) :
    (withFaults ⟨0⟩ conjunctionFault).Passes values :=
  passes_of_sound (unarySound_withFaults (by simp [conjunctionFault]))
    (narySound_withFaults (by decide)) values

/-- What the ring with the wrong pairs answers to a complement. -/
def pairing (b : Bytes) : Bytes := (Fault.answer? pairingFaults (.unary .bnot) [b]).getD b.bnot

theorem takesForComplement_pairing : (withFaults ⟨0⟩ pairingFaults).TakesForComplement pairing := by
  have hwords : ∀ n : Nat, n < 256 →
      let b := Quantum.word ⟨0⟩ n
      (pairing b).length = 1 ∧ pairing (pairing b) = b ∧
        (Fault.answer? pairingFaults (.nary .xor) [b, pairing b]).getD (b.xor (pairing b)) = [255] ∧
        Fault.answer? pairingFaults (.nary .xor) [b, b] = none := by decide +kernel
  refine takesForComplement_withFaults (by decide) (fun _ => rfl) ?_
  intro b hb
  obtain ⟨n, hn, rfl⟩ := Quantum.exists_word_eq ⟨0⟩ hb
  exact hwords n hn

/-- The wrong pairing cuts the cycle of successors in four places and joins the parts to one cycle
again: it goes from 0 to 255, from there to 2 and up to 254, and by way of 1 back to 0. -/
theorem passes_pairingFaults (values : List Nat) :
    (withFaults ⟨0⟩ pairingFaults).Passes values := by
  let path (i : Nat) : Bytes := Quantum.word ⟨0⟩ (Equiv.swap 1 255 i : Nat)
  have hpath : ∀ i < 256, Equiv.swap 1 255 i < 256 ∧
      Bytes.neg (pairing (path i)) = path (i + 1) := by decide +kernel
  have htakes := takesForComplement_pairing
  refine passes_of_takesForComplement htakes (fun _ => ?_) values
  refine cycleViolation?_of_path path ?_ ?_ rfl rfl
  · intro i hi
    rw [← (hpath i hi).2]
    exact htakes.succ (Quantum.length_word ⟨0⟩ _)
  · intro i hi j hj hword
    have hswap := (Quantum.word_natCast_inj ⟨0⟩ (hpath i hi).1 (hpath j hj).1).1 hword
    exact (Equiv.swap 1 255).injective hswap

/-- **A ring that is found verified may evaluate wrongly.** One such ring answers wrongly to a
conjunction, which no law mentions; another one even to a complement, where exclusive or agrees with
the wrong answer. -/
theorem evaluate_ne_of_verified :
    let conjunction : Term := .nary .and [.const 3, .const 5]
    let complement : Term := .unary .bnot (.const 0)
    conjunction.vars = [] ∧ complement.vars = [] ∧
    ((∃ report s, verify (withFaults ⟨0⟩ conjunctionFault) "" = .ok (report, s) ∧
        report.verified = true) ∧
      evaluate (withFaults ⟨0⟩ conjunctionFault) conjunction = .ok [7] ∧
      evaluate (sound ⟨0⟩) conjunction = .ok [1]) ∧
    ((∃ report s, verify (withFaults ⟨0⟩ pairingFaults) "" = .ok (report, s) ∧
        report.verified = true) ∧
      evaluate (withFaults ⟨0⟩ pairingFaults) complement = .ok [1] ∧
      evaluate (sound ⟨0⟩) complement = .ok [255]) := by
  intro conjunction complement
  exact ⟨rfl, rfl, ⟨exists_verify_iff.2 (passes_conjunctionFault _), rfl, rfl⟩,
    exists_verify_iff.2 (passes_pairingFaults _), rfl, rfl⟩

/-- The ring with the wrong conjunction evaluates a term without conjunctions rightly, but not every
term. -/
theorem evaluate_of_verified_xor :
    let r : ByteRing := withFaults ⟨0⟩ conjunctionFault
    let t : Term := .unary .succ (.nary .xor [.const 1, .const 2])
    ∃ report s, r.verify "" = .ok (report, s) ∧ report.verified = true ∧
      r.evaluate t = (sound ⟨0⟩).evaluate t ∧
      ¬ ∀ t : Term, t.vars = [] → r.evaluate t = (sound ⟨0⟩).evaluate t := by
  intro r t
  have hxor : r.NarySound .xor := narySound_withFaults (by decide)
  obtain ⟨report, s, hverify, hverified⟩ := exists_verify_iff.2 (passes_conjunctionFault _)
  obtain ⟨-, hterms, hall⟩ := evaluate_of_verified conjunctionFault false "" hverify hverified
  refine ⟨report, s, hverify, hverified, (hterms hxor.tellsComplements).2 t ?_, ?_⟩
  · intro op ts hmem
    have hop : op = .xor := by simp [t, Term.nodes, Term.nodes.nodesAll] at hmem; exact hmem.1
    exact hop ▸ hxor
  · intro h
    have hand := hall.1 h .and [3] [5] rfl rfl
    exact absurd (Except.ok.inj hand) (by decide)

end ByteRing

end WordRing
