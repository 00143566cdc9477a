import WordRing.Receipt
import WordRing.Proofs.Certificate

/-!
# What a derivation asks of a ring

A derivation asks the ring for one thing, the word of the canonical form. Rings of one quantum
level that answer alike to it are not told apart by derivations, certificates and receipts of the
term: their outcomes differ in what the clock and the ring's flag put there, and fail with the same
error if they fail. The canonical form of a term without variables is a constant, to which every
ring of the level answers alike, however wrong its operators are.

## Main definitions

* `ByteRing.Alike r r' t` — two rings of one level that answer alike to the canonical form of `t`.
-/
namespace WordRing.ByteRing

/-- Two rings of one quantum level that answer alike to the canonical form of a term. -/
structure Alike (r r' : ByteRing) (t : Term) : Prop where
  quantum : r'.quantum = r.quantum
  word : r'.evaluate (t.canonical r.quantum) = r.evaluate (t.canonical r.quantum)

/-! ## Rings that answer alike -/

namespace Alike
variable {r r' : ByteRing} {t : Term}

/-- Derivations in the two rings differ in the time at most. -/
theorem derive_eq (h : Alike r r' t) (now now' : String) :
    r'.derive t now' = (r.derive t now).map fun d => { d with timestamp := now' } := by
  simp only [derive, h.quantum, h.word]
  cases r.evaluate (t.canonical r.quantum) <;> rfl

theorem reproduces_eq (h : Alike r r' t) (d : Derivation) :
    r'.reproduces d t = r.reproduces d t := by
  rw [reproduces, h.derive_eq d.timestamp, reproduces]
  cases r.derive t d.timestamp <;> rfl

/-- Certificates from the two rings differ in the time at most. -/
theorem certify_eq (h : Alike r r' t) (d : Derivation) (parents : List String)
    (now now' : String) :
    r'.certify d t parents now' =
      (r.certify d t parents now).map fun c => { c with issuedAt := now' } := by
  rw [certify, h.reproduces_eq, certify]
  cases r.reproduces d t <;> rfl

theorem confirms_eq (h : Alike r r' t) (c : Certificate) (d : Derivation) :
    r'.confirms c d t = r.confirms c d t := by
  rw [confirms, h.reproduces_eq, confirms]

/-- Receipts from the two rings, with the readings of the clock that go into each, differ in the
time, in the identifier that is made from it, and in the flag that they note. -/
theorem receiptOf_eq (h : Alike r r' t) (moduleId now now' first first' second second' : String) :
    r'.receiptOf moduleId t now' (r'.derive t first') (r'.derive t second') =
      (r.receiptOf moduleId t now (r.derive t first) (r.derive t second)).map fun (d, c) =>
        ({ d with timestamp := first' },
          { c with
            id := Receipt.idFor moduleId c.operation now'
            coherenceVerified := r'.verified
            timestamp := now' }) := by
  rw [h.derive_eq first, h.derive_eq second, receiptOf, receiptOf, h.quantum]
  cases r.derive t first with
  | error e => rfl
  | ok d => cases r.derive t second <;> rfl

end Alike

/-! ## The flag of a ring -/

theorem accumulate_verified (r : ByteRing) (verified : Bool) (op : NaryOp) (acc : Bytes)
    (xs : List (Except Error Bytes)) :
    accumulate { r with verified } op acc xs = r.accumulate op acc xs := by
  induction xs generalizing acc with
  | nil => rfl
  | cons x xs ih => simp only [accumulate, ih]

/-- A ring answers alike whether it is flagged or not. -/
theorem alike_verified (r : ByteRing) (verified : Bool) (t : Term) :
    Alike r { r with verified } t := by
  refine ⟨rfl, ?_⟩
  induction t.canonical r.quantum using Term.induct with
  | const n => rfl
  | var x => rfl
  | unary op t ih => rw [evaluate_unary, evaluate_unary, ih]
  | nary op ts ih => rw [evaluate_nary, evaluate_nary, accumulate_verified, List.map_congr_left ih]

theorem derive_verified (r : ByteRing) (verified : Bool) (t : Term) (now : String) :
    derive { r with verified } t now = r.derive t now := by
  simp only [derive, (alike_verified r verified t).word]

/-! ## Terms without variables -/

/-- A ring answers to the canonical form of a term without variables without asking an operator. -/
theorem evaluate_canonical_of_ground (r : ByteRing) {t : Term} (hground : t.vars = []) :
    r.evaluate (t.canonical r.quantum) = .ok (r.quantum.word (t.number r.quantum)) := by
  rw [Term.canonical_of_ground hground, evaluate_const]

theorem alike_of_ground {r r' : ByteRing} (hq : r'.quantum = r.quantum) {t : Term}
    (hground : t.vars = []) : Alike r r' t := by
  have hword' := r'.evaluate_canonical_of_ground hground
  rw [hq] at hword'
  exact ⟨hq, hword'.trans (r.evaluate_canonical_of_ground hground).symm⟩

/-- A receipt is given whenever the term is derived. -/
theorem exists_receiptOf_of_derive {r : ByteRing} {t : Term} {first second : String}
    {d e : Derivation} (hd : r.derive t first = .ok d) (he : r.derive t second = .ok e)
    (moduleId now : String) :
    ∃ c, r.receiptOf moduleId t now (r.derive t first) (r.derive t second) = .ok (d, c) := by
  rw [hd, he]
  exact ⟨_, rfl⟩

/-- **A term without variables is derived without the ring's own operators.** Whatever the operators
of two rings of one quantum level answer, both derive the term, and the derivations differ in the
time at most; so a record reproduces in both or in neither, certificates differ in the time at
most, and receipts note the same operation, the same three digests and the same outcome of the
comparison. The clock is read once for a certificate and three times for a receipt. -/
theorem derive_alike_of_ground (r r' : ByteRing) (hq : r'.quantum = r.quantum) (t : Term)
    (hground : t.vars = []) (now now' : String) :
    (∃ d, r.derive t now = .ok d ∧ r'.derive t now' = .ok { d with timestamp := now' }) ∧
    (∀ d, ∃ b, r.reproduces d t = .ok b ∧ r'.reproduces d t = .ok b) ∧
    (∀ d parents, ∃ c, r.certify d t parents now = .ok c ∧
      r'.certify d t parents now' = .ok { c with issuedAt := now' }) ∧
    (∀ c d, ∃ b, r.confirms c d t = .ok b ∧ r'.confirms c d t = .ok b) ∧
    ∀ moduleId first first' second second', ∃ d c,
      r.receiptOf moduleId t now (r.derive t first) (r.derive t second) = .ok (d, c) ∧
      r'.receiptOf moduleId t now' (r'.derive t first') (r'.derive t second') =
        .ok ({ d with timestamp := first' },
          { c with
            id := Receipt.idFor moduleId c.operation now'
            coherenceVerified := r'.verified
            timestamp := now' }) := by
  have halike : Alike r r' t := alike_of_ground hq hground
  have hderive (time : String) : ∃ d, r.derive t time = .ok d := by
    obtain ⟨d, hd, -⟩ := exists_derive_of_ok (r.evaluate_canonical_of_ground hground) time
    exact ⟨d, hd⟩
  obtain ⟨e, he⟩ := hderive now
  refine ⟨⟨e, he, ?_⟩, fun d => ?_, fun d parents => ?_, fun c d => ?_, ?_⟩
  · rw [halike.derive_eq now, he]
    rfl
  · rw [halike.reproduces_eq]
    exact ⟨_, reproduces_of_derive he d, reproduces_of_derive he d⟩
  · obtain ⟨c, hc, -⟩ := exists_certify_of_derive he d parents now
    rw [halike.certify_eq d parents now, hc]
    exact ⟨c, rfl, rfl⟩
  · obtain ⟨b, hb⟩ : ∃ b, r.confirms c d t = .ok b := by
      by_cases hnamed : c.valid ∧ c.derivationId = d.id
      · exact ⟨_, confirms_of_derive he hnamed.2⟩
      · exact ⟨false, if_neg hnamed⟩
    rw [halike.confirms_eq]
    exact ⟨b, hb, hb⟩
  · intro moduleId first first' second second'
    obtain ⟨d, hd⟩ := hderive first
    obtain ⟨d₂, hd₂⟩ := hderive second
    obtain ⟨c, hc⟩ := exists_receiptOf_of_derive hd hd₂ moduleId now
    refine ⟨d, c, hc, ?_⟩
    rw [halike.receiptOf_eq moduleId now now' first first' second second', hc]
    rfl

/-- A ring whose operators refuse every word or answer with no bytes does not evaluate
`succ(xor(1, 2))`, and derives it as the sound ring does, to 4. -/
theorem derive_alike_of_ground_refusing :
    let refusing : ByteRing :=
      { quantum := ⟨0⟩, unary := fun _ b => .error (.operandWidth 1 b.length),
        nary := fun _ _ _ => .ok [] }
    let t : Term := .unary .succ (.nary .xor [.const 1, .const 2])
    refusing.quantum = (sound ⟨0⟩).quantum ∧ t.vars = [] ∧
    (sound ⟨0⟩).evaluate t = .ok [4] ∧ refusing.evaluate t = .error (.operandWidth 1 0) ∧
    ∃ d, (sound ⟨0⟩).derive t "first" = .ok d ∧
      refusing.derive t "second" = .ok { d with timestamp := "second" } ∧ d.resultValue = 4 := by
  intro refusing t
  have hq : refusing.quantum = (sound ⟨0⟩).quantum := rfl
  have hground : t.vars = [] := rfl
  have hsound : (sound ⟨0⟩).evaluate t = .ok [4] := rfl
  have hrefusing : refusing.evaluate t = .error (.operandWidth 1 0) := rfl
  obtain ⟨⟨d, hd, hd'⟩, -⟩ :=
    derive_alike_of_ground (sound ⟨0⟩) refusing hq t hground "first" "second"
  obtain ⟨e, he, hrecords⟩ := exists_derive_of_ground ⟨0⟩ false "first" hground
  obtain rfl : e = d := Except.ok.inj (he.symm.trans hd)
  exact ⟨hq, hground, hsound, hrefusing, e, hd, hd', hrecords.resultValue⟩

end WordRing.ByteRing
