import WordRing.Certificate
import WordRing.Proofs.Derivation

/-!
# What a certificate attests

Issuing and checking a certificate both come down to one comparison: the identifier that the term
derives again against the identifier that the record carries. What a valid certificate says about
the rest of the record therefore depends on whether the identifier belongs to the record. For a
derivation of a term without variables it does, and a certificate accepts the terms of the same
value at the same quantum level and no others.
-/
namespace WordRing

namespace ByteRing
open WordRing.Derivation
variable {r : ByteRing} {t : Term} {e : Derivation} {now : String}

/-! ## Deriving again -/

/-- Whether a term reproduces a record is seen from any derivation of the term, whenever made. -/
theorem reproduces_of_derive (h : r.derive t now = .ok e) (d : Derivation) :
    r.reproduces d t = .ok (decide (e.id = d.id)) := by
  obtain ⟨b, hword, hrecords⟩ := records_of_derive h
  obtain ⟨e', he', hrecords'⟩ := exists_derive_of_ok hword d.timestamp
  obtain ⟨-, -, -, hid⟩ := hrecords'.agree hrecords
  rw [reproduces, he', ← hid]
  rfl

/-- A term that has a derivation gets a certificate, valid or not, for whatever record. -/
theorem exists_certify_of_derive (h : r.derive t now = .ok e) (d : Derivation)
    (parents : List String) (now' : String) :
    ∃ c, r.certify d t parents now' = .ok c ∧ c.certifiedIri = d.resultIri ∧
      c.derivationId = d.id ∧ c.valid = decide (e.id = d.id) := by
  refine ⟨_, by simp only [certify, reproduces_of_derive h, bind, Except.bind]; rfl, ?_⟩
  exact ⟨rfl, rfl, rfl⟩

theorem confirms_of_derive (h : r.derive t now = .ok e) {c : Certificate} {d : Derivation}
    (hname : c.derivationId = d.id) :
    r.confirms c d t = .ok (c.valid && decide (e.id = d.id)) := by
  cases hvalid : c.valid with
  | false => simp [confirms, hvalid]
  | true => simp [confirms, hvalid, hname, reproduces_of_derive h]

/-- Nothing is confirmed by an invalid certificate, in no ring and for no record or term. -/
theorem confirms_of_invalid {c : Certificate} (hinvalid : c.valid = false) (r : ByteRing)
    (d : Derivation) (t : Term) : r.confirms c d t = .ok false := by
  simp [confirms, hinvalid]

/-! ## Altered records -/

/-- **A certificate attests the identifier of a record.** It is issued for every record, copies the
record's address, and is valid exactly if the record carries the identifier that the term derives,
whatever else the record holds. Where that identifier belongs to the record's own canonical form
and address, and the digest does not confuse the two, a valid certificate certifies the form and
the address that the term derives; where moreover the address is that of the record's value at some
quantum level, that is the value that the term derives. -/
theorem certify_attests (q : Quantum) (verified : Bool)
    (h : derive { sound q with verified } t now = .ok e) (d : Derivation) (parents : List String)
    (now' : String) :
    ∃ c, certify { sound q with verified } d t parents now' = .ok c ∧
      c.certifiedIri = d.resultIri ∧
      (c.valid = true ↔ d.id = e.id) ∧
      (c.valid = true → d.id = idFor d.canonicalTerm d.resultIri → NoCollision e d →
        d.canonicalTerm = e.canonicalTerm ∧ c.certifiedIri = e.resultIri ∧
        ∀ q' : Quantum, 0 ≤ d.resultValue → d.resultValue < q'.cycle →
          d.resultIri = Address.ofInt q' d.resultValue →
          q' = q ∧ d.resultValue = e.resultValue) := by
  obtain ⟨b, hword, hrecords⟩ := records_of_derive h
  obtain ⟨c, hc, hiri, -, hvalid⟩ := exists_certify_of_derive h d parents now'
  have hiff : c.valid = true ↔ d.id = e.id := by rw [hvalid, decide_eq_true_iff, eq_comm]
  refine ⟨c, hc, hiri, hiff, ?_⟩
  intro hc' hown hclear
  have hid : idFor e.canonicalTerm e.resultIri = idFor d.canonicalTerm d.resultIri := by
    rw [← hrecords.id, ← hown, hiff.1 hc']
  obtain ⟨hform, hsame⟩ := hrecords.preimage_eq_iff.1 (hclear hid)
  refine ⟨hform.symm, hiri.trans hsame.symm, ?_⟩
  intro q' hnonneg hlt haddress
  obtain ⟨hq, hvalue⟩ :=
    (hrecords.resultIri_eq_ofInt_iff (length_of_evaluate hword) hnonneg hlt).1
      (hsame.trans haddress)
  exact ⟨hq.symm, hvalue.symm⟩

/-- A derivation of 8 in which all that the identifier does not cover is replaced, the level among
it, is still certified with the address and the value of its term. -/
theorem certify_attests_succ :
    ∃ e c, derive { sound ⟨0⟩ with verified := true } (.unary .succ (.const 7)) "" = .ok e ∧
      let d : Derivation := { e with
        givenTerm := "?x", quantum := ⟨5⟩, grade := .unverified, timestamp := "later"
        reduction := ⟨9, 0⟩, metrics := Term.metrics (.const 0) }
      certify { sound ⟨0⟩ with verified := true } d (.unary .succ (.const 7)) ["urn"] "" = .ok c ∧
      d.quantum ≠ e.quantum ∧ c.valid = true ∧ c.certifiedIri = Address.ofInt ⟨0⟩ 8 ∧
      d.resultValue = 8 := by
  obtain ⟨e, he, hrecords⟩ := exists_derive_of_ground ⟨0⟩ true "" (t := .unary .succ (.const 7)) rfl
  have hvalue : e.resultValue = 8 := hrecords.resultValue
  have hiri : e.resultIri = Address.ofInt ⟨0⟩ 8 := hrecords.resultIri
  have hquantum : e.quantum = ⟨0⟩ := by
    obtain rfl := Except.ok.inj he
    rfl
  obtain ⟨c, hc, -, hvalid, hattests⟩ := certify_attests ⟨0⟩ true he { e with
    givenTerm := "?x", quantum := ⟨5⟩, grade := .unverified, timestamp := "later"
    reduction := ⟨9, 0⟩, metrics := Term.metrics (.const 0) } ["urn"] ""
  obtain ⟨-, hcertified, hsame⟩ := hattests (hvalid.2 rfl) hrecords.id fun _ => rfl
  obtain ⟨-, hresult⟩ := hsame ⟨0⟩ (hvalue ▸ by decide) (hvalue ▸ by decide) (hvalue ▸ hiri)
  refine ⟨e, c, he, hc, ?_, hvalid.2 rfl, hcertified.trans hiri, hresult.trans hvalue⟩
  rw [hquantum]
  exact (by decide : (⟨5⟩ : Quantum) ≠ ⟨0⟩)

/-- A derivation of 7 whose address and value are replaced by those of 3 still gets a valid
certificate, of the address of 3. -/
theorem certify_altered_valid :
    ∃ e c, derive { sound ⟨0⟩ with verified := true } (.const 7) "" = .ok e ∧
      let d := { e with resultIri := Address.ofInt ⟨0⟩ 3, resultValue := 3 }
      certify { sound ⟨0⟩ with verified := true } d (.const 7) [] "" = .ok c ∧
      c.valid = true ∧ c.certifiedIri ≠ e.resultIri ∧ d.resultValue ≠ e.resultValue := by
  obtain ⟨e, he, hrecords⟩ := exists_derive_of_ground ⟨0⟩ true "" (t := .const 7) rfl
  have hvalue : e.resultValue = 7 := hrecords.resultValue
  have hiri : e.resultIri = Address.ofInt ⟨0⟩ 7 := hrecords.resultIri
  obtain ⟨c, hc, hcopy, -, hvalid⟩ := exists_certify_of_derive he
    { e with resultIri := Address.ofInt ⟨0⟩ 3, resultValue := 3 } [] ""
  refine ⟨e, c, he, hc, hvalid.trans (decide_eq_true rfl), ?_, ?_⟩
  · rw [hcopy, hiri]
    exact fun hsame => absurd (Address.ofInt_inj.1 hsame).2 (by decide)
  · rw [hvalue]
    exact (by decide : (3 : Int) ≠ 7)

/-! ## Certificates of terms without variables -/

/-- **Certificates accept exactly the terms of the same value at the same quantum level**, when
issued and when checked. For derivations of terms without variables nothing fails; equal level and
value always give a valid certificate and a positive check of it, and only they do where the digest
does not confuse the derivations. An invalid certificate confirms nothing. -/
theorem certify_confirms_ground (q q' q'' : Quantum) (verified verified' verified'' : Bool)
    {t t' t'' : Term} (hground : t.vars = []) (hground' : t'.vars = []) (hground'' : t''.vars = [])
    (parents : List String) (now now' now'' : String) :
    ∃ b b' b'' d d' d'' c a,
      evaluate { sound q with verified } t = .ok b ∧
      evaluate { sound q' with verified := verified' } t' = .ok b' ∧
      evaluate { sound q'' with verified := verified'' } t'' = .ok b'' ∧
      derive { sound q with verified } t now = .ok d ∧
      derive { sound q' with verified := verified' } t' now' = .ok d' ∧
      derive { sound q'' with verified := verified'' } t'' now'' = .ok d'' ∧
      certify { sound q' with verified := verified' } d t' parents now' = .ok c ∧
      confirms { sound q'' with verified := verified'' } c d t'' = .ok a ∧
      (q' = q ∧ Bytes.toNat b' = Bytes.toNat b → c.valid = true) ∧
      (NoCollision d' d → c.valid = true → q' = q ∧ Bytes.toNat b' = Bytes.toNat b) ∧
      (c.valid = true ∧ q'' = q ∧ Bytes.toNat b'' = Bytes.toNat b → a = true) ∧
      (NoCollision d'' d → a = true →
        c.valid = true ∧ q'' = q ∧ Bytes.toNat b'' = Bytes.toNat b) ∧
      (c.valid = false → ∀ (s : ByteRing) (f : Derivation) (u : Term),
        s.confirms c f u = .ok false) := by
  obtain ⟨d, hd, h⟩ := exists_derive_of_ground q verified now hground
  obtain ⟨d', hd', h'⟩ := exists_derive_of_ground q' verified' now' hground'
  obtain ⟨d'', hd'', h''⟩ := exists_derive_of_ground q'' verified'' now'' hground''
  obtain ⟨c, hc, -, hname, hvalid⟩ := exists_certify_of_derive hd' d parents now'
  have hlength := t.length_value q fun _ => 0
  have hlength' := t'.length_value q' fun _ => 0
  have hlength'' := t''.length_value q'' fun _ => 0
  refine ⟨_, _, _, d, d', d'', c, _, evaluate_of_ground verified (fun _ => 0) hground,
    evaluate_of_ground verified' (fun _ => 0) hground',
    evaluate_of_ground verified'' (fun _ => 0) hground'', hd, hd', hd'', hc,
    confirms_of_derive hd'' hname, ?_, ?_, ?_, ?_, confirms_of_invalid⟩
  · rintro ⟨hq, hvalue⟩
    rw [hvalid, decide_eq_true_iff]
    exact h'.id_eq_of_toNat_eq h hlength' hlength hq hvalue
  · intro hclear hc'
    rw [hvalid, decide_eq_true_iff] at hc'
    exact h'.toNat_eq_of_id_eq h hlength' hlength hclear hc'
  · rintro ⟨hc', hq, hvalue⟩
    rw [hc', Bool.true_and, decide_eq_true_iff]
    exact h''.id_eq_of_toNat_eq h hlength'' hlength hq hvalue
  · intro hclear ha
    rw [Bool.and_eq_true, decide_eq_true_iff] at ha
    exact ⟨ha.1, h''.toNat_eq_of_id_eq h hlength'' hlength hclear ha.2⟩

/-- The successor of 2 is certified by an exclusive or of the same value, but the certificate is not
confirmed by the constant 4, whose identifier is another. -/
theorem certify_confirms_ground_succ :
    let t : Term := .unary .succ (.const 2)
    let t' : Term := .nary .xor [.const 1, .const 2]
    t.vars = [] ∧ t'.vars = [] ∧ (Term.const 4).vars = [] ∧
    ∃ d c, derive (sound ⟨0⟩) t "" = .ok d ∧ certify (sound ⟨0⟩) d t' [] "" = .ok c ∧
      c.valid = true ∧ confirms (sound ⟨0⟩) c d (.const 4) = .ok false := by
  intro t t'
  have hground : t.vars = [] := rfl
  have hground' : t'.vars = [] := rfl
  have hground'' : (Term.const 4).vars = [] := rfl
  obtain ⟨b, b', b'', d, d', d'', c, a, hb, hb', hb'', hd, -, hd'', hc, ha, hvalid, -, -, hrest⟩ :=
    certify_confirms_ground ⟨0⟩ ⟨0⟩ ⟨0⟩ false false false hground hground' hground'' [] "" "" ""
  obtain rfl : [3] = b := Except.ok.inj hb
  obtain rfl : [3] = b' := Except.ok.inj hb'
  obtain rfl : [4] = b'' := Except.ok.inj hb''
  have hclear : NoCollision d'' d := by
    obtain ⟨e, he, h⟩ := exists_derive_of_ground ⟨0⟩ false "" hground
    obtain ⟨e'', he'', h''⟩ := exists_derive_of_ground ⟨0⟩ false "" hground''
    obtain rfl : e = d := Except.ok.inj (he.symm.trans hd)
    obtain rfl : e'' = d'' := Except.ok.inj (he''.symm.trans hd'')
    rw [NoCollision, h.canonicalTerm, h.resultIri, h''.canonicalTerm, h''.resultIri]
    intro hid
    exact absurd hid (by decide +kernel)
  refine ⟨hground, hground', hground'', d, c, hd, hc, hvalid ⟨rfl, rfl⟩, ?_⟩
  cases a with
  | false => exact ha
  | true => exact absurd (hrest.1 hclear rfl).2.2 (by decide)

end ByteRing

end WordRing
