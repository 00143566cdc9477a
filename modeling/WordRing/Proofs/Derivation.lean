import WordRing.Derivation
import WordRing.Proofs.Address
import WordRing.Proofs.Canonical.Ground

/-!
# What a derivation records

A derivation records a canonical form, the word that the ring answers for it and the digest of
both. For a term without variables the canonical form is the constant of the value, so everything
that goes into the digest, and with it the identifier, is settled by the quantum level and the
value.

## Main definitions

* `Derivation.Records q form b d` — `d` records the canonical form `form` with the word `b`.
* `Derivation.NoCollision d e` — the truncated digest does not confuse the preimages of `d` and `e`.
-/
namespace WordRing

/-! ## Reduced constants in writing -/

theorem Quantum.cycle_eq_pow_sixteen (q : Quantum) : q.cycle = 16 ^ (2 * q.width) := by
  rw [q.cycle_eq, Nat.pow_mul]
  rfl

/-- A reduced constant takes two digits for each byte of the ring. -/
theorem Term.written_const_of_lt {q : Quantum} {n : Nat} (h : n < q.cycle) :
    (const n).written q.width = "0x" ++ String.ofList (Digits.fixed 16 (2 * q.width) n) := by
  have hconst : (const n).text q.width = ['0', 'x'] ++ Digits.padded 16 (2 * q.width) n := rfl
  have hpos : 0 < 2 * q.width := Nat.succ_pos _
  rw [q.cycle_eq_pow_sixteen] at h
  rw [Term.written, hconst, Digits.padded_eq_fixed hpos h, String.ofList_append]

theorem Digits.ofDigits_fixed_of_lt {q : Quantum} {n : Nat} (h : n < q.cycle) :
    ofDigits 16 (fixed 16 (2 * q.width) n) = some n := by
  rw [q.cycle_eq_pow_sixteen] at h
  rw [ofDigits_fixed (by decide) (Nat.le_refl 16), Nat.mod_eq_of_lt h]

namespace Derivation

/-! ## Preimages -/

theorem toList_preimage (form iri : String) :
    (preimage form iri).toList = form.toList ++ '=' :: iri.toList := by
  have hpreimage : preimage form iri = form ++ "=" ++ iri := rfl
  rw [hpreimage, String.toList_append, String.toList_append, List.append_assoc]
  rfl

/-- A preimage of two texts without an equals sign is the preimage of no others. -/
theorem preimage_inj {form iri form' iri' : String} (hform : '=' ∉ form.toList)
    (hiri : '=' ∉ iri.toList) :
    preimage form iri = preimage form' iri' ↔ form = form' ∧ iri = iri' := by
  rw [← String.toList_inj, toList_preimage, toList_preimage,
    List.append_cons_inj_of_notMem hform hiri, String.toList_inj, String.toList_inj]
  simp

/-- An identifier is the beginning of the digest of its preimage, as sixteen hexadecimal digits. -/
theorem idFor_eq (form iri : String) :
    idFor form iri = urn ++
      String.ofList ((Digest.hex (Sha256.digest (Bytes.ofText (preimage form iri)))).take 16) := rfl

/-- The sixteen digits that are kept of a digest do not make the preimages of two derivations look
alike. -/
def NoCollision (d e : Derivation) : Prop :=
  idFor d.canonicalTerm d.resultIri = idFor e.canonicalTerm e.resultIri →
    preimage d.canonicalTerm d.resultIri = preimage e.canonicalTerm e.resultIri

/-! ## Records -/

/-- What a derivation says about a canonical form and the word that it evaluates to. -/
structure Records (q : Quantum) (form : Term) (b : Bytes) (d : Derivation) : Prop where
  canonicalTerm : d.canonicalTerm = form.written q.width
  resultValue : d.resultValue = Bytes.toNat b
  resultIri : d.resultIri = Address.ofInt q (Bytes.toNat b)
  id : d.id = idFor d.canonicalTerm d.resultIri

namespace Records
variable {q q' : Quantum} {form form' : Term} {b b' : Bytes} {d d' : Derivation}

/-- The identifier is the truncated digest of what is recorded. -/
theorem id_eq_digest (h : Records q form b d) :
    d.id = urn ++ String.ofList ((Digest.hex (Sha256.digest
      (Bytes.ofText (preimage d.canonicalTerm d.resultIri)))).take 16) :=
  h.id.trans (idFor_eq _ _)

/-- Derivations of one form with one word agree in all that is not the term as given or the time. -/
theorem agree (h : Records q form b d) (h' : Records q form b d') :
    d.canonicalTerm = d'.canonicalTerm ∧ d.resultValue = d'.resultValue ∧
      d.resultIri = d'.resultIri ∧ d.id = d'.id := by
  have htext : d.canonicalTerm = d'.canonicalTerm := h.canonicalTerm.trans h'.canonicalTerm.symm
  have hiri : d.resultIri = d'.resultIri := h.resultIri.trans h'.resultIri.symm
  refine ⟨htext, h.resultValue.trans h'.resultValue.symm, hiri, ?_⟩
  rw [h.id, h'.id, htext, hiri]

/-- What is hashed for a derivation shows its canonical form and its address. -/
theorem preimage_eq_iff (h : Records q form b d) {text iri : String} :
    preimage d.canonicalTerm d.resultIri = preimage text iri ↔
      d.canonicalTerm = text ∧ d.resultIri = iri := by
  refine preimage_inj ?_ ?_
  · rw [h.canonicalTerm, Term.written, String.toList_ofList]
    exact form.equals_not_mem_text
  · rw [h.resultIri]
    exact Address.equals_not_mem_ofBytes _

theorem id_eq_of_preimage_eq (h : Records q form b d) (h' : Records q' form' b' d')
    (heq : preimage d.canonicalTerm d.resultIri = preimage d'.canonicalTerm d'.resultIri) :
    d.id = d'.id := by
  obtain ⟨htext, hiri⟩ := h.preimage_eq_iff.1 heq
  rw [h.id, h'.id, htext, hiri]

/-- No other level and no other number in its range has the address. -/
theorem resultIri_eq_ofInt_iff (h : Records q form b d) (hb : b.length = q.width) {n : Int}
    (hn : 0 ≤ n) (hlt : n < q'.cycle) :
    d.resultIri = Address.ofInt q' n ↔ q = q' ∧ d.resultValue = n := by
  have hltb : (Bytes.toNat b : Int) < q.cycle := Int.ofNat_lt.2 (q.toNat_lt_cycle hb)
  rw [h.resultIri, h.resultValue, Address.ofInt_inj]
  refine and_congr_right ?_
  rintro rfl
  rw [Int.emod_eq_of_lt (Int.natCast_nonneg _) hltb, Int.emod_eq_of_lt hn hlt]

/-- The address shows the quantum level and the value. -/
theorem resultIri_eq_iff (h : Records q form b d) (h' : Records q' form' b' d')
    (hb : b.length = q.width) (hb' : b'.length = q'.width) :
    d.resultIri = d'.resultIri ↔ q = q' ∧ d.resultValue = d'.resultValue := by
  rw [h'.resultIri, h'.resultValue]
  exact h.resultIri_eq_ofInt_iff hb (Int.natCast_nonneg _) (Int.ofNat_lt.2 (q'.toNat_lt_cycle hb'))

/-- Where the canonical form is the constant of the value, the preimage shows no more and no less
than the quantum level and the value. -/
theorem preimage_eq_iff_of_const (h : Records q (.const (Bytes.toNat b)) b d)
    (h' : Records q' (.const (Bytes.toNat b')) b' d') (hb : b.length = q.width)
    (hb' : b'.length = q'.width) :
    preimage d.canonicalTerm d.resultIri = preimage d'.canonicalTerm d'.resultIri ↔
      q = q' ∧ d.resultValue = d'.resultValue := by
  rw [h.preimage_eq_iff, h.resultIri_eq_iff h' hb hb']
  refine ⟨And.right, ?_⟩
  rintro ⟨rfl, hvalue⟩
  refine ⟨?_, rfl, hvalue⟩
  rw [h.resultValue, h'.resultValue] at hvalue
  rw [h.canonicalTerm, h'.canonicalTerm, hvalue]

/-- Constants of one value at one level share an identifier. -/
theorem id_eq_of_toNat_eq (h : Records q (.const (Bytes.toNat b)) b d)
    (h' : Records q' (.const (Bytes.toNat b')) b' d') (hb : b.length = q.width)
    (hb' : b'.length = q'.width) (hq : q = q') (hvalue : Bytes.toNat b = Bytes.toNat b') :
    d.id = d'.id := by
  have hresult : d.resultValue = d'.resultValue := by rw [h.resultValue, h'.resultValue, hvalue]
  exact h.id_eq_of_preimage_eq h' ((h.preimage_eq_iff_of_const h' hb hb').2 ⟨hq, hresult⟩)

/-- Where the digest does not confuse them, an identifier shows the level and the value of a
constant. -/
theorem toNat_eq_of_id_eq (h : Records q (.const (Bytes.toNat b)) b d)
    (h' : Records q' (.const (Bytes.toNat b')) b' d') (hb : b.length = q.width)
    (hb' : b'.length = q'.width) (hclear : NoCollision d d') (hid : d.id = d'.id) :
    q = q' ∧ Bytes.toNat b = Bytes.toNat b' := by
  rw [h.id, h'.id] at hid
  obtain ⟨hq, hresult⟩ := (h.preimage_eq_iff_of_const h' hb hb').1 (hclear hid)
  rw [h.resultValue, h'.resultValue] at hresult
  exact ⟨hq, Int.ofNat_inj.1 hresult⟩

end Records

end Derivation

/-! ## Deriving -/

namespace ByteRing
open WordRing.Derivation

theorem derive_of_error {r : ByteRing} {t : Term} {e : Error}
    (hword : r.evaluate (t.canonical r.quantum) = .error e) (now : String) :
    r.derive t now = .error e := by
  simp [derive, hword, bind, Except.bind]

/-- A term is derived whenever the ring answers to its canonical form, and the derivation records
that form with the answer. -/
theorem exists_derive_of_ok {r : ByteRing} {t : Term} {b : Bytes}
    (hword : r.evaluate (t.canonical r.quantum) = .ok b) (now : String) :
    ∃ d, r.derive t now = .ok d ∧ Records r.quantum (t.canonical r.quantum) b d := by
  refine ⟨_, by simp only [derive, hword, bind, Except.bind]; rfl, ?_⟩
  exact ⟨rfl, rfl, rfl, rfl⟩

theorem records_of_derive {r : ByteRing} {t : Term} {now : String} {d : Derivation}
    (h : r.derive t now = .ok d) :
    ∃ b, r.evaluate (t.canonical r.quantum) = .ok b ∧
      Records r.quantum (t.canonical r.quantum) b d := by
  cases hword : r.evaluate (t.canonical r.quantum) with
  | error e => exact nomatch h.symm.trans (derive_of_error hword now)
  | ok b =>
    obtain ⟨d', hd', hrecords⟩ := exists_derive_of_ok hword now
    obtain rfl : d = d' := Except.ok.inj (h.symm.trans hd')
    exact ⟨b, rfl, hrecords⟩

/-- In a sound ring a term without variables has a derivation, of the constant of its value. -/
theorem exists_derive_of_ground (q : Quantum) (verified : Bool) (now : String) {t : Term}
    (hground : t.vars = []) :
    ∃ d, derive { sound q with verified } t now = .ok d ∧
      Records q (.const (t.number q)) (t.value q fun _ => 0) d := by
  have hcanonical : t.canonical q = .const (t.number q) := Term.canonical_of_ground hground
  have hword : evaluate { sound q with verified } (t.canonical q) =
      .ok (t.value q fun _ => 0) := by
    rw [hcanonical, evaluate_const, ← Term.word_number]
    rfl
  obtain ⟨d, hd, h⟩ := exists_derive_of_ok (r := { sound q with verified }) hword now
  exact ⟨d, hd, hcanonical ▸ h⟩

/-- **A derivation of a term without variables is settled by quantum level and value.** It never
fails; the canonical form is the constant of the value, two digits a byte; the identifier is the
truncated digest of the preimage that this form and the address make; and two such derivations hash
the same preimage exactly if they agree in level and value, so that equal values at one level share
an identifier. -/
theorem derive_ground (q : Quantum) (verified : Bool) (t : Term) (now : String)
    (hground : t.vars = []) :
    ∃ b d, evaluate { sound q with verified } t = .ok b ∧
      derive { sound q with verified } t now = .ok d ∧
      t.canonical q = .const (Bytes.toNat b) ∧
      d.canonicalTerm =
        "0x" ++ String.ofList (Digits.fixed 16 (2 * (q.level + 1)) (Bytes.toNat b)) ∧
      Digits.ofDigits 16 (Digits.fixed 16 (2 * (q.level + 1)) (Bytes.toNat b)) =
        some (Bytes.toNat b) ∧
      d.resultValue = Bytes.toNat b ∧
      d.resultIri = Address.ofInt q (Bytes.toNat b) ∧
      d.id = idFor d.canonicalTerm d.resultIri ∧
      d.id = urn ++ String.ofList ((Digest.hex (Sha256.digest
        (Bytes.ofText (preimage d.canonicalTerm d.resultIri)))).take 16) ∧
      ∀ (q' : Quantum) (verified' : Bool) (t' : Term) (now' : String) (d' : Derivation),
        t'.vars = [] → derive { sound q' with verified := verified' } t' now' = .ok d' →
        (preimage d.canonicalTerm d.resultIri = preimage d'.canonicalTerm d'.resultIri ↔
          q = q' ∧ d.resultValue = d'.resultValue) ∧
        (q = q' → d.resultValue = d'.resultValue → d.id = d'.id) := by
  obtain ⟨d, hd, h⟩ := exists_derive_of_ground q verified now hground
  have hlt := t.number_lt_cycle q
  refine ⟨t.value q fun _ => 0, d, evaluate_of_ground verified _ hground, hd,
    Term.canonical_of_ground hground, h.canonicalTerm.trans (Term.written_const_of_lt hlt),
    Digits.ofDigits_fixed_of_lt hlt, h.resultValue, h.resultIri, h.id, h.id_eq_digest, ?_⟩
  intro q' verified' t' now' d' hground' hd'
  obtain ⟨e, he, h'⟩ := exists_derive_of_ground q' verified' now' hground'
  obtain rfl : e = d' := Except.ok.inj (he.symm.trans hd')
  have hpreimage := h.preimage_eq_iff_of_const h' (Term.length_value q _ t)
    (Term.length_value q' _ t')
  exact ⟨hpreimage, fun hq hvalue => h.id_eq_of_preimage_eq h' (hpreimage.2 ⟨hq, hvalue⟩)⟩

/-- At two bytes, the successor of an exclusive or with the empty conjunction and an oversized
constant: both have the value 1, hence one identifier. -/
theorem derive_ground_succ :
    let t : Term := .unary .succ (.nary .xor [.const (-1), .nary .and []])
    let t' : Term := .nary .or [.const 65537]
    t.vars = [] ∧ t'.vars = [] ∧
    ∃ d d', derive { sound ⟨1⟩ with verified := true } t "" = .ok d ∧
      derive { sound ⟨1⟩ with verified := false } t' "" = .ok d' ∧
      d.canonicalTerm = "0x0001" ∧ d.resultValue = 1 ∧ d.id = d'.id := by
  intro t t'
  have hground : t.vars = [] := rfl
  have hground' : t'.vars = [] := rfl
  obtain ⟨b, d, hb, hd, -, htext, -, hvalue, -, -, -, hothers⟩ := derive_ground ⟨1⟩ true t "" hground
  obtain ⟨b', d', hb', hd', -, -, -, hvalue', -⟩ := derive_ground ⟨1⟩ false t' "" hground'
  obtain rfl : [0, 1] = b := Except.ok.inj hb
  obtain rfl : [0, 1] = b' := Except.ok.inj hb'
  have hid := (hothers ⟨1⟩ false t' "" d' hground' hd').2 rfl (hvalue.trans hvalue'.symm)
  exact ⟨hground, hground', d, d', hd, hd', htext, hvalue, hid⟩

end ByteRing

end WordRing
