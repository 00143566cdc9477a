import Mathlib.Data.Int.ModEq
import Mathlib.Data.List.DropRight
import WordRing.Proofs.Derivation
import WordRing.Proofs.Residue
import WordRing.Proofs.Unbound

/-!
# One ring inside another

The ring of a lower quantum level is what is left of a higher one when only the last bytes of every
word are kept. All operations commute with this: those that work byte by byte because they do so in
the last bytes as well, and the others because the number of elements of the lower ring divides that
of the higher. So a term has, at the lower level, the last bytes of its value at the higher one,
although its canonical forms at the two levels may have nothing in common.
-/
namespace WordRing

namespace Bytes

theorem length_rtake {count : Nat} {b : Bytes} (h : count ≤ b.length) :
    (b.rtake count).length = count := by
  rw [List.rtake, List.length_drop]
  omega

/-- The last bytes of a number are those that are written at a smaller length. -/
theorem rtake_ofNat (count more n : Nat) :
    (ofNat (more + count) n).rtake count = ofNat count n := by
  induction count generalizing n with
  | zero => simp
  | succ count ih => rw [← Nat.add_assoc, ofNat_succ, List.rtake_concat_succ, ih, ofNat_succ]

theorem toNat_rtake {count : Nat} {b : Bytes} (h : count ≤ b.length) :
    toNat (b.rtake count) = toNat b % Nat.pow 256 count := by
  obtain ⟨more, hmore⟩ := Nat.exists_eq_add_of_le' h
  rw [← toNat_ofNat, ← rtake_ofNat count more, ← hmore, ofNat_toNat]

/-- An operation byte by byte does to the last bytes what it does to the whole. -/
theorem rtake_zipWith (f : UInt8 → UInt8 → UInt8) (count : Nat) {a b : Bytes}
    (h : a.length = b.length) :
    (List.zipWith f a b).rtake count = List.zipWith f (a.rtake count) (b.rtake count) := by
  rw [List.rtake, List.rtake, List.rtake, List.length_zipWith, h, Nat.min_self, List.drop_zipWith]

end Bytes

/-! ## Words -/

namespace Quantum
variable {q q' : Quantum} {b : Bytes}

theorem width_le (h : q.level ≤ q'.level) : q.width ≤ q'.width := Nat.succ_le_succ h

theorem cycle_dvd (h : q.level ≤ q'.level) : (q.cycle : Int) ∣ q'.cycle := by
  rw [q.cycle_eq, q'.cycle_eq]
  exact Int.natCast_dvd_natCast.2 (Nat.pow_dvd_pow 256 (width_le h))

/-- The last bytes of a word are the word of its number at the lower level. -/
theorem rtake_eq_word (h : q.level ≤ q'.level) (hb : b.length = q'.width) :
    b.rtake q.width = q.word (Bytes.toNat b) := by
  have hle : q.width ≤ b.length := hb ▸ width_le h
  rw [← Bytes.toNat_inj (by rw [Bytes.length_rtake hle, q.length_word]), ← Int.ofNat_inj,
    q.toNat_word, Bytes.toNat_rtake hle, q.cycle_eq, Int.natCast_mod]

/-- An integer has the same last bytes at every level. -/
theorem rtake_word (h : q.level ≤ q'.level) (n : Int) : (q'.word n).rtake q.width = q.word n := by
  rw [rtake_eq_word h (q'.length_word n), word_inj, toNat_word,
    Int.emod_emod_of_dvd n (cycle_dvd h)]

end Quantum

/-! ## Operations -/

section Operations
variable {q q' : Quantum}

/-- What an operator does to an integer at the higher level it does, up to congruence, at the lower
one. -/
theorem UnaryOp.residue_emod_cycle (h : q.level ≤ q'.level) (op : UnaryOp) (n : Int) :
    op.residue q' n % q.cycle = op.residue q n % q.cycle := by
  have hdvd := Quantum.cycle_dvd h
  cases op with
  | neg => rw [residue, residue, Int.emod_emod_of_dvd _ hdvd, Int.emod_emod]
  | bnot =>
    have hcomplement {c : Int} (hc : (q.cycle : Int) ∣ c) :
        c - 1 - n % c ≡ 0 - 1 - n [ZMOD q.cycle] :=
      ((Int.modEq_zero_iff_dvd.2 hc).sub_right 1).sub ((Int.mod_modEq n c).of_dvd hc)
    exact (hcomplement hdvd).trans (hcomplement (dvd_refl _)).symm
  | succ => rw [residue, residue, Int.emod_emod_of_dvd _ hdvd, Int.emod_emod]
  | pred => rw [residue, residue, Int.emod_emod_of_dvd _ hdvd, Int.emod_emod]

theorem UnaryOp.rtake_apply (h : q.level ≤ q'.level) (op : UnaryOp) {b : Bytes}
    (hb : b.length = q'.width) : (op.apply b).rtake q.width = op.apply (b.rtake q.width) := by
  rw [← q'.word_toNat hb, apply_word, Quantum.rtake_word h, Quantum.rtake_word h, apply_word,
    Quantum.word_inj, residue_emod_cycle h]

theorem NaryOp.rtake_apply (op : NaryOp) (count : Nat) {a b : Bytes} (h : a.length = b.length) :
    (op.apply a b).rtake count = op.apply (a.rtake count) (b.rtake count) := by
  cases op with
  | xor => exact Bytes.rtake_zipWith _ count h
  | and => exact Bytes.rtake_zipWith _ count h
  | or => exact Bytes.rtake_zipWith _ count h

theorem NaryOp.rtake_foldl_apply (op : NaryOp) (count : Nat) {b : Bytes} (hb : b.length = q.width)
    {bs : List Bytes} (hbs : ∀ c ∈ bs, c.length = q.width) :
    (bs.foldl op.apply b).rtake count =
      (bs.map (List.rtake · count)).foldl op.apply (b.rtake count) := by
  induction bs generalizing b with
  | nil => rfl
  | cons c bs ih =>
    obtain ⟨hc, hrest⟩ := List.forall_mem_cons.1 hbs
    have hnext : (op.apply b c).length = q.width := by rw [length_apply, hb, hc, Nat.min_self]
    rw [List.foldl_cons, ih hnext hrest, rtake_apply op count (hb.trans hc.symm), List.map_cons,
      List.foldl_cons]

/-- A node without operands has at either level the word that changes nothing there. -/
theorem ByteRing.rtake_start (h : q.level ≤ q'.level) (op : NaryOp) :
    (start q' op).rtake q.width = start q op := by
  rw [Term.start_eq, Term.start_eq, Quantum.rtake_word h, Quantum.word_inj]
  cases op with
  | xor => rfl
  | and =>
    have hmask (q : Quantum) : ((NaryOp.and.identity q : Nat) : Int) = q.cycle - 1 := by
      have hpos := q.cycle_pos
      rw [NaryOp.identity, Quantum.mask]
      omega
    have hdvd := Int.modEq_zero_iff_dvd.2 (Quantum.cycle_dvd h)
    rw [hmask, hmask]
    exact (hdvd.trans (Int.modEq_zero_iff_dvd.2 (dvd_refl _)).symm).sub_right 1
  | or => rfl

end Operations

/-! ## Terms -/

/-- **The value of a term at a lower level** is made of the last bytes of its value at a higher one,
whatever constants stand for its variables. -/
theorem Term.rtake_value {q q' : Quantum} (h : q.level ≤ q'.level) (s : VarName → Int) (t : Term) :
    (t.value q' s).rtake q.width = t.value q s := by
  induction t using Term.induct with
  | const n => exact Quantum.rtake_word h n
  | var x => exact Quantum.rtake_word h (s x)
  | unary op t ih =>
    rw [value_unary, UnaryOp.rtake_apply h op (t.length_value q' s), ih, value_unary]
  | nary op ts ih =>
    have hstart : (ByteRing.start q' op).length = q'.width := by rw [start_eq, q'.length_word]
    have hwords : ∀ b ∈ ts.map (value q' s), b.length = q'.width := by
      intro b hb
      obtain ⟨t, -, rfl⟩ := List.mem_map.1 hb
      exact t.length_value q' s
    have hoperands : (ts.map (value q' s)).map (List.rtake · q.width) = ts.map (value q s) := by
      rw [List.map_map]
      exact List.map_congr_left ih
    rw [value_nary, value_nary, total, total, NaryOp.rtake_foldl_apply op q.width hstart hwords,
      hoperands, ByteRing.rtake_start h]

namespace ByteRing
variable {q q' : Quantum} {verified verified' : Bool} {t : Term} {now now' : String}
  {d d' : Derivation}

/-- Values that are derived from one term at two levels are congruent at the lower one. -/
theorem resultValue_eq_emod (h : q.level ≤ q'.level)
    (hd : derive { sound q with verified } t now = .ok d)
    (hd' : derive { sound q' with verified := verified' } t now' = .ok d') :
    d.resultValue = d'.resultValue % q.cycle := by
  have hle : q.width ≤ (t.value q' fun _ => 0).length := by
    rw [t.length_value]
    exact Quantum.width_le h
  rw [(records_value_of_derive (fun _ => 0) hd).resultValue,
    (records_value_of_derive (fun _ => 0) hd').resultValue, ← Term.rtake_value h,
    Bytes.toNat_rtake hle, q.cycle_eq, Int.natCast_mod]

/-- **Quantum levels are consistent.** At a lower level a term without variables evaluates to the
last bytes of what it evaluates to at a higher one, and the value derived is the residue of the
value derived there. A term with variables that derives at both levels has congruent values as
well. -/
theorem evaluate_and_derive_of_level_le (h : q.level ≤ q'.level) (verified verified' : Bool)
    (t : Term) (now now' : String) :
    let r : ByteRing := { sound q with verified }
    let r' : ByteRing := { sound q' with verified := verified' }
    (t.vars = [] →
      (∃ b b', r.evaluate t = .ok b ∧ r'.evaluate t = .ok b' ∧ b'.length = q'.width ∧
        b = b'.rtake q.width) ∧
      ∃ d d', r.derive t now = .ok d ∧ r'.derive t now' = .ok d') ∧
    ∀ d d', r.derive t now = .ok d → r'.derive t now' = .ok d' →
      d.resultValue = d'.resultValue % (2 ^ (8 * (q.level + 1)) : Nat) := by
  intro r r'
  refine ⟨fun hground => ⟨⟨_, _, evaluate_of_ground verified (fun _ => 0) hground,
    evaluate_of_ground verified' (fun _ => 0) hground, t.length_value q' _,
    (Term.rtake_value h _ t).symm⟩, ?_⟩, fun d d' hd hd' => resultValue_eq_emod h hd hd'⟩
  obtain ⟨d, hd, -⟩ := exists_derive_of_ground q verified now hground
  obtain ⟨d', hd', -⟩ := exists_derive_of_ground q' verified' now' hground
  exact ⟨d, d', hd, hd'⟩

/-- The successor of `0xFF` carries into a byte that the lower level is without, and the empty
conjunction is shorter there. -/
theorem evaluate_and_derive_of_level_le_carry :
    let t : Term := .nary .xor [.unary .succ (.const 0xFF), .nary .and []]
    (0 : Nat) ≤ 1 ∧ t.vars = [] ∧
    (sound ⟨0⟩).evaluate t = .ok [0xFF] ∧ (sound ⟨1⟩).evaluate t = .ok [0xFE, 0xFF] ∧
    ([0xFE, 0xFF] : Bytes).rtake 1 = [0xFF] ∧
    ∃ d d', (sound ⟨0⟩).derive t "" = .ok d ∧ (sound ⟨1⟩).derive t "" = .ok d' ∧
      d'.resultValue = 0xFEFF ∧ d.resultValue = 0xFF := by
  intro t
  have hle : (⟨0⟩ : Quantum).level ≤ (⟨1⟩ : Quantum).level := Nat.zero_le 1
  have hground : t.vars = [] := rfl
  obtain ⟨hboth, hresidue⟩ := evaluate_and_derive_of_level_le hle false false t "" ""
  obtain ⟨⟨b, b', hb, hb', -, hlast⟩, d, d', hd, hd'⟩ := hboth hground
  obtain rfl : [0xFF] = b := Except.ok.inj hb
  obtain rfl : [0xFE, 0xFF] = b' := Except.ok.inj hb'
  have hvalue : d'.resultValue = 0xFEFF := (records_value_of_derive (fun _ => 0) hd').resultValue
  have hlower := hresidue d d' hd hd'
  rw [hvalue] at hlower
  exact ⟨hle, hground, hb, hb', hlast.symm, d, d', hd, hd', hvalue, hlower⟩

end ByteRing

end WordRing
