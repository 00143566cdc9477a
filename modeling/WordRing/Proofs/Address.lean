import WordRing.Address
import WordRing.Proofs.Digits
import WordRing.Proofs.Word

/-!
# Addresses tell words apart

Every byte takes a segment of five characters, and the segment gives the byte back, so an address
determines the whole byte string. Reading finds the segments again one by one, although it looks
for them anywhere in the text: a segment is read off whole, and nothing stands between two. The
address of an integer therefore names two things at once: the quantum level, by its length, and
the residue at that level.
-/
namespace WordRing.Address

/-! ## Segments -/

theorem codepoint_lt (x : UInt8) : codepoint x < 16 ^ 4 := by
  have hx : x.toNat < 256 := x.toNat_lt
  simp only [codepoint, brailleBase]
  omega

theorem upperHex_codepoint (x : UInt8) :
    Digits.upperHex 4 (codepoint x) = (Digits.fixed 16 4 (codepoint x)).map Char.toUpper := by
  rw [Digits.upperHex, Digits.padded_eq_fixed (by decide) (codepoint_lt x)]

@[simp] theorem length_segment (x : UInt8) : (segment x).length = 5 := by
  rw [segment, upperHex_codepoint, List.length_cons, List.length_map, Digits.length_fixed]

/-- The digits of a segment read back as the code point of its byte. -/
theorem ofDigits_codepoint (x : UInt8) :
    Digits.ofDigits 16 (Digits.upperHex 4 (codepoint x)) = some (codepoint x) := by
  rw [upperHex_codepoint, Digits.ofDigits_map_fixed (by decide) (Nat.le_refl 16) (by decide),
    Nat.mod_eq_of_lt (codepoint_lt x)]

theorem segment_inj {x y : UInt8} : segment x = segment y ↔ x = y := by
  constructor
  · intro h
    have hread : some (codepoint x) = some (codepoint y) := by
      rw [← ofDigits_codepoint, ← ofDigits_codepoint, (List.cons.inj h).2]
    exact UInt8.toNat_inj.1 (Nat.add_left_cancel (Option.some_inj.1 hread))
  · rintro rfl
    rfl

/-! ## Addresses -/

theorem path_inj {a b : Bytes} : path a = path b ↔ a = b := by
  constructor
  · intro h
    induction a generalizing b with
    | nil =>
      cases b with
      | nil => rfl
      | cons y b => simp [path, segment] at h
    | cons x a ih =>
      cases b with
      | nil => simp [path, segment] at h
      | cons y b =>
        have hcons : segment x ++ path a = segment y ++ path b := h
        obtain ⟨hbyte, hrest⟩ := List.append_inj hcons (by simp)
        rw [segment_inj.1 hbyte, ih hrest]
  · rintro rfl
    rfl

theorem ofBytes_inj {a b : Bytes} : ofBytes a = ofBytes b ↔ a = b := by
  rw [ofBytes, ofBytes, ← path_inj]
  constructor
  · intro h
    have hlist := congrArg String.toList h
    rw [String.toList_append, String.toList_append] at hlist
    simpa using List.append_cancel_left hlist
  · rintro h
    rw [h]

/-- **The address of an integer names its quantum level and its residue**, and nothing else. -/
theorem ofInt_inj {q q' : Quantum} {m n : Int} :
    ofInt q m = ofInt q' n ↔ q = q' ∧ m % q.cycle = n % q.cycle := by
  rw [ofInt, ofInt, ofBytes_inj]
  constructor
  · intro h
    have hwidth : q.width = q'.width := by simpa using congrArg List.length h
    have hlevel : q = q' := by
      cases q
      cases q'
      simpa [Quantum.width] using hwidth
    subst hlevel
    exact ⟨rfl, q.word_inj.1 h⟩
  · rintro ⟨rfl, h⟩
    exact q.word_inj.2 h

/-- An address holds no equals sign. -/
theorem equals_not_mem_ofBytes (b : Bytes) : '=' ∉ (ofBytes b).toList := by
  have hdigit (d : Nat) : '=' ≠ (Digits.digitChar d).toUpper := by
    unfold Digits.digitChar
    split <;> decide
  rw [ofBytes, String.toList_append, List.mem_append, String.toList_ofList]
  rintro (hbase | hpath)
  · exact absurd hbase (by decide)
  · obtain ⟨x, -, hx⟩ := List.mem_flatMap.1 hpath
    rw [segment, upperHex_codepoint, List.mem_cons, List.mem_map] at hx
    rcases hx with hx | ⟨c, hc, hx⟩
    · exact absurd hx (by decide)
    · obtain ⟨d, -, rfl⟩ := Digits.mem_fixed (by decide) hc
      exact hdigit d hx.symm

/-! ## Reading -/

theorem byteOf_codepoint (x : UInt8) : byteOf (codepoint x) = .ok x := by
  have hx : x.toNat ≤ 255 := Nat.le_of_lt_succ x.toNat_lt
  simp [byteOf, codepoint, hx]

/-- A segment at the front of a text is read off whole, and reading goes on right behind it. -/
theorem segments_segment_append (x : UInt8) (cs : List Char) :
    segments (segment x ++ cs) = (segments cs).map (x :: ·) := by
  have hlength : (Digits.upperHex 4 (codepoint x)).length = 4 := by
    simpa [segment] using length_segment x
  have hread := ofDigits_codepoint x
  rw [segment]
  generalize Digits.upperHex 4 (codepoint x) = ds at hlength hread
  obtain ⟨a, b, c, d, rfl⟩ := List.length_eq_four.1 hlength
  have hstep : segments ('U' :: a :: b :: c :: d :: cs) =
      (do let y ← byteOf (codepoint x); let ys ← segments cs; return y :: ys) := by
    rw [segments, hread]
  rw [byteOf_codepoint] at hstep
  refine Eq.trans hstep ?_
  cases segments cs <;> rfl

/-- The segments of an address give its bytes back, none lost and none found between two. -/
theorem segments_path (b : Bytes) : segments (path b) = .ok b := by
  induction b with
  | nil => rfl
  | cons x b ih =>
    have hcons : path (x :: b) = segment x ++ path b := rfl
    rw [hcons, segments_segment_append, ih]
    rfl

theorem withoutBase_base_append (cs : List Char) : withoutBase (base ++ String.ofList cs) = cs := by
  have hlist : (base ++ String.ofList cs).toList = base.toList ++ cs := by simp
  have hfront : base.toList.isPrefixOf (base ++ String.ofList cs).toList = true := by
    rw [hlist, List.isPrefixOf_iff_prefix]
    exact List.prefix_append _ _
  rw [withoutBase, if_pos hfront, hlist, ← String.length_toList, List.drop_left]

theorem withoutBase_ofBytes (b : Bytes) : withoutBase (ofBytes b) = path b :=
  withoutBase_base_append (path b)

/-- The base stands in front of no text that begins in another way. -/
theorem withoutBase_ofList {cs : List Char} (h : cs.head? ≠ some 'h') :
    withoutBase (String.ofList cs) = cs := by
  have hfront : base.toList.isPrefixOf cs = false := by
    cases cs with
    | nil => rfl
    | cons c cs =>
      have hne : ('h' == c) = false := beq_eq_false_iff_ne.2 fun heq => h (heq ▸ rfl)
      rw [show base.toList = 'h' :: base.toList.tail from rfl, List.isPrefixOf, hne, Bool.false_and]
  simp [withoutBase, hfront]

/-- The base stands in front of no bare path. -/
theorem withoutBase_path (b : Bytes) : withoutBase (String.ofList (path b)) = path b :=
  withoutBase_ofList (by cases b <;> simp [path, segment])

theorem toBytes_of_withoutBase {iri : String} {b : Bytes} (h : withoutBase iri = path b)
    (hb : b ≠ []) : toBytes iri = .ok b := by
  simp [toBytes, h, segments_path, hb, bind, Except.bind, pure, Except.pure]

/-- **Addresses are lossless and injective.** Every byte string but the empty one is read back off
its address and off the bare path, so the address of an integer gives its word; and it names the
quantum level and the residue, and nothing else. -/
theorem toBytes_ofBytes_and_ofInt_eq_iff :
    (∀ b : Bytes, b ≠ [] →
      toBytes (ofBytes b) = .ok b ∧ toBytes (String.ofList (path b)) = .ok b) ∧
    (∀ (q : Quantum) (n : Int), toBytes (ofInt q n) = .ok (q.word n)) ∧
    ∀ (q q' : Quantum) (m n : Int),
      ofInt q m = ofInt q' n ↔ q = q' ∧ m % q.cycle = n % q.cycle := by
  have hread (b : Bytes) (hb : b ≠ []) : toBytes (ofBytes b) = .ok b :=
    toBytes_of_withoutBase (withoutBase_ofBytes b) hb
  refine ⟨fun b hb => ⟨hread b hb, toBytes_of_withoutBase (withoutBase_path b) hb⟩, ?_, ?_⟩
  · intro q n
    have hword : q.word n ≠ [] := by
      intro hnil
      have hlength := q.length_word n
      rw [hnil] at hlength
      exact absurd hlength (Nat.succ_ne_zero _).symm
    exact hread _ hword
  · intro q q' m n
    exact ofInt_inj

/-- At two bytes, -13621 is congruent to 0xCACB and shares its address, which reads back as that
word with and without the base. -/
theorem toBytes_ofBytes_and_ofInt_eq_iff_negative :
    ([0xCA, 0xCB] : Bytes) ≠ [] ∧
    toBytes "https://uor.foundation/u/U28CAU28CB" = .ok [0xCA, 0xCB] ∧
    toBytes "U28CAU28CB" = .ok [0xCA, 0xCB] ∧
    toBytes (ofInt ⟨1⟩ (-13621)) = .ok [0xCA, 0xCB] ∧
    ofInt ⟨1⟩ (-13621) = ofInt ⟨1⟩ 0xCACB := by
  obtain ⟨hread, hword, hinj⟩ := toBytes_ofBytes_and_ofInt_eq_iff
  have hb : ([0xCA, 0xCB] : Bytes) ≠ [] := List.cons_ne_nil _ _
  obtain ⟨hfull, hbare⟩ := hread [0xCA, 0xCB] hb
  exact ⟨hb, hfull, hbare, hword ⟨1⟩ (-13621), (hinj ⟨1⟩ ⟨1⟩ (-13621) 0xCACB).2 ⟨rfl, by decide⟩⟩

end WordRing.Address
