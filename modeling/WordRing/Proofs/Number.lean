import WordRing.Json.Canonical
import WordRing.Json.Reader
import WordRing.Proofs.Shortest
import WordRing.Proofs.Text

/-!
# Numbers read back

The reader takes whole digits, a fraction and an exponent off the front of a text, each up to the
first character that it cannot hold, and rounds what they write. Integers in decimal are read as
themselves; a float is written with digits and a point that stand for its shortest decimal, which
rounds back to it.

## Main definitions

* `Json.follow` — what can follow a value.
* `Json.Whole ds` — digits that can stand before a point.
-/
namespace WordRing.Json
open Text (Stopped stopped_nil stopped_cons)
variable {ds fs r : List Char} {negative : Bool} {n : Nat}

/-! ## Digits -/

/-- What can follow a value. -/
abbrev follow : List Char := ['\n', ',', ']', '\x7d']

theorem isDigit_digitChar {d : Nat} (h : d < 10) : isDigit (Digits.digitChar d) = true := by
  have all : ∀ d < 10, isDigit (Digits.digitChar d) = true := by decide
  exact all d h

theorem isDigit_of_mem_fixed {count : Nat} : ∀ c ∈ Digits.fixed 10 count n, isDigit c = true := by
  intro c hc
  obtain ⟨d, hd, rfl⟩ := Digits.mem_fixed (by decide) hc
  exact isDigit_digitChar hd

theorem isDigit_of_mem_replicate (n : Nat) : ∀ c ∈ List.replicate n '0', isDigit c = true :=
  List.forall_mem_replicate.2 (.inr rfl)

/-- Digits are read up to the first character that is none. -/
theorem spanDigits_append (hds : ∀ c ∈ ds, isDigit c = true)
    (hr : ∀ c ∈ r.head?, isDigit c = false) : spanDigits (ds ++ r) = (ds, r) := by
  have hrest : r.takeWhile isDigit = [] ∧ r.dropWhile isDigit = r := by
    cases r with
    | nil => exact ⟨rfl, rfl⟩
    | cons c r =>
      have hc : isDigit c = false := hr c rfl
      simp [hc]
  rw [spanDigits, List.takeWhile_append_of_pos hds, List.dropWhile_append_of_pos hds, hrest.1,
    hrest.2, List.append_nil]

theorem digitsValue_concat (cs : List Char) (c : Char) :
    digitsValue (cs ++ [c]) = 10 * digitsValue cs + (c.toNat - 48) := by
  rw [digitsValue, List.foldl_append]
  rfl

theorem digitsValue_append (cs ds : List Char) :
    digitsValue (cs ++ ds) = digitsValue cs * 10 ^ ds.length + digitsValue ds := by
  induction ds using List.reverseRecOn with
  | nil => simp [digitsValue]
  | append_singleton ds d ih =>
    rw [← List.append_assoc, digitsValue_concat, digitsValue_concat, ih, List.length_append,
      List.length_singleton, Nat.pow_succ']
    ring

theorem digitsValue_replicate_zero (n : Nat) : digitsValue (List.replicate n '0') = 0 := by
  induction n with
  | zero => rfl
  | succ n ih =>
    rw [List.replicate_succ', digitsValue_concat, ih]
    rfl

theorem digitsValue_fixed (count n : Nat) :
    digitsValue (Digits.fixed 10 count n) = n % 10 ^ count := by
  induction count generalizing n with
  | zero => simp [digitsValue, Nat.mod_one]
  | succ count ih =>
    have hdigit : ∀ d < 10, (Digits.digitChar d).toNat - 48 = d := by decide
    rw [Digits.fixed_succ, digitsValue_concat, ih, hdigit _ (Nat.mod_lt n (by decide)),
      Nat.pow_succ', Nat.mod_mul]
    omega

theorem digitsValue_lt (h : ∀ c ∈ ds, isDigit c = true) : digitsValue ds < 10 ^ ds.length := by
  induction ds using List.reverseRecOn with
  | nil => exact Nat.one_pos
  | append_singleton ds d ih =>
    have hlast : isDigit d = true := h d (by simp)
    have hinit := ih fun c hc => h c (List.mem_append_left _ hc)
    simp only [isDigit, Bool.and_eq_true, decide_eq_true_eq] at hlast
    rw [digitsValue_concat, List.length_append, List.length_singleton, Nat.pow_succ]
    omega

/-! ## Digits before a point -/

/-- Digits without a superfluous zero in front. -/
structure Whole (ds : List Char) : Prop where
  digits : ∀ c ∈ ds, isDigit c = true
  ne_nil : ds ≠ []
  first : ds.head? = some '0' → ds = ['0']

theorem whole_zero : Whole ['0'] := ⟨by simp [isDigit], by simp, fun _ => rfl⟩

theorem readWhole_append (h : Whole ds) (hr : ∀ c ∈ r.head?, isDigit c = false) :
    readWhole (ds ++ r) = some (ds, r) := by
  obtain ⟨c, cs, rfl⟩ := List.exists_cons_of_ne_nil h.ne_nil
  by_cases hc : c = '0'
  · have hcs := h.first (congrArg some hc)
    rw [hcs]
    rfl
  · have hspan := spanDigits_append h.digits hr
    have hdigit := h.digits c List.mem_cons_self
    rw [List.cons_append] at hspan ⊢
    rw [readWhole, if_pos hdigit, hspan]
    exact hc

theorem length_decimal (n : Nat) : (Digits.decimal n).length = Digits.count 10 n := by
  rw [Digits.decimal, Digits.length_padded, Nat.max_eq_right (Digits.count_pos 10 n)]

theorem digitsValue_decimal (n : Nat) : digitsValue (Digits.decimal n) = n := by
  rw [Digits.decimal, Digits.padded, Nat.max_eq_right (Digits.count_pos 10 n), digitsValue_fixed,
    Nat.mod_eq_of_lt (Digits.lt_pow_count (by decide) n)]

theorem isDigit_of_mem_decimal : ∀ c ∈ Digits.decimal n, isDigit c = true := isDigit_of_mem_fixed

/-- A number above zero does not begin with a zero. -/
theorem head?_decimal_ne (hn : n ≠ 0) : (Digits.decimal n).head? ≠ some '0' := by
  intro hfirst
  obtain ⟨cs, hcs⟩ := List.head?_eq_some_iff.1 hfirst
  have hlt : digitsValue cs < 10 ^ cs.length := digitsValue_lt fun c hc =>
    isDigit_of_mem_decimal (n := n) c (hcs ▸ List.mem_cons_of_mem _ hc)
  have hvalue : digitsValue cs = n := by
    have happend := digitsValue_append ['0'] cs
    rw [List.singleton_append, ← hcs, digitsValue_decimal] at happend
    rw [happend]
    exact (Nat.zero_add _).symm.trans (congrArg (· + _) (Nat.zero_mul _).symm)
  have hcount : Digits.count 10 n - 1 = cs.length := by
    rw [← length_decimal, hcs, List.length_cons, Nat.add_sub_cancel]
  have hle := Digits.pow_count_le (show 0 < 10 by decide) hn
  rw [hcount] at hle
  omega

theorem whole_decimal (n : Nat) : Whole (Digits.decimal n) where
  digits := isDigit_of_mem_decimal
  ne_nil := Digits.signedDecimal_ne_nil n
  first := by
    rcases eq_or_ne n 0 with rfl | hn
    · exact fun _ => rfl
    · exact fun h => absurd h (head?_decimal_ne hn)

/-! ## The parts of a number -/

theorem not_of_follow (hr : Stopped follow r) :
    ∀ c ∈ r.head?, isDigit c = false ∧ c ≠ '.' ∧ c ≠ 'e' ∧ c ≠ 'E' := by
  have all : ∀ c ∈ follow, isDigit c = false ∧ c ≠ '.' ∧ c ≠ 'e' ∧ c ≠ 'E' := by simp [isDigit]
  exact fun c hc => all c (hr c hc)

theorem readFraction_append (hfs : ∀ c ∈ fs, isDigit c = true) (hne : fs ≠ [])
    (hr : ∀ c ∈ r.head?, isDigit c = false) : readFraction ('.' :: (fs ++ r)) = (fs, r) := by
  obtain ⟨c, cs, rfl⟩ := List.exists_cons_of_ne_nil hne
  rw [readFraction, spanDigits_append hfs hr]

theorem readFraction_of_ne (hr : ∀ c ∈ r.head?, c ≠ '.') : readFraction r = ([], r) := by
  cases r with
  | nil => rfl
  | cons c r =>
    rw [readFraction]
    exact fun _ heq => hr c rfl (List.cons.inj heq).1

theorem readExponent_of_ne (hr : ∀ c ∈ r.head?, c ≠ 'e' ∧ c ≠ 'E') : readExponent r = none := by
  cases r with
  | nil => rfl
  | cons c r =>
    obtain ⟨hsmall, hlarge⟩ := hr c rfl
    simp [readExponent, hsmall, hlarge]

/-- An exponent in writing, of at least two digits. -/
def exponentText (e : Int) : List Char :=
  'e' :: (if e < 0 then '-' else '+') :: Digits.padded 10 2 e.natAbs

theorem readExponent_exponentText (e : Int) (hr : ∀ c ∈ r.head?, isDigit c = false) :
    readExponent (exponentText e ++ r) = some (e, r) := by
  have hdigits : digitsValue (Digits.padded 10 2 e.natAbs) = e.natAbs := by
    have hlt := Digits.lt_pow_length_padded (show 2 ≤ 10 by decide) 2 e.natAbs
    rw [Digits.length_padded] at hlt
    rw [Digits.padded, digitsValue_fixed, Nat.mod_eq_of_lt hlt]
  have hspan : spanDigits (Digits.padded 10 2 e.natAbs ++ r) = (Digits.padded 10 2 e.natAbs, r) :=
    spanDigits_append isDigit_of_mem_fixed hr
  obtain ⟨c, cs, hcons⟩ : ∃ c cs, Digits.padded 10 2 e.natAbs = c :: cs := by
    refine List.exists_cons_of_ne_nil fun h => ?_
    have hlength := Digits.length_padded 10 2 e.natAbs
    rw [h, List.length_nil] at hlength
    omega
  have hread (negative : Bool) : readExponentDigits negative (Digits.padded 10 2 e.natAbs ++ r) =
      some (if negative then -(e.natAbs : Int) else e.natAbs, r) := by
    rw [readExponentDigits, hspan, hcons]
    dsimp only
    rw [← hcons, hdigits]
  rw [exponentText, List.cons_append, List.cons_append]
  rcases lt_or_ge e 0 with he | he
  · rw [if_pos he, readExponent, if_pos (.inl rfl)]
    rw [hread, if_pos rfl]
    have habs : -(e.natAbs : Int) = e := by omega
    rw [habs]
  · rw [if_neg (Int.not_lt.2 he), readExponent, if_pos (.inl rfl)]
    rw [hread, if_neg Bool.false_ne_true]
    have habs : (e.natAbs : Int) = e := by omega
    rw [habs]

/-! ## Numbers without a sign -/

theorem readUnsigned_whole (h : Whole ds) (hr : Stopped follow r) (negative : Bool) :
    readUnsigned negative (ds ++ r) =
      some (int (if negative then -(digitsValue ds : Int) else digitsValue ds), r) := by
  have hstop := not_of_follow hr
  simp [readUnsigned, readWhole_append h fun c hc => (hstop c hc).1,
    readFraction_of_ne fun c hc => (hstop c hc).2.1,
    readExponent_of_ne fun c hc => (hstop c hc).2.2]

theorem readUnsigned_fraction (h : Whole ds) (hfs : ∀ c ∈ fs, isDigit c = true) (hne : fs ≠ [])
    (hr : Stopped follow r) (negative : Bool) :
    readUnsigned negative (ds ++ '.' :: (fs ++ r)) =
      some (float (floatOf negative (digitsValue (ds ++ fs)) (-fs.length)), r) := by
  have hstop := not_of_follow hr
  have hpoint : ∀ c ∈ ('.' :: (fs ++ r)).head?, isDigit c = false := by simp [isDigit]
  simp [readUnsigned, readWhole_append h hpoint,
    readFraction_append hfs hne fun c hc => (hstop c hc).1,
    readExponent_of_ne fun c hc => (hstop c hc).2.2, hne]

/-- Digits behind a point, if there are any. -/
def fractionText (fs : List Char) : List Char := if fs.isEmpty then [] else '.' :: fs

theorem readUnsigned_exponent (h : Whole ds) (hfs : ∀ c ∈ fs, isDigit c = true) (e : Int)
    (hr : Stopped follow r) (negative : Bool) :
    readUnsigned negative (ds ++ (fractionText fs ++ (exponentText e ++ r))) =
      some (float (floatOf negative (digitsValue (ds ++ fs)) (e - fs.length)), r) := by
  have hexponent := readExponent_exponentText e fun c hc => (not_of_follow hr c hc).1
  have hmark : ∀ c ∈ (exponentText e ++ r).head?, isDigit c = false ∧ c ≠ '.' := by
    simp [exponentText, isDigit]
  have hfraction : readFraction (fractionText fs ++ (exponentText e ++ r)) =
      (fs, exponentText e ++ r) := by
    rw [fractionText]
    split
    next hempty =>
      rw [List.isEmpty_iff.1 hempty]
      exact readFraction_of_ne fun c hc => (hmark c hc).2
    next hempty =>
      exact readFraction_append hfs (mt List.isEmpty_iff.2 hempty) fun c hc => (hmark c hc).1
  have hbehind : ∀ c ∈ (fractionText fs ++ (exponentText e ++ r)).head?, isDigit c = false := by
    rw [fractionText]
    split
    · exact fun c hc => (hmark c hc).1
    · simp [isDigit]
  simp [readUnsigned, readWhole_append h hbehind, hfraction, hexponent]

/-! ## Digits with a point -/

/-- Dropping zeros at the end drops nothing else. -/
theorem exists_eq_dropZeros_append (ds : List Char) :
    ∃ zeros, ds = Shortest.dropZeros ds ++ List.replicate zeros '0' := by
  have hzeros : ds.reverse.takeWhile (· = '0') =
      List.replicate (ds.reverse.takeWhile (· = '0')).length '0' := by
    refine List.eq_replicate_of_mem fun c hc => ?_
    simpa using List.all_eq_true.1 List.all_takeWhile c hc
  refine ⟨(ds.reverse.takeWhile (· = '0')).length, ?_⟩
  rw [Shortest.dropZeros, ← List.reverse_replicate, ← hzeros, ← List.reverse_append,
    List.takeWhile_append_dropWhile, List.reverse_reverse]

/-- What is left of a number above zero without the zeros at its end. -/
theorem exists_dropZeros_decimal (hn : n ≠ 0) :
    ∃ ds zeros, Shortest.dropZeros (Digits.decimal n) = ds ∧
      Digits.decimal n = ds ++ List.replicate zeros '0' ∧ digitsValue ds * 10 ^ zeros = n ∧
      (∀ c ∈ ds, isDigit c = true) ∧ ds ≠ [] ∧ ds.head? ≠ some '0' := by
  obtain ⟨zeros, hzeros⟩ := exists_eq_dropZeros_append (Digits.decimal n)
  have hdigits := isDigit_of_mem_decimal (n := n)
  have hfirst := head?_decimal_ne hn
  have hvalue := digitsValue_decimal n
  generalize Shortest.dropZeros (Digits.decimal n) = ds at hzeros
  rw [hzeros] at hdigits hfirst hvalue
  rw [digitsValue_append, digitsValue_replicate_zero, List.length_replicate, Nat.add_zero] at hvalue
  have hne : ds ≠ [] := by
    rintro rfl
    exact hn (hvalue.symm.trans (Nat.zero_mul _))
  rw [List.head?_append_of_ne_nil ds hne] at hfirst
  exact ⟨ds, zeros, rfl, hzeros, hvalue, (List.forall_mem_append.1 hdigits).1, hne, hfirst⟩

section Place
variable {point : Int} (hdigits : ∀ c ∈ ds, isDigit c = true) (hne : ds ≠ [])
  (hfirst : ds.head? ≠ some '0')
include hdigits hne

/-- A point in front of the digits, with zeros before them. -/
theorem readUnsigned_place_of_nonpos (hlow : -4 < point) (hpoint : point ≤ 0)
    (hr : Stopped follow r) (negative : Bool) :
    readUnsigned negative (Shortest.place ds point ++ r) =
      some (float (floatOf negative (digitsValue ds) (point - ds.length)), r) := by
  have hzeros : ∀ c ∈ List.replicate (-point).toNat '0' ++ ds, isDigit c = true :=
    List.forall_mem_append.2 ⟨isDigit_of_mem_replicate _, hdigits⟩
  have hread := readUnsigned_fraction whole_zero hzeros
    (List.append_ne_nil_of_right_ne_nil _ hne) hr negative
  have hvalue : digitsValue (['0'] ++ (List.replicate (-point).toNat '0' ++ ds)) =
      digitsValue ds := by
    rw [← List.append_assoc, List.singleton_append, ← List.replicate_succ, digitsValue_append,
      digitsValue_replicate_zero, Nat.zero_mul, Nat.zero_add]
  have hexponent : -((List.replicate (-point).toNat '0' ++ ds).length : Int) =
      point - ds.length := by
    rw [List.length_append, List.length_replicate]
    omega
  rw [hvalue, hexponent] at hread
  rw [Shortest.place.eq_def, if_pos ⟨hlow, by omega⟩, if_pos hpoint]
  exact hread

include hfirst

theorem whole_append_zeros (zeros : Nat) : Whole (ds ++ List.replicate zeros '0') where
  digits := List.forall_mem_append.2 ⟨hdigits, isDigit_of_mem_replicate zeros⟩
  ne_nil := List.append_ne_nil_of_left_ne_nil hne _
  first := by
    rw [List.head?_append_of_ne_nil ds hne]
    exact fun h => absurd h hfirst

/-- A point behind all digits, with zeros between them and one zero behind it. -/
theorem readUnsigned_place_of_length_le (hpos : 0 < point) (hhigh : point ≤ 16)
    (hlength : (ds.length : Int) ≤ point) (hr : Stopped follow r) (negative : Bool) :
    readUnsigned negative (Shortest.place ds point ++ r) =
      some (float (floatOf negative (digitsValue ds * 10 ^ (point.toNat - ds.length + 1)) (-1)),
        r) := by
  have hread := readUnsigned_fraction
    (whole_append_zeros hdigits hne hfirst (point.toNat - ds.length)) whole_zero.digits
    whole_zero.ne_nil hr negative
  have hvalue : digitsValue (ds ++ List.replicate (point.toNat - ds.length) '0' ++ ['0']) =
      digitsValue ds * 10 ^ (point.toNat - ds.length + 1) := by
    rw [List.append_assoc, ← List.replicate_succ', digitsValue_append, digitsValue_replicate_zero,
      List.length_replicate, Nat.add_zero]
  rw [hvalue] at hread
  have htake : ds.take point.toNat = ds := List.take_of_length_le (by omega)
  have hdrop : ds.drop point.toNat = [] := List.drop_of_length_le (by omega)
  rw [Shortest.place.eq_def, if_pos ⟨by omega, hhigh⟩, if_neg (by omega)]
  simpa only [htake, hdrop, List.isEmpty_nil, if_true, List.append_assoc, List.cons_append,
    List.nil_append, List.length_singleton, Nat.cast_one] using hread

omit hne in
/-- A point between two digits. -/
theorem readUnsigned_place_of_lt_length (hpos : 0 < point) (hhigh : point ≤ 16)
    (hlength : point < ds.length) (hr : Stopped follow r) (negative : Bool) :
    readUnsigned negative (Shortest.place ds point ++ r) =
      some (float (floatOf negative (digitsValue ds) (point - ds.length)), r) := by
  have hbefore : (ds.take point.toNat).length = point.toNat :=
    List.length_take_of_le (by omega)
  have htake : ds.take point.toNat ≠ [] := by
    rw [Ne, ← List.length_eq_zero_iff, hbefore]
    omega
  have hdrop : ds.drop point.toNat ≠ [] := by
    rw [Ne, List.drop_eq_nil_iff]
    omega
  have hhead : (ds.take point.toNat).head? ≠ some '0' := by
    rwa [List.head?_take, if_neg (by omega)]
  have hwhole := whole_append_zeros (fun c hc => hdigits c (List.mem_of_mem_take hc)) htake hhead 0
  rw [List.replicate_zero, List.append_nil] at hwhole
  have hread := readUnsigned_fraction hwhole (fun c hc => hdigits c (List.mem_of_mem_drop hc))
    hdrop hr negative
  have hexponent : -((ds.drop point.toNat).length : Int) = point - ds.length := by
    rw [List.length_drop]
    omega
  rw [List.take_append_drop, hexponent] at hread
  rw [Shortest.place.eq_def, if_pos ⟨by omega, hhigh⟩, if_neg (by omega)]
  simpa only [hbefore, Nat.sub_self, List.replicate_zero, List.append_nil, List.isEmpty_iff, hdrop,
    if_false, List.append_assoc, List.cons_append] using hread

/-- The first digit before a point, the others behind it, and an exponent. -/
theorem readUnsigned_place_of_exponent (hpoint : ¬(-4 < point ∧ point ≤ 16))
    (hr : Stopped follow r) (negative : Bool) :
    readUnsigned negative (Shortest.place ds point ++ r) =
      some (float (floatOf negative (digitsValue ds) (point - ds.length)), r) := by
  obtain ⟨d, rest, rfl⟩ := List.exists_cons_of_ne_nil hne
  have hwhole : Whole [d] :=
    ⟨fun c hc => hdigits c (by simp [List.mem_singleton.1 hc]), by simp, fun h => absurd h hfirst⟩
  have hread := readUnsigned_exponent hwhole (fun c hc => hdigits c (List.mem_cons_of_mem d hc))
    (point - 1) hr negative
  have hexponent : point - 1 - (rest.length : Int) = point - (d :: rest).length := by
    rw [List.length_cons]
    omega
  have htext : Shortest.place (d :: rest) point = [d] ++ fractionText rest ++
      exponentText (point - 1) := by
    rw [Shortest.place.eq_def, if_neg hpoint]
    cases rest <;> simp [fractionText, exponentText]
  rw [htext, List.append_assoc, List.append_assoc, hread, hexponent]
  rfl

variable (point) in
/-- Digits that begin with no zero are read back from where `place` puts the point. -/
theorem readUnsigned_place (hr : Stopped follow r) (negative : Bool) :
    ∃ digits exponent, readUnsigned negative (Shortest.place ds point ++ r) =
        some (float (floatOf negative digits exponent), r) ∧
      (digits : ℚ) * 10 ^ exponent = digitsValue ds * 10 ^ (point - ds.length) := by
  by_cases hplaced : -4 < point ∧ point ≤ 16
  · rcases lt_or_ge 0 point with hpos | hnonpos
    · rcases lt_or_ge point ds.length with hlt | hge
      · exact ⟨_, _, readUnsigned_place_of_lt_length hdigits hfirst hpos hplaced.2 hlt hr
          negative, rfl⟩
      · refine ⟨_, _, readUnsigned_place_of_length_le hdigits hne hfirst hpos hplaced.2 hge hr
          negative, ?_⟩
        have hpoint : point - ds.length = ((point.toNat - ds.length : Nat) : Int) := by omega
        rw [hpoint, zpow_natCast, zpow_neg_one]
        push_cast
        ring
    · exact ⟨_, _, readUnsigned_place_of_nonpos hdigits hne hplaced.1 hnonpos hr negative, rfl⟩
  · exact ⟨_, _, readUnsigned_place_of_exponent hdigits hne hfirst hplaced hr negative, rfl⟩

end Place

/-! ## Floats -/

section Floats
open Binary64 (RoundsTo infiniteRank scale units)
variable {rank : Nat} {exponent : Int} {v : ℚ}

/-- The greatest magnitudes have 309 digits before the point. -/
theorem units_infiniteRank_lt : units infiniteRank < 10 ^ 309 * scale := by decide +kernel

/-- The least magnitude has 324 places behind the point. -/
theorem two_mul_scale_lt : 2 * scale < 10 ^ 330 := by decide +kernel

theorem lt_of_roundsTo (hlt : rank < infiniteRank) (h : RoundsTo rank v) :
    v < 10 ^ (309 : Int) := by
  have hscale : (0 : ℚ) < 2 * scale := by exact_mod_cast Nat.mul_pos Nat.two_pos Binary64.scale_pos
  have hunits : units rank + units (rank + 1) < 10 ^ 309 * (2 * scale) := by
    have hrank := Binary64.strictMono_units.monotone hlt.le
    have hsucc : units (rank + 1) ≤ units infiniteRank :=
      Binary64.strictMono_units.monotone (Nat.succ_le_of_lt hlt)
    have hbound := units_infiniteRank_lt
    rw [Nat.mul_left_comm]
    omega
  refine lt_of_mul_lt_mul_right ?_ hscale.le
  calc
    v * (2 * scale) ≤ ((units rank + units (rank + 1) : Nat) : ℚ) := h.le_and_le.2
    _ < 10 ^ (309 : Int) * (2 * scale) := by exact_mod_cast hunits

theorem lt_of_roundsTo_of_pos (hrank : 0 < rank) (h : RoundsTo rank v) :
    10 ^ (-330 : Int) < v := by
  have hscale : (0 : ℚ) < 2 * scale := by exact_mod_cast Nat.mul_pos Nat.two_pos Binary64.scale_pos
  have hunits : 1 ≤ units (rank - 1) + units rank :=
    (Binary64.units_pos hrank).trans_le (Nat.le_add_left _ _)
  have hone : 1 ≤ v * (2 * scale) :=
    (show (1 : ℚ) ≤ _ by exact_mod_cast hunits).trans h.le_and_le.1
  have hpos : 0 < v := (mul_pos_iff_of_pos_right hscale).1 (one_pos.trans_le hone)
  have hbound : (2 * scale : ℚ) < 10 ^ (330 : Nat) := by
    have hcast := Nat.cast_lt (α := ℚ).2 two_mul_scale_lt
    rwa [Nat.cast_mul, Nat.cast_pow, Nat.cast_ofNat, Nat.cast_ofNat] at hcast
  rw [zpow_neg, zpow_ofNat, inv_lt_iff_one_lt_mul₀ (pow_pos (by norm_num) 330)]
  exact hone.trans_lt (mul_lt_mul_of_pos_left hbound hpos)

/-- What rounds to a finite magnitude above zero is read as that. -/
theorem floatOf_eq (hrank : 0 < rank) (hlt : rank < infiniteRank)
    (h : RoundsTo rank (n * 10 ^ exponent)) (negative : Bool) :
    floatOf negative n exponent = .finite negative ⟨rank, hlt⟩ := by
  have hn : n ≠ 0 := Shortest.digits_ne_zero hrank h
  have hten : (10 : ℚ) ≠ 0 := by norm_num
  have hpos : (0 : ℚ) < 10 ^ exponent := by positivity
  have hcount := Digits.count_pos 10 n
  have hsum (k : Nat) : (10 : ℚ) ^ k * 10 ^ exponent = 10 ^ (k + exponent) := by
    rw [zpow_add₀ hten, zpow_natCast]
  -- The digits before the point are counted from both sides.
  have hnear : ¬310 < exponent + Digits.count 10 n := by
    have hle : (10 : ℚ) ^ (Digits.count 10 n - 1) ≤ n := by
      exact_mod_cast Digits.pow_count_le (show 0 < 10 by decide) hn
    have hvalue := (mul_le_mul_of_nonneg_right hle hpos.le).trans_lt (lt_of_roundsTo hlt h)
    rw [hsum, zpow_lt_zpow_iff_right₀ (by norm_num)] at hvalue
    omega
  have hseen : ¬exponent + Digits.count 10 n < -330 := by
    have hle : (n : ℚ) < 10 ^ Digits.count 10 n := by
      exact_mod_cast Digits.lt_pow_count (show 2 ≤ 10 by decide) n
    have hvalue := (lt_of_roundsTo_of_pos hrank h).trans (mul_lt_mul_of_pos_right hle hpos)
    rw [hsum, zpow_lt_zpow_iff_right₀ (by norm_num)] at hvalue
    omega
  rw [Shortest.mul_ten_zpow_eq_div] at h
  simp only [floatOf, if_neg hn, if_neg hnear, if_neg hseen]
  exact Binary64.nearest_eq (Shortest.down_pos exponent) hlt h negative

/-- The text of a magnitude above zero is read back as that. -/
theorem readUnsigned_text (hrank : 0 < rank) (hlt : rank < infiniteRank) (hr : Stopped follow r)
    (negative : Bool) :
    readUnsigned negative ((Shortest.shortest rank).text ++ r) =
      some (float (.finite negative ⟨rank, hlt⟩), r) := by
  have hround := Shortest.roundsTo_shortest hrank
  generalize Shortest.shortest rank = d at hround ⊢
  obtain ⟨ds, zeros, hdrop, hdecimal, hvalue, hdigits, hne, hfirst⟩ :=
    exists_dropZeros_decimal (Shortest.digits_ne_zero hrank hround)
  obtain ⟨digits, exponent, hread, heq⟩ := readUnsigned_place
    (d.exponent + (Digits.decimal d.digits).length) hdigits hne hfirst hr negative
  have hplaces : d.exponent + ((Digits.decimal d.digits).length : Int) - ds.length =
      zeros + d.exponent := by
    rw [hdecimal, List.length_append, List.length_replicate]
    omega
  have hsame : (digits : ℚ) * 10 ^ exponent = d.value := by
    rw [heq, hplaces, zpow_add₀ (by norm_num), zpow_natCast, ← mul_assoc, Shortest.Decimal.value]
    congr 1
    exact_mod_cast hvalue
  rw [Shortest.Decimal.text, hdrop, hread, floatOf_eq hrank hlt (hsame ▸ hround)]

end Floats

/-! ## Words and numbers -/

theorem readScalar_null (r : List Char) : readScalar ("null".toList ++ r) = some (null, r) := by
  simp [readScalar, afterWord]

theorem readScalar_bool (b : Bool) (r : List Char) :
    readScalar (scalarText (bool b) ++ r) = some (bool b, r) := by
  cases b <;> simp [readScalar, afterWord, scalarText]

/-- A number begins with a digit. -/
theorem exists_cons_of_readUnsigned {cs : List Char} {p : Json × List Char}
    (h : readUnsigned negative cs = some p) : ∃ c rest, cs = c :: rest ∧ isDigit c = true := by
  cases cs with
  | nil => simp [readUnsigned, readWhole] at h
  | cons c cs =>
    refine ⟨c, cs, rfl, ?_⟩
    by_contra hc
    have hnone : readWhole (c :: cs) = none := by
      rw [readWhole, if_neg hc]
      rintro rfl
      exact hc rfl
    simp [readUnsigned, hnone] at h

/-- Nothing that begins with a digit, or with a minus sign and a digit, is taken for a word. -/
theorem readScalar_signed {cs : List Char} {p : Json × List Char}
    (h : readUnsigned negative cs = some p) : readScalar (Shortest.signed negative cs) = some p := by
  obtain ⟨c, cs, rfl, hc⟩ := exists_cons_of_readUnsigned h
  have hword : ∀ d ∈ ['n', 't', 'f', 'N', 'I', '-'], isDigit d = false := by simp [isDigit]
  have hne : ∀ d ∈ ['n', 't', 'f', 'N', 'I', '-'], d ≠ c := by
    rintro d hd rfl
    exact nomatch (hword d hd).symm.trans hc
  simp only [List.forall_mem_cons] at hne
  cases negative with
  | true => simp [readScalar, afterWord, Shortest.signed, hne, h]
  | false =>
    simp only [Shortest.signed, Bool.false_eq_true, if_false, readScalar]
    split
    next heq => exact absurd (List.cons.inj heq).1.symm hne.2.2.2.2.2.1
    next => simp [afterWord, hne, h]

theorem signed_append (negative : Bool) (cs r : List Char) :
    Shortest.signed negative cs ++ r = Shortest.signed negative (cs ++ r) := by
  cases negative <;> rfl

theorem signedDecimal_eq_signed (n : Int) :
    Digits.signedDecimal n = Shortest.signed (n < 0) (Digits.decimal n.natAbs) := by
  cases n <;> simp [Digits.signedDecimal, Shortest.signed]

/-- An integer is read back. -/
theorem readScalar_int (n : Int) (hr : Stopped follow r) :
    readScalar (scalarText (int n) ++ r) = some (int n, r) := by
  have hread := readUnsigned_whole (whole_decimal n.natAbs) hr (n < 0)
  have hvalue : (if decide (n < 0) = true then -(n.natAbs : Int) else n.natAbs) = n := by
    simp only [decide_eq_true_eq]
    omega
  rw [digitsValue_decimal, hvalue] at hread
  rw [scalarText, signedDecimal_eq_signed, signed_append, readScalar_signed hread]

/-- **A float is read back**: infinities, the sign of zero and every magnitude. -/
theorem readScalar_float (x : Binary64) (hr : Stopped follow r) :
    readScalar (scalarText (float x) ++ r) = some (float x, r) := by
  cases x with
  | nan => simp [readScalar, afterWord, scalarText, floatText]
  | infinite negative =>
    cases negative <;> simp [readScalar, afterWord, scalarText, floatText, Shortest.signed]
  | finite negative rank =>
    obtain ⟨rank, hlt⟩ := rank
    have htext : scalarText (float (.finite negative ⟨rank, hlt⟩)) = Shortest.signed negative
        (if rank = 0 then "0.0".toList else (Shortest.shortest rank).text) := rfl
    rw [htext, signed_append]
    refine readScalar_signed ?_
    rcases Nat.eq_zero_or_pos rank with rfl | hpos
    · have hzero : .finite negative ⟨0, hlt⟩ = Binary64.zero negative := by
        rw [Binary64.zero, Binary64.ofRank, dif_pos hlt]
      rw [hzero]
      exact readUnsigned_fraction whole_zero whole_zero.digits whole_zero.ne_nil hr negative
    · rw [if_neg hpos.ne']
      exact readUnsigned_text hpos hlt hr negative

end WordRing.Json
