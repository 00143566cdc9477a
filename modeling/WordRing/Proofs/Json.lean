import Mathlib.Data.List.Forall2
import Mathlib.Data.List.Nodup
import WordRing.Bytes
import WordRing.Json.Canonical
import WordRing.Json.Reader
import WordRing.Proofs.Digits
import WordRing.Proofs.Text

/-!
# Canonical JSON tells values apart

Values that differ only in the order of object members have the same canonical text, because
members are sorted by key and no key stands twice. Conversely the text determines the value up to
that order. A string is found again by the reader, a number ends where a comma or a bracket
follows, and the first character of a text shows of what kind the value is.

## Main definitions

* `Json.Plain d` — `d` holds no floats and no object in it has a key twice.
* `Json.EqUpToOrder d e` — `d` and `e` are equal once the order of object members is ignored.
-/
namespace WordRing.Json
open Text

/-- Values without floats whose objects have each key once. -/
inductive Plain : Json → Prop where
  | null : Plain null
  | bool (b : Bool) : Plain (bool b)
  | int (n : Int) : Plain (int n)
  | str (s : String) : Plain (str s)
  | arr {ds : List Json} (h : ∀ d ∈ ds, Plain d) : Plain (arr ds)
  | obj {ms : List (String × Json)} (hkeys : (ms.map Prod.fst).Nodup)
    (h : ∀ m ∈ ms, Plain m.2) : Plain (obj ms)

attribute [simp] Plain.null Plain.bool Plain.int Plain.str

@[simp] theorem plain_nat (n : Nat) : Plain (nat n) := .int n

@[simp] theorem plain_arr {ds : List Json} : Plain (arr ds) ↔ ∀ d ∈ ds, d.Plain :=
  ⟨fun | .arr h => h, .arr⟩

@[simp] theorem plain_obj {ms : List (String × Json)} :
    Plain (obj ms) ↔ (ms.map Prod.fst).Nodup ∧ ∀ m ∈ ms, m.2.Plain :=
  ⟨fun | .obj hkeys h => ⟨hkeys, h⟩, fun h => .obj h.1 h.2⟩

/-- The same value but for the order of members: lists agree item by item, and objects have the
same keys, in any order, with values that agree under each. -/
inductive EqUpToOrder : Json → Json → Prop where
  | null : EqUpToOrder null null
  | bool (b : Bool) : EqUpToOrder (bool b) (bool b)
  | int (n : Int) : EqUpToOrder (int n) (int n)
  | str (s : String) : EqUpToOrder (str s) (str s)
  | arr {ds es : List Json} (hlength : ds.length = es.length)
    (h : ∀ p ∈ ds.zip es, EqUpToOrder p.1 p.2) : EqUpToOrder (arr ds) (arr es)
  | obj {ms ns : List (String × Json)} (hkeys : (ms.map Prod.fst).Perm (ns.map Prod.fst))
    (h : ∀ m ∈ ms, ∀ n ∈ ns, m.1 = n.1 → EqUpToOrder m.2 n.2) : EqUpToOrder (obj ms) (obj ns)

@[simp] theorem eqUpToOrder_null : EqUpToOrder null null := .null

@[simp] theorem eqUpToOrder_bool {b b' : Bool} : EqUpToOrder (bool b) (bool b') ↔ b = b' :=
  ⟨fun | .bool _ => rfl, fun h => h ▸ .bool b⟩

@[simp] theorem eqUpToOrder_int {m n : Int} : EqUpToOrder (int m) (int n) ↔ m = n :=
  ⟨fun | .int _ => rfl, fun h => h ▸ .int m⟩

@[simp] theorem eqUpToOrder_nat {m n : Nat} : EqUpToOrder (nat m) (nat n) ↔ m = n := by
  rw [nat, nat, eqUpToOrder_int, Int.ofNat_inj]

@[simp] theorem eqUpToOrder_str {s t : String} : EqUpToOrder (str s) (str t) ↔ s = t :=
  ⟨fun | .str _ => rfl, fun h => h ▸ .str s⟩

@[simp] theorem eqUpToOrder_obj {ms ns : List (String × Json)} :
    EqUpToOrder (obj ms) (obj ns) ↔ (ms.map Prod.fst).Perm (ns.map Prod.fst) ∧
      ∀ m ∈ ms, ∀ n ∈ ns, m.1 = n.1 → EqUpToOrder m.2 n.2 :=
  ⟨fun | .obj hkeys h => ⟨hkeys, h⟩, fun h => .obj h.1 h.2⟩

variable {d e : Json} {ms ns : List (String × Json)} {r r' : List Char}

/-! ## Lists and objects -/

theorem canonicalItems_eq_map (ds : List Json) : canonicalItems ds = ds.map canonicalChars := by
  induction ds with
  | nil => rfl
  | cons d ds ih => rw [canonicalItems, ih, List.map_cons]

theorem canonicalMembers_eq_map (ms : List (String × Json)) :
    canonicalMembers ms = ms.map fun m => (m.1, m.2.canonicalChars) := by
  induction ms with
  | nil => rfl
  | cons m ms ih => rw [canonicalMembers, ih, List.map_cons]

theorem sortByKey_perm {α : Type} (ms : List (String × α)) : (sortByKey ms).Perm ms :=
  List.mergeSort_perm ms _

theorem pairwise_sortByKey {α : Type} (ms : List (String × α)) :
    (sortByKey ms).Pairwise fun m n => Text.le m.1.toList n.1.toList = true := by
  have htrans (l m n : String × α) (hlm : Text.le l.1.toList m.1.toList = true)
      (hmn : Text.le m.1.toList n.1.toList = true) : Text.le l.1.toList n.1.toList = true :=
    Text.le_trans hlm hmn
  have htotal (m n : String × α) :
      (Text.le m.1.toList n.1.toList || Text.le n.1.toList m.1.toList) = true := by
    rw [Bool.or_eq_true]
    exact Text.le_total _ _
  exact List.pairwise_mergeSort htrans htotal ms

/-- Sorting looks at keys alone. -/
theorem sortByKey_map {α β : Type} (f : α → β) (ms : List (String × α)) :
    sortByKey (ms.map fun m => (m.1, f m.2)) = (sortByKey ms).map fun m => (m.1, f m.2) := by
  rw [sortByKey, sortByKey, List.map_mergeSort]
  exact fun _ _ _ _ => rfl

/-- Sorting does not see the order of members if no key stands twice. -/
theorem sortByKey_eq_of_perm {α : Type} {ms ns : List (String × α)}
    (hkeys : (ms.map Prod.fst).Nodup) (h : ms.Perm ns) : sortByKey ms = sortByKey ns := by
  have hperm : (sortByKey ms).Perm (sortByKey ns) :=
    (sortByKey_perm ms).trans (h.trans (sortByKey_perm ns).symm)
  refine hperm.eq_of_pairwise ?_ (pairwise_sortByKey ms) (pairwise_sortByKey ns)
  intro m n hm hn hmn hnm
  have hkey : m.1 = n.1 := String.toList_inj.1 (Text.le_antisymm hmn hnm)
  have hm' : m ∈ ms := (sortByKey_perm ms).mem_iff.1 hm
  have hn' : n ∈ ms := h.mem_iff.2 ((sortByKey_perm ns).mem_iff.1 hn)
  exact List.inj_on_of_nodup_map hkeys hm' hn' hkey

/-- An arrangement with the keys in order is what sorting finds. -/
theorem sortByKey_eq_of_pairwise {α : Type} {ms ns : List (String × α)}
    (hkeys : (ms.map Prod.fst).Nodup) (h : ms.Perm ns)
    (hsorted : ns.Pairwise fun m n => Text.le m.1.toList n.1.toList = true) :
    sortByKey ms = ns := by
  rw [sortByKey_eq_of_perm hkeys h, sortByKey, List.mergeSort_of_pairwise hsorted]

/-- A member in writing. -/
def memberText (m : String × Json) : List Char := escape m.1 ++ ':' :: m.2.canonicalChars

theorem canonicalChars_arr (ds : List Json) :
    (arr ds).canonicalChars = '[' :: (join [','] (ds.map canonicalChars) ++ [']']) := by
  rw [canonicalChars, canonicalItems_eq_map]

theorem canonicalChars_obj (ms : List (String × Json)) :
    (obj ms).canonicalChars =
      '\x7b' :: (join [','] ((sortByKey ms).map memberText) ++ ['\x7d']) := by
  rw [canonicalChars, canonicalMembers_eq_map, sortByKey_map, List.map_map]
  rfl

/-! ## Order of members -/

/-- Objects with the same keys, each once, have the same members up to order if their values agree
under each key. -/
theorem map_values_perm {α β : Type} {f : α → β} {ms ns : List (String × α)}
    (hms : (ms.map Prod.fst).Nodup) (hns : (ns.map Prod.fst).Nodup)
    (hkeys : (ms.map Prod.fst).Perm (ns.map Prod.fst))
    (h : ∀ m ∈ ms, ∀ n ∈ ns, m.1 = n.1 → f m.2 = f n.2) :
    (ms.map fun m => (m.1, f m.2)).Perm (ns.map fun m => (m.1, f m.2)) := by
  have hnodup {ls : List (String × α)} (hls : (ls.map Prod.fst).Nodup) :
      (ls.map fun m => (m.1, f m.2)).Nodup := by
    refine List.Nodup.of_map Prod.fst ?_
    rwa [List.map_map]
  rw [List.perm_ext_iff_of_nodup (hnodup hms) (hnodup hns)]
  intro p
  rw [List.mem_map, List.mem_map]
  constructor
  · rintro ⟨m, hm, rfl⟩
    obtain ⟨n, hn, hkey⟩ := List.mem_map.1 (hkeys.mem_iff.1 (List.mem_map_of_mem hm))
    exact ⟨n, hn, by rw [hkey, h m hm n hn hkey.symm]⟩
  · rintro ⟨n, hn, rfl⟩
    obtain ⟨m, hm, hkey⟩ := List.mem_map.1 (hkeys.mem_iff.2 (List.mem_map_of_mem hn))
    exact ⟨m, hm, by rw [hkey, h m hm n hn hkey]⟩

/-- The order of members does not show in the canonical text. -/
theorem EqUpToOrder.canonicalChars_eq (h : EqUpToOrder d e) (hd : d.Plain) (he : e.Plain) :
    d.canonicalChars = e.canonicalChars := by
  induction h with
  | null => rfl
  | bool b => rfl
  | int n => rfl
  | str s => rfl
  | @arr ds es hlength _ ih =>
    cases hd with
    | arr hd =>
      cases he with
      | arr he =>
        have hitems : List.Forall₂ Eq (ds.map canonicalChars) (es.map canonicalChars) := by
          rw [List.forall₂_map_left_iff, List.forall₂_map_right_iff, List.forall₂_iff_zip]
          refine ⟨hlength, fun {d e} hp => ?_⟩
          obtain ⟨hmem, hmem'⟩ := List.of_mem_zip hp
          exact ih (d, e) hp (hd d hmem) (he e hmem')
        rw [List.forall₂_eq_eq_eq] at hitems
        rw [canonicalChars_arr, canonicalChars_arr, hitems]
  | @obj ms ns hkeys _ ih =>
    cases hd with
    | obj hms hd =>
      cases he with
      | obj hns he =>
        have hperm := map_values_perm hms hns hkeys fun m hm n hn hkey =>
          ih m hm n hn hkey (hd m hm) (he n hn)
        have hnodup : ((ms.map fun m => (m.1, m.2.canonicalChars)).map Prod.fst).Nodup := by
          rwa [List.map_map]
        rw [canonicalChars, canonicalChars, canonicalMembers_eq_map, canonicalMembers_eq_map,
          sortByKey_eq_of_perm hnodup hperm]

/-! ## Strings -/

theorem charOf_toNat (c : Char) : charOf c.toNat = c := by
  have hvalid : c.toNat.isValidChar := c.valid
  rw [charOf, if_pos hvalid, Char.ofNat_toNat]

/-- Four digits read as the UTF-16 unit that they write. -/
theorem readUnit_padded {n : Nat} (hn : n < 0x10000) (r : List Char) :
    readUnit (Digits.padded 16 4 n ++ r) = some (n, r) := by
  have hread : Digits.ofDigits 16 (Digits.fixed 16 4 n) = some (n % 0x10000) :=
    Digits.ofDigits_fixed (by decide) (Nat.le_refl 16) 4 n
  rw [Nat.mod_eq_of_lt hn] at hread
  rw [Digits.padded_eq_fixed (by decide) hn]
  obtain ⟨a, b, c, d, hdigits⟩ := List.length_eq_four.1 (Digits.length_fixed 16 4 n)
  rw [hdigits] at hread ⊢
  simp [readUnit, hread]

/-- A unit that is not the first half of a pair reads as the character of its number. -/
theorem readEscapedUnits_padded {n : Nat} (hn : n < 0x10000) (hsingle : ¬(0xD800 ≤ n ∧ n < 0xDC00))
    (r : List Char) : readEscapedUnits (Digits.padded 16 4 n ++ r) = some (charOf n, r) := by
  simp [readEscapedUnits, readUnit_padded hn, hsingle]

/-- The reader undoes the writing of a character. -/
theorem readString_escapeChar (fuel : Nat) (acc : List Char) (c : Char) (r : List Char) :
    readString (fuel + 1) acc (escapeChar c ++ r) = readString fuel (c :: acc) r := by
  by_cases hshort : c ∈ ['"', '\\', '\n', '\r', '\t', '\x0c', '\x08']
  · simp only [List.mem_cons, List.not_mem_nil, or_false] at hshort
    rcases hshort with rfl | rfl | rfl | rfl | rfl | rfl | rfl <;> rfl
  · simp only [List.mem_cons, List.not_mem_nil, or_false, not_or] at hshort
    by_cases hcontrol : c.toNat < 32
    · have hunits := readEscapedUnits_padded (n := c.toNat) (by omega) (by omega) r
      rw [charOf_toNat] at hunits
      simp [escapeChar, hshort, hcontrol, readString, hunits]
    · have htext : escapeChar c = [c] := by simp [escapeChar, hshort, hcontrol]
      rw [htext, List.singleton_append, readString.eq_def]
      simp [hshort, hcontrol]

/-- A string is read to its closing quote, if the reader undoes the writing of each character. -/
theorem readString_flatMap {write : Char → List Char}
    (hwrite : ∀ fuel acc c r,
      readString (fuel + 1) acc (write c ++ r) = readString fuel (c :: acc) r)
    {fuel : Nat} (acc cs r : List Char) (h : cs.length < fuel) :
    readString fuel acc (cs.flatMap write ++ '"' :: r) =
      some (String.ofList (acc.reverse ++ cs), r) := by
  induction cs generalizing acc fuel with
  | nil =>
    obtain ⟨fuel, rfl⟩ := Nat.exists_eq_add_of_lt h
    simp [readString]
  | cons c cs ih =>
    obtain ⟨fuel, rfl⟩ := Nat.exists_eq_succ_of_ne_zero (Nat.ne_zero_of_lt h)
    rw [List.flatMap_cons, List.append_assoc, hwrite,
      ih (c :: acc) (Nat.lt_of_succ_lt_succ h), List.reverse_cons, List.append_assoc]
    rfl

theorem escape_append_inj {s t : String} (h : escape s ++ r = escape t ++ r') :
    s = t ∧ r = r' := by
  have hread (s : String) (r : List Char) {fuel : Nat} (hs : s.toList.length < fuel) :
      readString fuel [] ((escape s ++ r).drop 1) = some (s, r) := by
    have hbody := readString_flatMap readString_escapeChar [] s.toList r hs
    simpa [escape] using hbody
  have hs := hread s r (Nat.lt_succ_of_le (Nat.le_max_left _ t.toList.length))
  have ht := hread t r' (Nat.lt_succ_of_le (Nat.le_max_right s.toList.length _))
  rw [h, ht] at hs
  simpa using hs.symm

/-! ## Numbers -/

/-- What ends a value: the comma before the next one, or the end of a list or an object. -/
abbrev closing : List Char := [',', ']', '\x7d']

theorem int_append_inj {m n : Int} (hr : Stopped closing r) (hr' : Stopped closing r')
    (h : Digits.signedDecimal m ++ r = Digits.signedDecimal n ++ r') : m = n ∧ r = r' := by
  have hdigit : ∀ d < 10, Digits.digitChar d ∉ closing := by decide
  have hclean (n : Int) : ∀ c ∈ Digits.signedDecimal n, c ∉ closing := by
    intro c hc
    rcases Digits.mem_signedDecimal hc with rfl | ⟨d, hd, rfl⟩
    · decide
    · exact hdigit d hd
  obtain ⟨htext, hrest⟩ := append_inj_of_stopped (hclean m) (hclean n) hr hr' h
  exact ⟨Digits.signedDecimal_inj.1 htext, hrest⟩

/-! ## Kinds -/

/-- The kinds of values that the first character of a text tells apart. -/
inductive Kind where
  | null
  | bool
  | number
  | text
  | list
  | object
deriving DecidableEq

/-- The kind of a value. -/
def kind : Json → Kind
  | null => .null
  | bool _ => .bool
  | int _ | float _ => .number
  | str _ => .text
  | arr _ => .list
  | obj _ => .object

/-- The kind of values whose text begins with a character. -/
def kindOf? (c : Char) : Option Kind :=
  if c = 'n' then some .null
  else if c = 't' ∨ c = 'f' then some .bool
  else if c = '-' ∨ isDigit c then some .number
  else if c = '"' then some .text
  else if c = '[' then some .list
  else if c = '\x7b' then some .object
  else none

theorem exists_canonicalChars_eq_cons (hd : d.Plain) :
    ∃ c cs, d.canonicalChars = c :: cs ∧ kindOf? c = some d.kind := by
  cases hd with
  | null => exact ⟨_, _, rfl, rfl⟩
  | bool b => cases b <;> exact ⟨_, _, rfl, rfl⟩
  | int n =>
    obtain ⟨c, cs, hcons⟩ := List.exists_cons_of_ne_nil (Digits.signedDecimal_ne_nil n)
    refine ⟨c, cs, hcons, ?_⟩
    have hdigit : ∀ d < 10, kindOf? (Digits.digitChar d) = some .number := by decide
    rcases Digits.mem_signedDecimal (hcons ▸ List.mem_cons_self) with rfl | ⟨d, hd, rfl⟩
    · rfl
    · exact hdigit d hd
  | str s => exact ⟨_, _, rfl, rfl⟩
  | arr h => exact ⟨_, _, canonicalChars_arr _, rfl⟩
  | obj hkeys h => exact ⟨_, _, canonicalChars_obj _, rfl⟩

theorem kind_eq_of_append_eq (hd : d.Plain) (he : e.Plain)
    (h : d.canonicalChars ++ r = e.canonicalChars ++ r') : d.kind = e.kind := by
  obtain ⟨c, cs, hc, hkind⟩ := exists_canonicalChars_eq_cons hd
  obtain ⟨c', cs', hc', hkind'⟩ := exists_canonicalChars_eq_cons he
  rw [hc, hc'] at h
  rw [(List.cons.inj h).1, hkind'] at hkind
  exact (Option.some_inj.1 hkind).symm

/-- No value begins with what closes a list or an object. -/
theorem canonicalChars_append_ne {close : Char} (hclose : kindOf? close = none) (hd : d.Plain)
    (r r' : List Char) : d.canonicalChars ++ r ≠ close :: r' := by
  obtain ⟨c, cs, hc, hkind⟩ := exists_canonicalChars_eq_cons hd
  rw [hc]
  intro h
  rw [(List.cons.inj h).1, hclose] at hkind
  exact nomatch hkind

/-! ## Values -/

/-- A member determines its key and its value, if the value is determined. -/
theorem memberText_append_inj {m n : String × Json}
    (ih : ∀ r r', Stopped closing r → Stopped closing r' →
      m.2.canonicalChars ++ r = n.2.canonicalChars ++ r' → EqUpToOrder m.2 n.2 ∧ r = r')
    (hr : Stopped closing r) (hr' : Stopped closing r')
    (h : memberText m ++ r = memberText n ++ r') :
    (m.1 = n.1 ∧ EqUpToOrder m.2 n.2) ∧ r = r' := by
  rw [memberText, memberText, List.append_assoc, List.append_assoc] at h
  obtain ⟨hkey, hvalue⟩ := escape_append_inj h
  obtain ⟨hagree, hrest⟩ := ih r r' hr hr' (List.cons.inj hvalue).2
  exact ⟨⟨hkey, hagree⟩, hrest⟩

theorem exists_of_forall₂ {α : Type} {R : α → α → Prop} {xs ys : List α}
    (h : List.Forall₂ R xs ys) {x : α} (hx : x ∈ xs) : ∃ y ∈ ys, R x y := by
  induction h with
  | nil => exact absurd hx List.not_mem_nil
  | cons hhead _ ih =>
    rcases List.mem_cons.1 hx with rfl | hx
    · exact ⟨_, List.mem_cons_self, hhead⟩
    · obtain ⟨y, hy, hxy⟩ := ih hx
      exact ⟨y, List.mem_cons_of_mem _ hy, hxy⟩

/-- Objects are equal up to order if their sorted members agree one by one. -/
theorem EqUpToOrder.obj_of_sorted (hns : (ns.map Prod.fst).Nodup)
    (h : List.Forall₂ (fun m n => m.1 = n.1 ∧ EqUpToOrder m.2 n.2) (sortByKey ms)
      (sortByKey ns)) : EqUpToOrder (.obj ms) (.obj ns) := by
  have hkeys : (sortByKey ms).map Prod.fst = (sortByKey ns).map Prod.fst := by
    rw [← List.forall₂_eq_eq_eq, List.forall₂_map_left_iff, List.forall₂_map_right_iff]
    exact h.imp fun _ _ => And.left
  refine .obj ?_ fun m hm n hn hkey => ?_
  · refine ((sortByKey_perm ms).map Prod.fst).symm.trans ?_
    rw [hkeys]
    exact (sortByKey_perm ns).map Prod.fst
  · obtain ⟨n', hn', hkey', hagree⟩ := exists_of_forall₂ h ((sortByKey_perm ms).mem_iff.2 hm)
    have hsame : n' = n := List.inj_on_of_nodup_map hns ((sortByKey_perm ns).mem_iff.1 hn') hn
      (hkey'.symm.trans hkey)
    rwa [hsame] at hagree

/-- A value is determined up to the order of members by any text that begins with its canonical
text, where something closes it. -/
theorem canonicalChars_append_inj (hd : d.Plain) (he : e.Plain) (hr : Stopped closing r)
    (hr' : Stopped closing r') (h : d.canonicalChars ++ r = e.canonicalChars ++ r') :
    EqUpToOrder d e ∧ r = r' := by
  -- The kinds agree, so in each case `e` can only have been built in the same way.
  have hkind := kind_eq_of_append_eq hd he h
  induction hd generalizing e r r' with
  | null =>
    cases he with
    | null => exact ⟨.null, List.append_cancel_left h⟩
    | _ => cases hkind
  | bool b =>
    cases he with
    | bool b' =>
      cases b with
      | false =>
        cases b' with
        | false => exact ⟨.bool false, List.append_cancel_left h⟩
        | true => exact absurd (List.cons.inj h).1 (by decide)
      | true =>
        cases b' with
        | false => exact absurd (List.cons.inj h).1 (by decide)
        | true => exact ⟨.bool true, List.append_cancel_left h⟩
    | _ => cases hkind
  | int m =>
    cases he with
    | int n =>
      obtain ⟨rfl, hrest⟩ := int_append_inj hr hr' h
      exact ⟨.int m, hrest⟩
    | _ => cases hkind
  | str s =>
    cases he with
    | str t =>
      obtain ⟨rfl, hrest⟩ := escape_append_inj h
      exact ⟨.str s, hrest⟩
    | _ => cases hkind
  | @arr ds hds ih =>
    cases he with
    | @arr es hes =>
      have hclose : kindOf? ']' = none := by decide
      simp only [canonicalChars_arr, List.cons_append, List.append_assoc, List.nil_append,
        List.cons.injEq, true_and] at h
      obtain ⟨hitems, hrest⟩ := join_append_inj (R := EqUpToOrder) closing (by decide)
        (by decide) (by decide)
        (fun d hd r r' => canonicalChars_append_ne hclose (hds d hd) r r')
        (fun e he r r' => canonicalChars_append_ne hclose (hes e he) r r')
        (fun d hd e he r r' hr hr' h => ih d hd (hes e he) hr hr' h
          (kind_eq_of_append_eq (hds d hd) (hes e he) h)) h
      obtain ⟨hlength, hzip⟩ := List.forall₂_iff_zip.1 hitems
      exact ⟨.arr hlength fun p hp => hzip hp, hrest⟩
    | _ => cases hkind
  | @obj ms hkeys hms ih =>
    cases he with
    | @obj ns hkeys' hns =>
      have hquote (m : String × Json) (r r' : List Char) : memberText m ++ r ≠ '\x7d' :: r' :=
        fun h => absurd (List.cons.inj h).1 (by decide)
      simp only [canonicalChars_obj, List.cons_append, List.append_assoc, List.nil_append,
        List.cons.injEq, true_and] at h
      obtain ⟨hmembers, hrest⟩ := join_append_inj closing (by decide) (by decide) (by decide)
        (fun m _ => hquote m) (fun n _ => hquote n)
        (fun m hm n hn r r' hr hr' h => by
          have hm' : m ∈ ms := (sortByKey_perm ms).mem_iff.1 hm
          have hn' : n ∈ ns := (sortByKey_perm ns).mem_iff.1 hn
          exact memberText_append_inj (fun r r' hr hr' h => ih m hm' (hns n hn') hr hr' h
            (kind_eq_of_append_eq (hms m hm') (hns n hn') h)) hr hr' h) h
      exact ⟨.obj_of_sorted hkeys' hmembers, hrest⟩
    | _ => cases hkind

/-- The canonical text of a value determines it up to the order of members, and nothing else shows
in it. -/
theorem canonicalChars_eq_iff (hd : d.Plain) (he : e.Plain) :
    d.canonicalChars = e.canonicalChars ↔ EqUpToOrder d e := by
  constructor
  · intro h
    have hwhole : d.canonicalChars ++ [] = e.canonicalChars ++ [] := by rw [h]
    exact (canonicalChars_append_inj hd he (stopped_nil _) (stopped_nil _) hwhole).1
  · exact fun h => h.canonicalChars_eq hd he

theorem canonical_eq_iff (hd : d.Plain) (he : e.Plain) :
    d.canonical = e.canonical ↔ EqUpToOrder d e := by
  rw [← canonicalChars_eq_iff hd he, canonical, canonical, String.ofList_inj]

/-- **Values have the same canonical bytes if and only if they are equal once the order of object
members is ignored**, at every depth. -/
theorem ofText_canonical_eq_iff (hd : d.Plain) (he : e.Plain) :
    Bytes.ofText d.canonical = Bytes.ofText e.canonical ↔ EqUpToOrder d e := by
  rw [Bytes.ofText_inj, canonical_eq_iff hd he]

/-- Members in another order, inside a list as well, leave the bytes as they are; a text that looks
like the rest of a list does not. -/
theorem ofText_canonical_eq_iff_nested :
    let d := obj [("b", arr [obj [("y", null), ("x", bool true)]]), ("a", int (-1))]
    let e := obj [("a", int (-1)), ("b", arr [obj [("x", bool true), ("y", null)]])]
    let f := obj [("a", str "-1,\"b\":[]"), ("b", arr [])]
    d.Plain ∧ e.Plain ∧ f.Plain ∧ Bytes.ofText d.canonical = Bytes.ofText e.canonical ∧
      Bytes.ofText d.canonical ≠ Bytes.ofText f.canonical := by
  intro d e f
  have hd : d.Plain := by simp [d]
  have he : e.Plain := by simp [e]
  have hf : f.Plain := by simp [f]
  have hinner : EqUpToOrder (arr [obj [("y", null), ("x", bool true)]])
      (arr [obj [("x", bool true), ("y", null)]]) := by
    have hobj : EqUpToOrder (obj [("y", null), ("x", bool true)])
        (obj [("x", bool true), ("y", null)]) := .obj (by decide) (by simp)
    exact .arr rfl (by simpa using hobj)
  have houter : EqUpToOrder d e := .obj (by decide) (by simp [hinner])
  refine ⟨hd, he, hf, (ofText_canonical_eq_iff hd he).2 houter, ?_⟩
  rw [Ne, ofText_canonical_eq_iff hd hf]
  intro h
  have hvalue := (eqUpToOrder_obj.1 h).2 ("a", int (-1))
    (List.mem_cons_of_mem _ (List.mem_singleton_self _)) _ List.mem_cons_self rfl
  exact nomatch hvalue

end WordRing.Json
