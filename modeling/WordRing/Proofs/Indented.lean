import Mathlib.Data.List.DropRight
import WordRing.Json.Indented
import WordRing.Proofs.Json
import WordRing.Proofs.Number

/-!
# Indented JSON is read back

The reader finds in an indented text the value that was laid out, floats among it, if no object in
it has a key twice. What is laid out at any level is found at the front of a text where a value can
end; lists and objects are found item by item, with fuel for two steps for each character.

## Main definitions

* `Json.KeysDistinct d` — no object in `d` has a key twice.
* `Json.Readable text` — strings that `text` writes are found again by the reader.
-/
namespace WordRing.Json
open Text

/-- Values whose objects have each key once. -/
inductive KeysDistinct : Json → Prop where
  | null : KeysDistinct null
  | bool (b : Bool) : KeysDistinct (bool b)
  | int (n : Int) : KeysDistinct (int n)
  | float (x : Binary64) : KeysDistinct (float x)
  | str (s : String) : KeysDistinct (str s)
  | arr {ds : List Json} (h : ∀ d ∈ ds, KeysDistinct d) : KeysDistinct (arr ds)
  | obj {ms : List (String × Json)} (hkeys : (ms.map Prod.fst).Nodup)
    (h : ∀ m ∈ ms, KeysDistinct m.2) : KeysDistinct (obj ms)

attribute [simp] KeysDistinct.null KeysDistinct.bool KeysDistinct.int KeysDistinct.float
  KeysDistinct.str

@[simp] theorem keysDistinct_nat (n : Nat) : KeysDistinct (nat n) := .int n

@[simp] theorem keysDistinct_arr {ds : List Json} :
    KeysDistinct (arr ds) ↔ ∀ d ∈ ds, d.KeysDistinct :=
  ⟨fun | .arr h => h, .arr⟩

@[simp] theorem keysDistinct_obj {ms : List (String × Json)} :
    KeysDistinct (obj ms) ↔ (ms.map Prod.fst).Nodup ∧ ∀ m ∈ ms, m.2.KeysDistinct :=
  ⟨fun | .obj hkeys h => ⟨hkeys, h⟩, fun h => .obj h.1 h.2⟩

@[simp] theorem keysDistinct_strs (texts : List String) : KeysDistinct (strs texts) := by
  simp [strs]

variable {d : Json} {ds : List Json} {ms : List (String × Json)} {text : String → List Char}
  {cs r : List Char} {fuel level : Nat}

/-! ## Members -/

theorem insertMember_of_notMem {key : String} (value : Json) (h : key ∉ ms.map Prod.fst) :
    insertMember key value ms = ms ++ [(key, value)] := by
  induction ms with
  | nil => rfl
  | cons m ms ih =>
    rw [List.map_cons, List.mem_cons, not_or] at h
    rw [insertMember, if_neg (Ne.symm h.1), ih h.2, List.cons_append]

/-- Members without a repeated key stay as they are. -/
theorem mergeMembers_eq_self (h : (ms.map Prod.fst).Nodup) : mergeMembers ms = ms := by
  have hfold (acc rest : List (String × Json)) (h : ((acc ++ rest).map Prod.fst).Nodup) :
      rest.foldl (fun acc m => insertMember m.1 m.2 acc) acc = acc ++ rest := by
    induction rest generalizing acc with
    | nil => exact (List.append_nil acc).symm
    | cons m rest ih =>
      have hnew : m.1 ∉ acc.map Prod.fst := by
        rw [List.map_append, List.map_cons] at h
        exact fun hmem => List.disjoint_of_nodup_append h hmem List.mem_cons_self
      rw [List.foldl_cons, insertMember_of_notMem _ hnew, ih _ (by simpa using h),
        List.append_assoc]
      rfl
  exact hfold [] ms h

/-! ## Blanks -/

@[simp] theorem skipBlanks_cons_of_notMem {c : Char} (hc : c ∉ [' ', '\t', '\n', '\r'])
    (cs : List Char) : skipBlanks (c :: cs) = c :: cs := by
  simp only [List.mem_cons, List.not_mem_nil, or_false, not_or] at hc
  simp [skipBlanks, hc]

@[simp] theorem skipBlanks_lineBreak (level : Nat) (cs : List Char) :
    skipBlanks (lineBreak level ++ cs) = skipBlanks cs := by
  refine List.dropWhile_append_of_pos fun c hc => ?_
  rcases List.mem_cons.1 hc with rfl | hc
  · rfl
  · rw [List.eq_of_mem_replicate hc]
    rfl

theorem skipBlanks_skipBlanks (cs : List Char) : skipBlanks (skipBlanks cs) = skipBlanks cs :=
  List.dropWhile_idempotent _ _

/-- Blanks before a value do not matter. -/
theorem readValue_skipBlanks (fuel : Nat) (cs : List Char) :
    readValue fuel (skipBlanks cs) = readValue fuel cs := by
  cases fuel with
  | zero => rw [readValue, readValue]
  | succ fuel => rw [readValue, readValue, skipBlanks_skipBlanks]

theorem readItems_skipBlanks (fuel : Nat) (cs : List Char) :
    readItems fuel (skipBlanks cs) = readItems fuel cs := by
  cases fuel with
  | zero => rw [readItems, readItems]
  | succ fuel => rw [readItems, readItems, readValue_skipBlanks]

theorem readMembers_skipBlanks (fuel : Nat) (cs : List Char) :
    readMembers fuel (skipBlanks cs) = readMembers fuel cs := by
  cases fuel with
  | zero => rw [readMembers, readMembers]
  | succ fuel => rw [readMembers, readMembers, skipBlanks_skipBlanks]

theorem readItems_lineBreak (fuel level : Nat) (cs : List Char) :
    readItems fuel (lineBreak level ++ cs) = readItems fuel cs := by
  rw [← readItems_skipBlanks, skipBlanks_lineBreak, readItems_skipBlanks]

theorem readMembers_lineBreak (fuel level : Nat) (cs : List Char) :
    readMembers fuel (lineBreak level ++ cs) = readMembers fuel cs := by
  rw [← readMembers_skipBlanks, skipBlanks_lineBreak, readMembers_skipBlanks]

/-! ## Words and numbers -/

/-- A word or a number begins with no blank, no quote and no bracket. -/
theorem exists_cons_of_readScalar {p : Json × List Char} (h : readScalar cs = some p) :
    ∃ c rest, cs = c :: rest ∧
      c ∉ [' ', '\t', '\n', '\r', '"', '[', '\x7b', ']', '\x7d'] := by
  cases cs with
  | nil => simp [readScalar, afterWord, readUnsigned, readWhole] at h
  | cons c cs =>
    refine ⟨c, cs, rfl, fun hc => ?_⟩
    simp only [List.mem_cons, List.not_mem_nil, or_false] at hc
    rcases hc with rfl | rfl | rfl | rfl | rfl | rfl | rfl | rfl | rfl <;>
      simp [readScalar, afterWord, readUnsigned, readWhole, isDigit] at h

theorem readValue_of_readScalar {p : Json × List Char} (h : readScalar cs = some p) :
    readValue (fuel + 1) cs = some p := by
  obtain ⟨c, cs, rfl, hc⟩ := exists_cons_of_readScalar h
  have hskip : skipBlanks (c :: cs) = c :: cs :=
    skipBlanks_cons_of_notMem (fun h => hc (List.mem_append_left _ h)) cs
  rw [readValue, hskip]
  split
  case h_4 => exact h
  all_goals
    next heq =>
    obtain ⟨rfl, -⟩ := List.cons.inj heq
    simp at hc

/-! ## Lists and objects -/

theorem readItems_of_close (fuel : Nat) (cs : List Char) : readItems fuel (']' :: cs) = none := by
  cases fuel with
  | zero => rw [readItems]
  | succ fuel =>
    rw [readItems]
    cases fuel <;> rfl

theorem readMembers_of_close (fuel : Nat) (cs : List Char) :
    readMembers fuel ('\x7d' :: cs) = none := by
  cases fuel <;> rfl

/-- What holds items is a list, as no item begins with a closing bracket. -/
theorem readValue_of_readItems (h : readItems fuel cs = some (ds, r)) :
    readValue (fuel + 1) ('[' :: cs) = some (arr ds, r) := by
  rw [← readItems_skipBlanks] at h
  rw [readValue, skipBlanks_cons_of_notMem (by decide)]
  simp only
  split
  next heq =>
    rw [heq, readItems_of_close] at h
    exact nomatch h
  next => rw [h]; rfl

/-- What holds members is an object, as no key begins with a closing brace. -/
theorem readValue_of_readMembers (h : readMembers fuel cs = some (ms, r)) :
    readValue (fuel + 1) ('\x7b' :: cs) = some (obj (mergeMembers ms), r) := by
  rw [← readMembers_skipBlanks] at h
  rw [readValue, skipBlanks_cons_of_notMem (by decide)]
  simp only
  split
  next heq =>
    rw [heq, readMembers_of_close] at h
    exact nomatch h
  next => rw [h]; rfl

/-- What `write` writes for a value is found where the value can end, with two steps of fuel for
each character. -/
def ReadsBack (write : Json → List Char) (d : Json) : Prop :=
  ∀ fuel r, 2 * (write d).length ≤ fuel → Stopped follow r →
    readValue fuel (write d ++ r) = some (d, r)

/-- Items on lines of their own are read back, if each is. -/
theorem readItems_join {write : Json → List Char} (fuel level outer : Nat) (hne : ds ≠ [])
    (hds : ∀ d ∈ ds, ReadsBack write d)
    (hfuel : 2 * (join (',' :: lineBreak level) (ds.map write)).length < fuel) :
    readItems fuel (join (',' :: lineBreak level) (ds.map write) ++ (lineBreak outer ++ ']' :: r)) =
      some (ds, r) := by
  induction ds generalizing fuel with
  | nil => exact absurd rfl hne
  | cons d ds ih =>
    obtain ⟨fuel, rfl⟩ := Nat.exists_eq_succ_of_ne_zero (Nat.ne_zero_of_lt hfuel)
    have hd := hds d List.mem_cons_self
    cases ds with
    | nil =>
      have hstop : Stopped follow (lineBreak outer ++ ']' :: r) := by simp [lineBreak]
      rw [List.map_singleton, join_singleton] at hfuel ⊢
      rw [readItems, hd _ _ (by omega) hstop]
      simp
    | cons e es =>
      rw [List.map_cons, List.map_cons, join_cons_cons, ← List.map_cons] at hfuel ⊢
      rw [List.length_append, List.length_append, List.length_cons] at hfuel
      have hrest := ih fuel (List.cons_ne_nil e es)
        (fun d hd => hds d (List.mem_cons_of_mem _ hd)) (by omega)
      rw [List.map_cons] at hrest
      rw [List.append_assoc, List.append_assoc, readItems, hd _ _ (by omega) (by simp)]
      simp [readItems_lineBreak, hrest]

/-- Strings that `text` writes are found again by the reader. -/
def Readable (text : String → List Char) : Prop :=
  ∀ s, ∃ body, text s = '"' :: body ∧
    ∀ fuel r, body.length ≤ fuel → readString fuel [] (body ++ r) = some (s, r)

/-- A member on a line. -/
def memberLine (text : String → List Char) (write : Json → List Char) (m : String × Json) :
    List Char :=
  text m.1 ++ ':' :: ' ' :: write m.2

/-- What a key and the value behind it leave is what a comma or a closing brace begins. -/
theorem readMembers_memberLine {write : Json → List Char} {m : String × Json}
    (htext : Readable text) (hm : ReadsBack write m.2)
    (hfuel : 2 * (memberLine text write m).length ≤ fuel) (hr : Stopped follow r) :
    readMembers (fuel + 1) (memberLine text write m ++ r) =
      match skipBlanks r with
      | '\x7d' :: rest => some ([m], rest)
      | ',' :: rest => do
        let (members, rest) ← readMembers fuel rest
        return (m :: members, rest)
      | _ => none := by
  obtain ⟨body, hbody, hread⟩ := htext m.1
  rw [memberLine, hbody, List.cons_append, List.length_cons, List.length_append, List.length_cons,
    List.length_cons] at hfuel
  have hline : memberLine text write m ++ r = '"' :: (body ++ ':' :: ' ' :: (write m.2 ++ r)) := by
    simp [memberLine, hbody]
  have hblank : skipBlanks (' ' :: (write m.2 ++ r)) = skipBlanks (write m.2 ++ r) := rfl
  have hvalue : readValue fuel (' ' :: (write m.2 ++ r)) = some (m.2, r) := by
    rw [← readValue_skipBlanks, hblank, readValue_skipBlanks]
    exact hm _ _ (by omega) hr
  have hkey := hread fuel (':' :: ' ' :: (write m.2 ++ r)) (by omega)
  rw [hline, readMembers, skipBlanks_cons_of_notMem (by decide)]
  simp only [hkey, Option.bind_eq_bind, Option.bind_some,
    skipBlanks_cons_of_notMem (show ':' ∉ _ by decide), hvalue]
  rfl

/-- Members on lines of their own are read back, if the value of each is. -/
theorem readMembers_join {write : Json → List Char} (fuel level outer : Nat)
    (htext : Readable text) (hne : ms ≠ []) (hms : ∀ m ∈ ms, ReadsBack write m.2)
    (hfuel : 2 * (join (',' :: lineBreak level) (ms.map (memberLine text write))).length < fuel) :
    readMembers fuel (join (',' :: lineBreak level) (ms.map (memberLine text write)) ++
      (lineBreak outer ++ '\x7d' :: r)) = some (ms, r) := by
  induction ms generalizing fuel with
  | nil => exact absurd rfl hne
  | cons m ms ih =>
    obtain ⟨fuel, rfl⟩ := Nat.exists_eq_succ_of_ne_zero (Nat.ne_zero_of_lt hfuel)
    have hm := hms m List.mem_cons_self
    cases ms with
    | nil =>
      have hstop : Stopped follow (lineBreak outer ++ '\x7d' :: r) := by simp [lineBreak]
      rw [List.map_singleton, join_singleton] at hfuel ⊢
      rw [readMembers_memberLine htext hm (by omega) hstop]
      simp
    | cons n ns =>
      rw [List.map_cons, List.map_cons, join_cons_cons, ← List.map_cons] at hfuel ⊢
      rw [List.length_append, List.length_append, List.length_cons] at hfuel
      have hrest := ih fuel (List.cons_ne_nil n ns)
        (fun m hm => hms m (List.mem_cons_of_mem _ hm)) (by omega)
      rw [List.map_cons] at hrest
      rw [List.append_assoc, List.append_assoc,
        readMembers_memberLine htext hm (by omega) (by simp)]
      simp [readMembers_lineBreak, hrest]

/-! ## Blocks -/

theorem block_append {lines : List (List Char)} (left right : Char) (level : Nat) (h : lines ≠ [])
    (r : List Char) : block left right level lines ++ r =
      left :: (lineBreak (level + 1) ++ (join (',' :: lineBreak (level + 1)) lines ++
        (lineBreak level ++ right :: r))) := by
  rw [block, if_neg (mt List.isEmpty_iff.1 h)]
  simp

theorem length_join_lt_length_block (left right : Char) (level : Nat) (lines : List (List Char)) :
    (join (',' :: lineBreak (level + 1)) lines).length + 1 <
      (block left right level lines).length := by
  cases lines with
  | nil => simp [block]
  | cons line lines =>
    have hblock := block_append left right level (List.cons_ne_nil line lines) []
    rw [List.append_nil] at hblock
    rw [hblock]
    simp only [List.length_cons, List.length_append]
    omega

theorem readValue_list {write : Json → List Char} (hds : ∀ d ∈ ds, ReadsBack write d)
    (hfuel : 2 * (block '[' ']' level (ds.map write)).length ≤ fuel) :
    readValue fuel (block '[' ']' level (ds.map write) ++ r) = some (arr ds, r) := by
  have hlength := length_join_lt_length_block '[' ']' level (ds.map write)
  obtain ⟨fuel, rfl⟩ := Nat.exists_eq_succ_of_ne_zero (show fuel ≠ 0 by omega)
  rcases eq_or_ne ds [] with rfl | hne
  · rfl
  · have hitems := readItems_join (r := r) fuel (level + 1) level hne hds (by omega)
    rw [← readItems_lineBreak fuel (level + 1)] at hitems
    rw [block_append '[' ']' level (mt List.map_eq_nil_iff.1 hne)]
    exact readValue_of_readItems hitems

theorem readValue_object {write : Json → List Char} (htext : Readable text)
    (hkeys : (ms.map Prod.fst).Nodup) (hms : ∀ m ∈ ms, ReadsBack write m.2)
    (hfuel : 2 * (block '\x7b' '\x7d' level (ms.map (memberLine text write))).length ≤ fuel) :
    readValue fuel (block '\x7b' '\x7d' level (ms.map (memberLine text write)) ++ r) =
      some (obj ms, r) := by
  have hlength := length_join_lt_length_block '\x7b' '\x7d' level (ms.map (memberLine text write))
  obtain ⟨fuel, rfl⟩ := Nat.exists_eq_succ_of_ne_zero (show fuel ≠ 0 by omega)
  rcases eq_or_ne ms [] with rfl | hne
  · rfl
  · have hmembers := readMembers_join (r := r) fuel (level + 1) level htext hne hms (by omega)
    rw [← readMembers_lineBreak fuel (level + 1)] at hmembers
    rw [block_append '\x7b' '\x7d' level (mt List.map_eq_nil_iff.1 hne)]
    have hvalue := readValue_of_readMembers hmembers
    rwa [mergeMembers_eq_self hkeys] at hvalue

/-! ## Values -/

theorem layoutItems_eq_map (text : String → List Char) (level : Nat) (ds : List Json) :
    layoutItems text level ds = ds.map (layout text level) := by
  induction ds with
  | nil => rw [layoutItems, List.map_nil]
  | cons d ds ih => rw [layoutItems, ih, List.map_cons]

theorem layoutMembers_eq_map (text : String → List Char) (level : Nat)
    (ms : List (String × Json)) :
    layoutMembers text level ms = ms.map (memberLine text (layout text level)) := by
  induction ms with
  | nil => rw [layoutMembers, List.map_nil]
  | cons m ms ih => rw [layoutMembers, ih, List.map_cons, memberLine]

/-- A value that the reader of words and numbers finds is read back. -/
theorem readsBack_of_readScalar {write : Json → List Char}
    (h : ∀ r, Stopped follow r → readScalar (write d ++ r) = some (d, r)) :
    ReadsBack write d := by
  intro fuel r hfuel hr
  have hne : write d ≠ [] := by
    intro hnil
    obtain ⟨c, cs, hcons, -⟩ := exists_cons_of_readScalar (h [] (stopped_nil _))
    rw [hnil] at hcons
    exact nomatch hcons
  have hlength := List.length_pos_of_ne_nil hne
  obtain ⟨fuel, rfl⟩ := Nat.exists_eq_succ_of_ne_zero (show fuel ≠ 0 by omega)
  exact readValue_of_readScalar (h r hr)

/-- **A value that is laid out at a level is read back.** -/
theorem readsBack_layout (htext : Readable text) (hd : d.KeysDistinct) (level : Nat) :
    ReadsBack (layout text level) d := by
  induction hd generalizing level with
  | null => exact readsBack_of_readScalar fun r _ => readScalar_null r
  | bool b => exact readsBack_of_readScalar fun r _ => readScalar_bool b r
  | int n => exact readsBack_of_readScalar fun r hr => readScalar_int n hr
  | float x => exact readsBack_of_readScalar fun r hr => readScalar_float x hr
  | str s =>
    intro fuel r hfuel _
    obtain ⟨body, hbody, hread⟩ := htext s
    rw [layout, hbody] at hfuel ⊢
    rw [List.length_cons] at hfuel
    obtain ⟨fuel, rfl⟩ := Nat.exists_eq_succ_of_ne_zero (show fuel ≠ 0 by omega)
    rw [List.cons_append, readValue, skipBlanks_cons_of_notMem (by decide)]
    simp [hread fuel r (by omega)]
  | arr _ ih =>
    intro fuel r hfuel _
    rw [layout, layoutItems_eq_map] at hfuel ⊢
    exact readValue_list (fun d hd => ih d hd (level + 1)) hfuel
  | obj hkeys _ ih =>
    intro fuel r hfuel _
    rw [layout, layoutMembers_eq_map] at hfuel ⊢
    exact readValue_object htext hkeys (fun m hm => ih m hm (level + 1)) hfuel

/-- **A text that is laid out is read as the value**, also where blanks follow. -/
theorem parse?_layout (htext : Readable text) (hd : d.KeysDistinct) (hr : Stopped follow r)
    (hblank : skipBlanks r = []) : parse? (String.ofList (layout text 0 d ++ r)) = some d := by
  have hread := readsBack_layout htext hd 0 (2 * (layout text 0 d ++ r).length + 2) r
    (by rw [List.length_append]; omega) hr
  rw [parse?, String.toList_ofList]
  simp only [hread, Option.bind_eq_bind, Option.bind_some, hblank, List.isEmpty_nil, if_true]

/-! ## Writings of strings -/

/-- A writing of strings is readable if the reader undoes it character by character. -/
theorem readable_of_readString {write : Char → List Char}
    (hwrite : ∀ fuel acc c r,
      readString (fuel + 1) acc (write c ++ r) = readString fuel (c :: acc) r) :
    Readable fun s => '"' :: (s.toList.flatMap write ++ ['"']) := by
  have hne (c : Char) : write c ≠ [] := by
    intro hnil
    have hquote := hwrite 0 [] c ['"']
    rw [hnil] at hquote
    simp [readString] at hquote
  have hlength (cs : List Char) : cs.length ≤ (cs.flatMap write).length := by
    induction cs with
    | nil => exact Nat.le_refl 0
    | cons c cs ih =>
      have hpos := List.length_pos_of_ne_nil (hne c)
      rw [List.flatMap_cons, List.length_append, List.length_cons]
      omega
  intro s
  refine ⟨_, rfl, fun fuel r hfuel => ?_⟩
  rw [List.length_append, List.length_singleton] at hfuel
  have hbody := readString_flatMap hwrite [] s.toList r
    (Nat.lt_of_le_of_lt (hlength s.toList) hfuel)
  simpa using hbody

theorem readable_escape : Readable escape := readable_of_readString readString_escapeChar

theorem unitEscape_append (unit : Nat) (cs : List Char) :
    unitEscape unit ++ cs = '\\' :: 'u' :: (Digits.padded 16 4 unit ++ cs) := rfl

/-- The two halves of a pair read as one character. -/
theorem readEscapedUnits_pair (high low : Nat) (hhigh : 0xD800 ≤ high ∧ high < 0xDC00)
    (hlow : 0xDC00 ≤ low ∧ low < 0xE000) (r : List Char) :
    readEscapedUnits (Digits.padded 16 4 high ++ (unitEscape low ++ r)) =
      some (charOf (0x10000 + (high - 0xD800) * 0x400 + (low - 0xDC00)), r) := by
  have hfirst := readUnit_padded (n := high) (by omega) (unitEscape low ++ r)
  have hsecond := readUnit_padded (n := low) (by omega) r
  rw [unitEscape_append] at hfirst ⊢
  simp [readEscapedUnits, hfirst, hhigh, hsecond, hlow]

theorem readString_escapeCharAscii (fuel : Nat) (acc : List Char) (c : Char) (r : List Char) :
    readString (fuel + 1) acc (escapeCharAscii c ++ r) = readString fuel (c :: acc) r := by
  have hescape {cs : List Char} (h : readEscapedUnits cs = some (c, r)) :
      readString (fuel + 1) acc ('\\' :: 'u' :: cs) = readString fuel (c :: acc) r := by
    rw [readString, h]
    rfl
  have hvalid : c.toNat < 0xD800 ∨ 0xDFFF < c.toNat ∧ c.toNat < 0x110000 := c.valid
  rw [escapeCharAscii]
  split
  · exact readString_escapeChar fuel acc c r
  · split
    next hone =>
      have hunit := readEscapedUnits_padded hone (by omega) r
      rw [charOf_toNat] at hunit
      rw [unitEscape_append, hescape hunit]
    next htwo =>
      have hpair := readEscapedUnits_pair (0xD800 + (c.toNat - 0x10000) / 0x400)
        (0xDC00 + (c.toNat - 0x10000) % 0x400) (by omega) (by omega) r
      have hvalue : 0x10000 + (0xD800 + (c.toNat - 0x10000) / 0x400 - 0xD800) * 0x400 +
          (0xDC00 + (c.toNat - 0x10000) % 0x400 - 0xDC00) = c.toNat := by omega
      rw [hvalue, charOf_toNat] at hpair
      rw [List.append_assoc, unitEscape_append, hescape hpair]

theorem readable_escapeAscii : Readable escapeAscii :=
  readable_of_readString readString_escapeCharAscii

/-! ## Indented texts -/

/-- **An indented text is read as the value that it was made from.** -/
theorem parse?_indented (hd : d.KeysDistinct) : parse? d.indented = some d := by
  have hparse := parse?_layout readable_escape hd (stopped_nil _) rfl
  rwa [List.append_nil] at hparse

theorem parse?_indentedAscii (hd : d.KeysDistinct) : parse? d.indentedAscii = some d := by
  have hparse := parse?_layout readable_escapeAscii hd (stopped_nil _) rfl
  rwa [List.append_nil] at hparse

/-- An indented text determines its value, the order of members included. -/
theorem indented_inj {e : Json} (hd : d.KeysDistinct) (he : e.KeysDistinct) :
    d.indented = e.indented ↔ d = e := by
  refine ⟨fun h => ?_, congrArg indented⟩
  have hparse := parse?_indented hd
  rw [h, parse?_indented he] at hparse
  exact (Option.some.inj hparse).symm

end WordRing.Json
