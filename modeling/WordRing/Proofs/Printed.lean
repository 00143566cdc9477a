import WordRing.Proofs.Indented

/-!
# Indented JSON is printed as it stands

Strings escape the characters before the space, and numbers are written with digits, signs and a
point. So line breaks are the only characters before the space in an indented text: without an
escape it has no styling to lose on its way to a file.
-/
namespace WordRing.Json
variable {d : Json} {text : String → List Char}

/-- A character from the space on. -/
abbrev IsPrinted (c : Char) : Prop := 32 ≤ c.toNat

theorem isPrinted_of_mem_fixed {base count n : Nat} (hpos : 0 < base) (hle : base ≤ 16) :
    ∀ c ∈ Digits.fixed base count n, IsPrinted c := by
  intro c hc
  obtain ⟨d, hd, rfl⟩ := Digits.mem_fixed hpos hc
  have all : ∀ d < 16, IsPrinted (Digits.digitChar d) := by decide
  exact all d (by omega)

/-! ## Strings -/

theorem isPrinted_of_mem_escapeChar (c : Char) : ∀ x ∈ escapeChar c, IsPrinted x := by
  by_cases hshort : c ∈ ['"', '\\', '\n', '\r', '\t', '\x0c', '\x08']
  · simp only [List.mem_cons, List.not_mem_nil, or_false] at hshort
    rcases hshort with rfl | rfl | rfl | rfl | rfl | rfl | rfl <;> simp [escapeChar]
  · simp only [List.mem_cons, List.not_mem_nil, or_false, not_or] at hshort
    by_cases hcontrol : c.toNat < 32
    · have hdigits : ∀ x ∈ Digits.padded 16 4 c.toNat, IsPrinted x :=
        isPrinted_of_mem_fixed (by decide) (by decide)
      simpa [escapeChar, hshort, hcontrol] using hdigits
    · simpa [escapeChar, hshort, hcontrol] using Nat.not_lt.1 hcontrol

theorem isPrinted_of_mem_escapeCharAscii (c : Char) : ∀ x ∈ escapeCharAscii c, IsPrinted x := by
  have hunit (unit : Nat) : ∀ x ∈ unitEscape unit, IsPrinted x := by
    have hdigits : ∀ x ∈ Digits.padded 16 4 unit, IsPrinted x :=
      isPrinted_of_mem_fixed (by decide) (by decide)
    simpa [unitEscape] using hdigits
  rw [escapeCharAscii]
  split
  · exact isPrinted_of_mem_escapeChar c
  · split
    · exact hunit _
    · exact List.forall_mem_append.2 ⟨hunit _, hunit _⟩

theorem isPrinted_of_mem_flatMap {write : Char → List Char}
    (hwrite : ∀ c, ∀ x ∈ write c, IsPrinted x) (s : String) :
    ∀ x ∈ '"' :: (s.toList.flatMap write ++ ['"']), IsPrinted x := by
  intro x hx
  simp only [List.mem_cons, List.mem_append, List.not_mem_nil, or_false, List.mem_flatMap] at hx
  rcases hx with rfl | ⟨c, -, hx⟩ | rfl
  · decide
  · exact hwrite c x hx
  · decide

/-! ## Words and numbers -/

theorem isPrinted_of_mem_place {digits : List Char} {point : Int}
    (h : ∀ c ∈ digits, IsPrinted c) : ∀ c ∈ Shortest.place digits point, IsPrinted c := by
  have hzeros (n : Nat) : ∀ c ∈ List.replicate n '0', IsPrinted c :=
    List.forall_mem_replicate.2 (.inr (by decide))
  rw [Shortest.place.eq_def]
  split
  · split
    · simp only [List.forall_mem_cons, List.forall_mem_append]
      exact ⟨by decide, by decide, hzeros _, h⟩
    · simp only [List.forall_mem_cons, List.forall_mem_append]
      refine ⟨⟨fun c hc => h c (List.mem_of_mem_take hc), hzeros _⟩, by decide, ?_⟩
      split
      · simp
      · exact fun c hc => h c (List.mem_of_mem_drop hc)
  · have hexponent : ∀ c ∈ Digits.padded 10 2 (point - 1).natAbs, IsPrinted c :=
      isPrinted_of_mem_fixed (by decide) (by decide)
    simp only [List.forall_mem_cons, List.forall_mem_append]
    refine ⟨?_, by decide, by split <;> decide, hexponent⟩
    split
    · simp only [List.forall_mem_cons] at h ⊢
      exact ⟨h.1, by decide, h.2⟩
    · exact h

theorem isPrinted_of_mem_signed {negative : Bool} {cs : List Char} (h : ∀ c ∈ cs, IsPrinted c) :
    ∀ c ∈ Shortest.signed negative cs, IsPrinted c := by
  cases negative with
  | true => exact List.forall_mem_cons.2 ⟨by decide, h⟩
  | false => exact h

theorem isPrinted_of_mem_text (d : Shortest.Decimal) : ∀ c ∈ d.text, IsPrinted c := by
  refine isPrinted_of_mem_place fun c hc => ?_
  obtain ⟨zeros, hzeros⟩ := exists_eq_dropZeros_append (Digits.decimal d.digits)
  have hmem : c ∈ Digits.decimal d.digits := hzeros ▸ List.mem_append_left _ hc
  exact isPrinted_of_mem_fixed (by decide) (by decide) c hmem

theorem isPrinted_of_mem_floatText (x : Binary64) : ∀ c ∈ floatText x, IsPrinted c := by
  cases x with
  | nan => simp [floatText]
  | infinite negative => exact isPrinted_of_mem_signed (by simp)
  | finite negative rank =>
    refine isPrinted_of_mem_signed ?_
    split
    · simp
    · exact isPrinted_of_mem_text _

theorem isPrinted_of_mem_scalarText (hd : ∀ s, d ≠ str s) : ∀ c ∈ scalarText d, IsPrinted c := by
  cases d with
  | null => simp [scalarText]
  | bool b => cases b <;> simp [scalarText]
  | int n =>
    rw [scalarText, signedDecimal_eq_signed]
    exact isPrinted_of_mem_signed (isPrinted_of_mem_fixed (by decide) (by decide))
  | float x => exact isPrinted_of_mem_floatText x
  | str s => exact absurd rfl (hd s)
  | arr ds => exact List.forall_mem_nil _
  | obj ms => exact List.forall_mem_nil _

/-! ## Layouts -/

/-- A character of an indented text. -/
abbrev IsLaidOut (c : Char) : Prop := c = '\n' ∨ IsPrinted c

theorem isLaidOut_of_mem_lineBreak {level : Nat} : ∀ c ∈ lineBreak level, IsLaidOut c :=
  List.forall_mem_cons.2 ⟨.inl rfl, List.forall_mem_replicate.2 (.inr (by decide))⟩

theorem isLaidOut_of_mem_block {left right : Char} {level : Nat} {lines : List (List Char)}
    (hleft : IsPrinted left) (hright : IsPrinted right)
    (hlines : ∀ line ∈ lines, ∀ c ∈ line, IsLaidOut c) :
    ∀ c ∈ block left right level lines, IsLaidOut c := by
  have hjoin : ∀ c ∈ Text.join (',' :: lineBreak (level + 1)) lines, IsLaidOut c := by
    intro c hc
    rcases Text.mem_join hc with hc | ⟨line, hline, hc⟩
    · rcases List.mem_cons.1 hc with rfl | hc
      · decide
      · exact isLaidOut_of_mem_lineBreak c hc
    · exact hlines line hline c hc
  rw [block]
  split
  · simp only [List.forall_mem_cons]
    exact ⟨.inr hleft, .inr hright, List.forall_mem_nil _⟩
  · simp only [List.forall_mem_cons, List.forall_mem_append]
    exact ⟨.inr hleft, ⟨⟨isLaidOut_of_mem_lineBreak, hjoin⟩, isLaidOut_of_mem_lineBreak⟩,
      .inr hright, List.forall_mem_nil _⟩

/-- The only characters before the space in an indented text are line breaks. -/
theorem isLaidOut_of_mem_layout (htext : ∀ s, ∀ c ∈ text s, IsPrinted c) (hd : d.KeysDistinct)
    (level : Nat) : ∀ c ∈ layout text level d, IsLaidOut c := by
  have hscalar (d : Json) (hd : ∀ s, d ≠ str s) : ∀ c ∈ scalarText d, IsLaidOut c :=
    fun c hc => .inr (isPrinted_of_mem_scalarText hd c hc)
  induction hd generalizing level with
  | null => exact hscalar null fun _ => nofun
  | bool b => exact hscalar (bool b) fun _ => nofun
  | int n => exact hscalar (int n) fun _ => nofun
  | float x => exact hscalar (float x) fun _ => nofun
  | str s => exact fun c hc => .inr (htext s c hc)
  | @arr ds _ ih =>
    rw [layout, layoutItems_eq_map]
    refine isLaidOut_of_mem_block (by decide) (by decide) fun line hline => ?_
    obtain ⟨d, hd, rfl⟩ := List.mem_map.1 hline
    exact ih d hd (level + 1)
  | @obj ms _ _ ih =>
    rw [layout, layoutMembers_eq_map]
    refine isLaidOut_of_mem_block (by decide) (by decide) fun line hline => ?_
    obtain ⟨m, hm, rfl⟩ := List.mem_map.1 hline
    rw [memberLine, List.forall_mem_append, List.forall_mem_cons, List.forall_mem_cons]
    exact ⟨fun c hc => .inr (htext m.1 c hc), by decide, by decide, ih m hm (level + 1)⟩

/-! ## Printing -/

/-- An indented text has no styling to lose. -/
theorem strip_ofList_layout (htext : ∀ s, ∀ c ∈ text s, IsPrinted c) (hd : d.KeysDistinct) :
    Styling.strip (String.ofList (layout text 0 d)) = String.ofList (layout text 0 d) := by
  refine Text.strip_eq_self fun hescape => ?_
  rw [String.toList_ofList] at hescape
  exact absurd (isLaidOut_of_mem_layout htext hd 0 _ hescape) (by decide)

end WordRing.Json
