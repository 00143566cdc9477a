import WordRing.Proofs.Digits
import WordRing.Proofs.Text
import WordRing.Term.Written

/-!
# Writing tells terms apart

Two terms with the same writing are the same term, whatever the two widths. A writing ends where a
comma, a closing parenthesis or nothing follows, so the statement that carries the induction is
about writings with a rest behind them: the rests agree as well. The width shows only in how far
constants are padded, so it does not show in a term all of whose constants are too long for that.
No writing holds an equals sign.

## Main definitions

* `Term.constants t` — the constants of `t`.
-/
namespace WordRing

namespace Operator

theorem name_inj {o o' : Operator} : o.name = o'.name ↔ o = o' := by
  constructor
  · intro h
    rcases o with op | op <;> rcases o' with op' | op' <;> cases op <;> cases op' <;>
      first | rfl | exact absurd h (by decide)
  · rintro rfl
    rfl

/-- A name is made of letters. -/
theorem isAlpha_of_mem_name (o : Operator) : ∀ c ∈ o.name.toList, c.isAlpha = true := by
  have hall : o.name.toList.all Char.isAlpha = true := by
    rcases o with op | op <;> cases op <;> decide
  exact List.all_eq_true.1 hall

end Operator

namespace Term
open Text
variable {width width' : Nat}

/-- What ends a written term: the comma before the next operand, or the end of the list. -/
abbrev closing : List Char := [',', ')']

/-! ## Constants and variables -/

theorem not_closing_of_mem_padded {least n : Nat} {c : Char}
    (h : c ∈ Digits.padded 16 least n) : c ∉ closing := by
  obtain ⟨d, -, rfl⟩ := Digits.mem_fixed (by decide) h
  unfold Digits.digitChar
  split <;> decide

theorem not_closing_of_mem_constText {n : Int} {c : Char} (h : c ∈ constText width n) :
    c ∉ closing := by
  cases n with
  | ofNat n =>
    simp only [constText, List.mem_cons] at h
    rcases h with rfl | rfl | h
    · decide
    · decide
    · exact not_closing_of_mem_padded h
  | negSucc n =>
    simp only [constText, List.mem_cons] at h
    rcases h with rfl | rfl | rfl | h
    · decide
    · decide
    · decide
    · exact not_closing_of_mem_padded h

/-- A written constant shows its value and how many digits it was given. -/
theorem constText_eq_iff {m n : Int} : constText width m = constText width' n ↔ m = n ∧
    max (2 * width) (Digits.count 16 m.natAbs) = max (2 * width') (Digits.count 16 n.natAbs) := by
  have digits (a b : Nat) : Digits.padded 16 (2 * width) a = Digits.padded 16 (2 * width') b ↔
      a = b ∧ max (2 * width) (Digits.count 16 a) = max (2 * width') (Digits.count 16 b) :=
    Digits.padded_eq_padded_iff (by decide) (Nat.le_refl 16)
  cases m with
  | ofNat m =>
    cases n with
    | ofNat n =>
      rw [constText, constText, List.cons.injEq, List.cons.injEq, digits, Int.ofNat.injEq]
      simp
    | negSucc n => simp [constText]
  | negSucc m =>
    cases n with
    | ofNat n => simp [constText]
    | negSucc n => simp [constText, digits]

theorem isNameChar_of_isNameRest {cs : List Char} (h : isNameRest cs = true) :
    ∀ c ∈ cs, isNameChar c = true ∨ c = '\n' := by
  fun_induction isNameRest cs with
  | case1 => simp
  | case2 =>
    intro c hc
    exact .inr (List.mem_singleton.1 hc)
  | case3 c rest _ ih =>
    rw [Bool.and_eq_true] at h
    intro d hd
    rcases List.mem_cons.1 hd with rfl | hd
    · exact .inl h.1
    · exact ih h.2 d hd

/-- A name is made of letters, digits and underscores, and a line break at its end. -/
theorem isNameChar_of_mem_name (x : VarName) :
    ∀ c ∈ x.text.toList, isNameChar c = true ∨ c = '\n' := by
  have hname := x.isName_text
  unfold isName at hname
  split at hname
  · next h => simp [h]
  · next c rest h =>
    rw [Bool.and_eq_true] at hname
    rw [h]
    intro d hd
    rcases List.mem_cons.1 hd with rfl | hd
    · have hstart := hname.1
      simp only [isNameStart, Bool.or_eq_true] at hstart
      simp only [isNameChar, Char.isAlphanum, Bool.or_eq_true]
      rcases hstart with hstart | hstart
      · exact .inl (.inl (.inl hstart))
      · exact .inl (.inr hstart)
    · exact isNameChar_of_isNameRest hname.2 d hd

theorem not_closing_of_mem_name (x : VarName) : ∀ c ∈ x.text.toList, c ∉ closing := by
  intro c hc hclosing
  have hchar : isNameChar ',' = false ∧ isNameChar ')' = false := by decide
  rcases isNameChar_of_mem_name x c hc with h | rfl
  · simp only [closing, List.mem_cons, List.not_mem_nil, or_false] at hclosing
    rcases hclosing with rfl | rfl
    · simp [hchar.1] at h
    · simp [hchar.2] at h
  · exact absurd hclosing (by decide)

/-! ## Nodes -/

theorem nodeText_append (name : String) (xs : List (List Char)) (r : List Char) :
    nodeText name xs ++ r = name.toList ++ '(' :: (join [','] xs ++ ')' :: r) := by
  simp [nodeText]

/-- A written node determines its operator and the writing of its operand list. -/
theorem nodeText_append_inj (o o' : Operator) {xs ys : List (List Char)} {r r' : List Char}
    (h : nodeText o.name xs ++ r = nodeText o'.name ys ++ r') :
    o = o' ∧ join [','] xs ++ ')' :: r = join [','] ys ++ ')' :: r' := by
  have hletters (o : Operator) : ∀ c ∈ o.name.toList, c ∉ ['('] := by
    intro c hc hparen
    have halpha := o.isAlpha_of_mem_name c hc
    rw [List.mem_singleton.1 hparen] at halpha
    exact absurd halpha (by decide)
  rw [nodeText_append, nodeText_append] at h
  obtain ⟨hname, hrest⟩ := append_inj_of_stopped (hletters o) (hletters o')
    (by simp) (by simp) h
  exact ⟨Operator.name_inj.1 (String.toList_inj.1 hname), (List.cons.inj hrest).2⟩

theorem isAlpha_head_nodeText (o : Operator) (xs : List (List Char)) :
    ∃ c rest, nodeText o.name xs = c :: rest ∧ c.isAlpha = true := by
  cases hname : o.name.toList with
  | nil => rcases o with op | op <;> cases op <;> exact absurd hname (by decide)
  | cons c rest =>
    refine ⟨c, rest ++ '(' :: (join [','] xs ++ [')']), by simp [nodeText, hname], ?_⟩
    exact o.isAlpha_of_mem_name c (by simp [hname])

theorem constText_append_ne_nodeText_append (n : Int) (o : Operator) (xs : List (List Char))
    (r r' : List Char) : constText width n ++ r ≠ nodeText o.name xs ++ r' := by
  obtain ⟨c, rest, htext, halpha⟩ := isAlpha_head_nodeText o xs
  rw [htext]
  intro h
  cases n with
  | ofNat n =>
    rw [← (List.cons.inj h).1] at halpha
    exact absurd halpha (by decide)
  | negSucc n =>
    rw [← (List.cons.inj h).1] at halpha
    exact absurd halpha (by decide)

theorem constText_append_ne_cons (n : Int) (cs r : List Char) :
    constText width n ++ r ≠ '?' :: cs := by
  cases n <;> simp [constText]

theorem cons_ne_nodeText_append (o : Operator) (xs : List (List Char)) (cs r : List Char) :
    '?' :: cs ≠ nodeText o.name xs ++ r := by
  obtain ⟨c, rest, htext, halpha⟩ := isAlpha_head_nodeText o xs
  rw [htext]
  intro h
  rw [← (List.cons.inj h).1] at halpha
  exact absurd halpha (by decide)

/-- A written term does not begin with what closes an operand list. -/
theorem text_append_ne_paren (t : Term) (r r' : List Char) : t.text width ++ r ≠ ')' :: r' := by
  have node (o : Operator) (xs : List (List Char)) : nodeText o.name xs ++ r ≠ ')' :: r' := by
    obtain ⟨c, rest, htext, halpha⟩ := isAlpha_head_nodeText o xs
    rw [htext]
    intro h
    rw [(List.cons.inj h).1] at halpha
    exact absurd halpha (by decide)
  cases t with
  | const n => cases n <;> simp [constText]
  | var x => simp
  | unary op t => exact node (.unary op) [t.text width]
  | nary op ts => rw [text_nary]; exact node (.nary op) (ts.map (text width))

/-! ## Terms -/

/-- A written term is determined by any text that begins with it, where something closes it. The
widths need not be the same. -/
theorem text_append_inj (s t : Term) {r r' : List Char} (hr : Stopped closing r)
    (hr' : Stopped closing r') (h : s.text width ++ r = t.text width' ++ r') :
    s = t ∧ r = r' := by
  induction s using induct generalizing t r r' with
  | const n =>
    cases t with
    | const m =>
      obtain ⟨htext, hrest⟩ := append_inj_of_stopped (fun c => not_closing_of_mem_constText)
        (fun c => not_closing_of_mem_constText) hr hr' h
      exact ⟨by rw [(constText_eq_iff.1 htext).1], hrest⟩
    | var x => exact absurd h (constText_append_ne_cons n _ r)
    | unary op t => exact absurd h (constText_append_ne_nodeText_append n (.unary op) _ r r')
    | nary op ts =>
      rw [text_nary] at h
      exact absurd h (constText_append_ne_nodeText_append n (.nary op) _ r r')
  | var x =>
    cases t with
    | const m => exact absurd h.symm (constText_append_ne_cons m _ r')
    | var y =>
      obtain ⟨htext, hrest⟩ := append_inj_of_stopped (not_closing_of_mem_name x)
        (not_closing_of_mem_name y) hr hr' (List.cons.inj h).2
      have hname : x = y := by
        cases x
        cases y
        simpa [String.toList_inj] using htext
      exact ⟨by rw [hname], hrest⟩
    | unary op t => exact absurd h (cons_ne_nodeText_append (.unary op) _ _ r')
    | nary op ts =>
      rw [text_nary] at h
      exact absurd h (cons_ne_nodeText_append (.nary op) _ _ r')
  | unary op s ih =>
    cases t with
    | const m =>
      exact absurd h.symm (constText_append_ne_nodeText_append m (.unary op) _ r' r)
    | var y => exact absurd h.symm (cons_ne_nodeText_append (.unary op) _ _ r)
    | unary op' t =>
      obtain ⟨hop, hoperand⟩ := nodeText_append_inj (.unary op) (.unary op') h
      obtain ⟨rfl, hrest⟩ := ih t (by simp) (by simp) hoperand
      cases hop
      exact ⟨rfl, (List.cons.inj hrest).2⟩
    | nary op' ts =>
      rw [text_nary] at h
      exact Operator.noConfusion (nodeText_append_inj (.unary op) (.nary op') h).1
  | nary op ss ih =>
    rw [text_nary] at h
    cases t with
    | const m =>
      exact absurd h.symm (constText_append_ne_nodeText_append m (.nary op) _ r' r)
    | var y => exact absurd h.symm (cons_ne_nodeText_append (.nary op) _ _ r)
    | unary op' t => exact Operator.noConfusion (nodeText_append_inj (.nary op) (.unary op') h).1
    | nary op' ts =>
      rw [text_nary] at h
      obtain ⟨hop, hlist⟩ := nodeText_append_inj (.nary op) (.nary op') h
      obtain ⟨hoperands, hrest⟩ := join_append_inj (R := Eq) closing (by decide) (by decide)
        (by decide) (fun s _ => text_append_ne_paren s)
        (fun t _ => text_append_ne_paren t)
        (fun s hs t _ _ _ hr hr' h => ih s hs t hr hr' h) hlist
      rw [List.forall₂_eq_eq_eq] at hoperands
      cases hop
      exact ⟨by rw [hoperands], hrest⟩

theorem eq_of_text_eq {s t : Term} (h : s.text width = t.text width') : s = t := by
  have happend : s.text width ++ [] = t.text width' ++ [] := by rw [h]
  exact (text_append_inj s t (stopped_nil closing) (stopped_nil closing) happend).1

/-- **Writing tells terms apart**, at every width. -/
theorem text_inj {s t : Term} : s.text width = t.text width ↔ s = t := by
  constructor
  · exact eq_of_text_eq
  · rintro rfl
    rfl

/-! ## Where the width shows -/

/-- The constants of a term, from left to right. -/
def constants : Term → List Int :=
  fold (fun n => [n]) (fun _ => []) (fun _ ns => ns) (fun _ => List.flatten)

@[simp] theorem constants_const (n : Int) : (const n).constants = [n] := rfl

@[simp] theorem constants_var (x : VarName) : (var x).constants = [] := rfl

@[simp] theorem constants_unary (op : UnaryOp) (t : Term) :
    (unary op t).constants = t.constants := rfl

@[simp] theorem constants_nary (op : NaryOp) (ts : List Term) :
    (nary op ts).constants = ts.flatMap constants := by
  simp [constants, List.flatMap]

/-- The width shows in the writing of a term only where it shows in a constant. -/
theorem text_eq_text_iff_constText (t : Term) : t.text width = t.text width' ↔
    ∀ n ∈ t.constants, constText width n = constText width' n := by
  induction t using induct with
  | const n => simp
  | var x => simp
  | unary op t ih => simp [nodeText, ih]
  | nary op ts ih =>
    have hoperands : (nary op ts).text width = (nary op ts).text width' ↔
        ∀ t ∈ ts, t.text width = t.text width' := by
      rw [text_nary, text_nary]
      constructor
      · intro h
        obtain ⟨-, hlist⟩ := nodeText_append_inj (.nary op) (.nary op) (congrArg (· ++ []) h)
        -- The rests behind two operands agree, so the writings in front of them do.
        have hall := join_append_inj (R := fun s t => s.text width = t.text width') closing
          (by decide) (by decide) (by decide) (fun s _ => text_append_ne_paren s)
          (fun t _ => text_append_ne_paren t)
          (fun s _ t _ r r' hr hr' h => by
            obtain ⟨-, rfl⟩ := text_append_inj s t hr hr' h
            exact ⟨List.append_cancel_right h, rfl⟩) hlist
        exact List.forall₂_same.1 hall.1
      · intro h
        rw [List.map_congr_left h]
    rw [hoperands, constants_nary]
    simp only [List.mem_flatMap]
    constructor
    · rintro h n ⟨t, ht, hn⟩
      exact (ih t ht).1 (h t ht) n hn
    · intro h t ht
      exact (ih t ht).2 fun n hn => h n ⟨t, ht, hn⟩

/-- Whatever the two widths are, terms with the same writing are the same; and a term is written
alike at both exactly if the widths are the same or every constant has as many digits of its own as
the greater width asks for. -/
theorem text_eq_text_iff {s t : Term} : s.text width = t.text width' ↔
    s = t ∧ (width = width' ∨
      ∀ n ∈ s.constants, 2 * max width width' ≤ Digits.count 16 n.natAbs) := by
  have digits (k : Nat) : max (2 * width) k = max (2 * width') k ↔
      width = width' ∨ 2 * max width width' ≤ k := by omega
  have hconst (t : Term) : t.text width = t.text width' ↔ (width = width' ∨
      ∀ n ∈ t.constants, 2 * max width width' ≤ Digits.count 16 n.natAbs) := by
    simp only [text_eq_text_iff_constText, constText_eq_iff, digits, true_and]
    by_cases hwidth : width = width' <;> simp [hwidth]
  constructor
  · intro h
    obtain rfl := eq_of_text_eq h
    exact ⟨rfl, (hconst s).1 h⟩
  · rintro ⟨rfl, h⟩
    exact (hconst s).2 h

/-! ## What a written term does not hold -/

theorem equals_not_mem_nodeText (o : Operator) {xs : List (List Char)}
    (h : ∀ x ∈ xs, '=' ∉ x) : '=' ∉ nodeText o.name xs := by
  rw [nodeText, List.mem_append, List.mem_cons, List.mem_append, List.mem_singleton]
  rintro (hname | hparen | hoperands | hparen)
  · exact absurd (o.isAlpha_of_mem_name _ hname) (by decide)
  · exact absurd hparen (by decide)
  · rcases mem_join hoperands with hcomma | ⟨x, hx, hmem⟩
    · exact absurd hcomma (by decide)
    · exact h x hx hmem
  · exact absurd hparen (by decide)

theorem equals_not_mem_constText (n : Int) : '=' ∉ constText width n := by
  have hdigits (least n : Nat) : '=' ∉ Digits.padded 16 least n := by
    intro h
    obtain ⟨d, -, hd⟩ := Digits.mem_fixed (by decide) h
    revert hd
    unfold Digits.digitChar
    split <;> decide
  cases n <;> simp [constText, hdigits]

/-- A written term holds no equals sign, so one behind it shows where it ends. -/
theorem equals_not_mem_text (t : Term) : '=' ∉ t.text width := by
  induction t using induct with
  | const n => exact equals_not_mem_constText n
  | var x =>
    rw [text_var, List.mem_cons]
    rintro (h | h)
    · exact absurd h (by decide)
    · rcases isNameChar_of_mem_name x _ h with hchar | hbreak
      · exact absurd hchar (by decide)
      · exact absurd hbreak (by decide)
  | unary op t ih =>
    refine equals_not_mem_nodeText (.unary op) ?_
    intro x hx
    rwa [List.mem_singleton.1 hx]
  | nary op ts ih =>
    rw [text_nary]
    refine equals_not_mem_nodeText (.nary op) ?_
    intro x hx
    obtain ⟨t, ht, rfl⟩ := List.mem_map.1 hx
    exact ih t ht

end Term

end WordRing
