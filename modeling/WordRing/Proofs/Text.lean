import Mathlib.Data.List.Forall2
import WordRing.Text

/-!
# Where a text ends

A text that stands at the front of another is determined by the whole if one knows where it ends.
It may end before the first character that it cannot hold, or at a closing mark behind a list of
items. Statements about formats are therefore statements about a text with a rest behind it: from
the whole they find both the text and the rest.
-/
namespace WordRing.Text

/-! ## Texts that end before a character -/

/-- A rest whose first character, if there is one, is among those that stop a text. -/
def Stopped (stop : List Char) (rest : List Char) : Prop := ∀ c ∈ rest.head?, c ∈ stop

@[simp] theorem stopped_nil (stop : List Char) : Stopped stop [] := by simp [Stopped]

@[simp] theorem stopped_cons (stop : List Char) (c : Char) (rest : List Char) :
    Stopped stop (c :: rest) ↔ c ∈ stop := by simp [Stopped]

/-- Texts free of stopping characters are determined by what they begin. -/
theorem append_inj_of_stopped {stop a b r r' : List Char} (ha : ∀ c ∈ a, c ∉ stop)
    (hb : ∀ c ∈ b, c ∉ stop) (hr : Stopped stop r) (hr' : Stopped stop r')
    (h : a ++ r = b ++ r') : a = b ∧ r = r' := by
  induction a generalizing b with
  | nil =>
    cases b with
    | nil => exact ⟨rfl, h⟩
    | cons d b =>
      have hd : r = d :: (b ++ r') := h
      rw [hd, stopped_cons] at hr
      exact absurd hr (hb d List.mem_cons_self)
  | cons c a ih =>
    cases b with
    | nil =>
      have hc : r' = c :: (a ++ r) := h.symm
      rw [hc, stopped_cons] at hr'
      exact absurd hr' (ha c List.mem_cons_self)
    | cons d b =>
      obtain ⟨rfl, htail⟩ := List.cons.inj h
      obtain ⟨rfl, hrest⟩ := ih (fun x hx => ha x (List.mem_cons_of_mem c hx))
        (fun x hx => hb x (List.mem_cons_of_mem c hx)) htail
      exact ⟨rfl, hrest⟩

/-! ## Lists of items -/

theorem mem_join {separator : List Char} {xs : List (List Char)} {c : Char}
    (h : c ∈ join separator xs) : c ∈ separator ∨ ∃ x ∈ xs, c ∈ x := by
  induction xs with
  | nil => simp at h
  | cons x xs ih =>
    cases xs with
    | nil => exact .inr ⟨x, List.mem_cons_self, h⟩
    | cons y xs =>
      rw [join_cons_cons, List.mem_append, List.mem_append] at h
      rcases h with (h | h) | h
      · exact .inr ⟨x, List.mem_cons_self, h⟩
      · exact .inl h
      · exact (ih h).imp_right fun ⟨z, hz, hc⟩ => ⟨z, List.mem_cons_of_mem x hz, hc⟩

/-- What follows the first item of a list: the end of the list, or a comma and the others. -/
def behindFirst (close : Char) (xs : List (List Char)) (r : List Char) : List Char :=
  if xs.isEmpty then close :: r else ',' :: (join [','] xs ++ close :: r)

theorem join_cons_append (close : Char) (x : List Char) (xs : List (List Char)) (r : List Char) :
    join [','] (x :: xs) ++ close :: r = x ++ behindFirst close xs r := by
  cases xs <;> simp [behindFirst]

theorem stopped_behindFirst {stop : List Char} {close : Char} (hcomma : ',' ∈ stop)
    (hclose : close ∈ stop) (xs : List (List Char)) (r : List Char) :
    Stopped stop (behindFirst close xs r) := by
  cases xs <;> simp [behindFirst, hcomma, hclose]

section Items
variable {α β : Type} {write : α → List Char} {write' : β → List Char} {R : α → β → Prop}
  {close : Char}

/-- Lists between commas and a closing mark are told apart, up to a relation, if their items are
told apart wherever something stops them, and if no item begins with the mark. -/
theorem join_append_inj (stop : List Char) (hcomma : ',' ∈ stop) (hclose : close ∈ stop)
    (hne : close ≠ ',') {xs : List α} {ys : List β} {r r' : List Char}
    (hxs : ∀ x ∈ xs, ∀ r r', write x ++ r ≠ close :: r')
    (hys : ∀ y ∈ ys, ∀ r r', write' y ++ r ≠ close :: r')
    (ih : ∀ x ∈ xs, ∀ y ∈ ys, ∀ r r', Stopped stop r → Stopped stop r' →
      write x ++ r = write' y ++ r' → R x y ∧ r = r')
    (h : join [','] (xs.map write) ++ close :: r = join [','] (ys.map write') ++ close :: r') :
    List.Forall₂ R xs ys ∧ r = r' := by
  induction xs generalizing ys with
  | nil =>
    cases ys with
    | nil => exact ⟨.nil, (List.cons.inj h).2⟩
    | cons y ys =>
      rw [List.map_cons, join_cons_append] at h
      exact absurd h.symm (hys y List.mem_cons_self _ _)
  | cons x xs ihs =>
    cases ys with
    | nil =>
      rw [List.map_cons, join_cons_append] at h
      exact absurd h (hxs x List.mem_cons_self _ _)
    | cons y ys =>
      rw [List.map_cons, List.map_cons, join_cons_append, join_cons_append] at h
      obtain ⟨hfirst, hbehind⟩ := ih x List.mem_cons_self y List.mem_cons_self _ _
        (stopped_behindFirst hcomma hclose _ _) (stopped_behindFirst hcomma hclose _ _) h
      cases xs with
      | nil =>
        cases ys with
        | nil => exact ⟨.cons hfirst .nil, (List.cons.inj hbehind).2⟩
        | cons y' ys => exact absurd (List.cons.inj hbehind).1 hne
      | cons x' xs =>
        cases ys with
        | nil => exact absurd (List.cons.inj hbehind.symm).1 hne
        | cons y' ys =>
          obtain ⟨hothers, hrest⟩ := ihs (fun u hu => hxs u (List.mem_cons_of_mem x hu))
            (fun v hv => hys v (List.mem_cons_of_mem y hv))
            (fun u hu v hv => ih u (List.mem_cons_of_mem x hu) v (List.mem_cons_of_mem y hv))
            (List.cons.inj hbehind).2
          exact ⟨.cons hfirst hothers, hrest⟩

end Items

/-! ## Styling -/

/-- A text without an escape has no styling to lose. -/
theorem strip_eq_self {s : String} (h : '\x1b' ∉ s.toList) : Styling.strip s = s := by
  have hafter (cs : List Char) (h : '\x1b' ∉ cs) : Styling.stripAfter 0 cs = cs := by
    induction cs with
    | nil => rw [Styling.stripAfter]
    | cons c cs ih =>
      rw [List.mem_cons, not_or] at h
      have hnone : Styling.sequenceLength? (c :: cs) = none := by
        rw [Styling.sequenceLength?]
        rintro _ ⟨⟩
        exact h.1 rfl
      rw [Styling.stripAfter, hnone]
      exact congrArg (c :: ·) (ih h.2)
  rw [Styling.strip, hafter _ h, String.ofList_toList]

end WordRing.Text
