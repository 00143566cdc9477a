import WordRing.CommandLine.Commands
import WordRing.Proofs.Coherence.Law

/-!
# Reading command lines

Words are read from left to right, and an option has its value from the last place where it is
given. So a flag among the words, wherever an option can stand, changes its own parameter and
nothing else: the same command lines are refused, the same requests are granted, and every other
parameter keeps its value.

## Main definitions

* `Given.Fits g` — an option has a value exactly if it takes one.
* `Command.converted command given` — the options of a command in the order of their conversion.
* `Command.SameBut parameter x y` — two command lines say the same but for one parameter.
-/
namespace WordRing.CommandLine

/-- A conversion of a list succeeds exactly if that of every item does. -/
theorem exists_mapM_eq_ok {ε α β : Type} {f : α → Except ε β} {l : List α} :
    (∃ ys, l.mapM f = .ok ys) ↔ ∀ x ∈ l, ∃ y, f x = .ok y := by
  induction l with
  | nil => simp [pure, Except.pure]
  | cons x l ih =>
    rw [List.forall_mem_cons, ← ih, List.mapM_cons]
    cases f x <;> cases l.mapM f <;> simp [bind, Except.bind, pure, Except.pure]

/-! ## Words -/

/-- An option has a value exactly if it takes one. -/
def Given.Fits (g : Given) : Prop := g.value.isSome = g.option.takesValue

/-- The options of a word fit, and one that waits for the next word takes a value. -/
def Word.Fits (word : Word) : Prop :=
  (∀ g ∈ word.given, g.Fits) ∧ ∀ w ∈ word.waiting, w.1.takesValue = true

section Words
variable {options : List OptionSpec} {words : List String} {given : List Given}
  {others : List String} {o : OptionSpec} {cs : List Char} {word : Word} {interspersed : Bool}

theorem word_fits_given {value : Option String} (h : Given.Fits ⟨o, value⟩) :
    Word.Fits ⟨[⟨o, value⟩], none⟩ :=
  ⟨by simpa using h, by simp⟩

theorem word_fits_waiting {form : String} (h : o.takesValue = true) :
    Word.Fits ⟨[], some (o, form)⟩ :=
  ⟨by simp, by simpa using h⟩

theorem readShort_fits (h : readShort options cs = .ok word) : word.Fits := by
  fun_induction readShort options cs generalizing word
  case case1 =>
    obtain rfl := Except.ok.inj h
    exact ⟨by simp, by simp⟩
  case case2 => cases h
  case case3 o _ htakes _ =>
    obtain rfl := Except.ok.inj h
    exact word_fits_waiting htakes
  case case4 o _ htakes _ =>
    obtain rfl := Except.ok.inj h
    exact word_fits_given htakes.symm
  case case5 c rest o _ htakes ih =>
    simp only [bind_eq_ok, pure, Except.pure, Except.ok.injEq] at h
    obtain ⟨others, hrest, rfl⟩ := h
    have hfits := ih hrest
    refine ⟨?_, hfits.2⟩
    rw [List.forall_mem_cons]
    exact ⟨by simpa [Given.Fits] using htakes, hfits.1⟩

theorem readOption_fits (h : readOption options cs = .ok word) : word.Fits := by
  simp only [readOption] at h
  split at h
  next o _ =>
    split at h
    next value _ =>
      split at h
      next htakes =>
        obtain rfl := Except.ok.inj h
        exact word_fits_given htakes.symm
      next => cases h
    next =>
      split at h
      next htakes =>
        obtain rfl := Except.ok.inj h
        exact word_fits_waiting htakes
      next htakes =>
        obtain rfl := Except.ok.inj h
        exact word_fits_given (by simpa [Given.Fits] using htakes)
  next =>
    split at h
    next => cases h
    next => exact readShort_fits h

theorem scan_fits (h : scan options interspersed words = .ok (given, others)) :
    ∀ g ∈ given, g.Fits := by
  fun_induction scan options interspersed words generalizing given others
  case case1 | case2 | case8 =>
    obtain ⟨rfl, rfl⟩ := Prod.mk.inj (Except.ok.inj h)
    simp
  case case3 | case5 => cases h
  case case4 word after cs hdashes hoption found hread ih =>
    simp only [bind_eq_ok, pure, Except.pure, Except.ok.injEq, Prod.mk.injEq] at h
    obtain ⟨⟨given', others'⟩, hafter, rfl, rfl⟩ := h
    exact List.forall_mem_append.2 ⟨(readOption_fits hread).1, ih hafter⟩
  case case6 word cs hdashes hoption found o form hread value after ih =>
    simp only [bind_eq_ok, pure, Except.pure, Except.ok.injEq, Prod.mk.injEq] at h
    obtain ⟨⟨given', others'⟩, hafter, rfl, rfl⟩ := h
    have hfits := readOption_fits hread
    refine List.forall_mem_append.2 ⟨hfits.1, List.forall_mem_cons.2 ⟨?_, ih hafter⟩⟩
    exact (hfits.2 _ rfl).symm
  case case7 word after cs hdashes hword htrue ih =>
    simp only [bind_eq_ok, pure, Except.pure, Except.ok.injEq, Prod.mk.injEq] at h
    obtain ⟨⟨given', others'⟩, hafter, rfl, rfl⟩ := h
    exact ih hafter

/-- Words are read alike whatever is read after them. -/
theorem scan_append (h : scan options true words = .ok (given, others)) (hend : "--" ∉ words)
    (rest : List String) : scan options true (words ++ rest) =
      (scan options true rest).map fun found => (given ++ found.1, others ++ found.2) := by
  -- Words that are read to their end leave the rest as it is: nothing waits for a value.
  fun_induction scan options true words generalizing given others
  case case1 =>
    obtain ⟨rfl, rfl⟩ := Prod.mk.inj (Except.ok.inj h)
    cases hrest : scan options true rest <;> simp [hrest, Except.map]
  case case2 word after cs hdashes =>
    obtain rfl : word = "--" := String.toList_injective hdashes
    exact absurd List.mem_cons_self hend
  case case3 => cases h
  case case4 word after cs hdashes hoption found hread ih =>
    simp only [bind_eq_ok, pure, Except.pure, Except.ok.injEq, Prod.mk.injEq] at h
    obtain ⟨⟨given', others'⟩, hafter, rfl, rfl⟩ := h
    have hrest := ih hafter fun hmem => hend (List.mem_cons_of_mem _ hmem)
    rw [List.cons_append, scan, if_neg hdashes, if_pos hoption, hread]
    simp only [hrest]
    cases scan options true rest <;> simp [Except.map, bind, Except.bind, pure, Except.pure]
  case case5 => cases h
  case case6 word cs hdashes hoption found o form hread value after ih =>
    simp only [bind_eq_ok, pure, Except.pure, Except.ok.injEq, Prod.mk.injEq] at h
    obtain ⟨⟨given', others'⟩, hafter, rfl, rfl⟩ := h
    have hrest := ih hafter fun hmem => hend (List.mem_cons_of_mem _ (List.mem_cons_of_mem _ hmem))
    rw [List.cons_append, scan, if_neg hdashes, if_pos hoption, hread]
    simp only [List.cons_append, hrest]
    cases scan options true rest <;> simp [Except.map, bind, Except.bind, pure, Except.pure]
  case case7 word after cs hdashes hword htrue ih =>
    simp only [bind_eq_ok, pure, Except.pure, Except.ok.injEq, Prod.mk.injEq] at h
    obtain ⟨⟨given', others'⟩, hafter, rfl, rfl⟩ := h
    have hrest := ih hafter fun hmem => hend (List.mem_cons_of_mem _ hmem)
    rw [List.cons_append, scan, if_neg hdashes, if_neg hword, if_pos rfl, hrest]
    cases scan options true rest <;> simp [Except.map, bind, Except.bind, pure, Except.pure]
  case case8 word after cs hdashes hword hfalse => exact absurd rfl hfalse

end Words

namespace Command
variable {command : Command} {environment : List (String × String)} {o flag : OptionSpec}
  {given before after : List Given} {others : List String} {value : Option String}
  {options : List OptionSpec}

/-! ## Values of options -/

/-- An option has its value from the places where it is given itself. -/
theorem valueOf_append_cons (h : o ≠ flag) :
    command.valueOf environment (before ++ ⟨flag, value⟩ :: after) o =
      command.valueOf environment (before ++ after) o := by
  simp [valueOf, List.filter_append, h.symm]

/-- A flag is refused for nothing but its variable. -/
theorem exists_valueOf_flag (hflag : flag.kind = .flag) (hfits : ∀ g ∈ given, g.Fits)
    (hvariable : ∀ text, flag.fromEnvironment command.environment environment = some text →
      readBoolean text ≠ none) : ∃ y, command.valueOf environment given flag = .ok y := by
  cases hlast : (given.filter fun g => g.option = flag).getLast? with
  | some g =>
    obtain ⟨hmem, hoption⟩ := List.mem_filter.1 (List.mem_of_getLast? hlast)
    have hnone : g.value = none := by
      have hfit : g.value.isSome = g.option.takesValue := hfits g hmem
      rw [of_decide_eq_true hoption] at hfit
      simpa [OptionSpec.takesValue, hflag] using hfit
    obtain ⟨option, value⟩ := g
    obtain rfl : value = none := hnone
    exact ⟨_, by rw [valueOf, hlast]; rfl⟩
  | none =>
    cases htext : flag.fromEnvironment command.environment environment with
    | none => exact ⟨_, by simp only [valueOf, hlast, htext]; rfl⟩
    | some text =>
      obtain ⟨b, hb⟩ := Option.ne_none_iff_exists'.1 (hvariable text htext)
      exact ⟨_, by simp only [valueOf, hlast, htext, OptionSpec.convert, hflag, hb]; rfl⟩

theorem fst_of_valueOf {y : String × Value} (h : command.valueOf environment given o = .ok y) :
    y.1 = o.parameter := by
  simp only [valueOf] at h
  split at h <;> try split at h
  all_goals
    obtain ⟨_, -, hy⟩ := bind_eq_ok.1 h
    obtain rfl := Except.ok.inj hy
    rfl

/-- The value of a parameter is that of the first option with this name. -/
theorem lookup_mapM_valueOf {values : List (String × Value)} {parameter : String}
    (h : options.mapM (command.valueOf environment given) = .ok values) :
    values.lookup parameter = (options.find? fun o => o.parameter = parameter).bind fun o =>
      (command.valueOf environment given o).toOption.map Prod.snd := by
  induction options generalizing values with
  | nil =>
    obtain rfl : [] = values := Except.ok.inj h
    rfl
  | cons o options ih =>
    simp only [List.mapM_cons, bind_eq_ok, pure, Except.pure, Except.ok.injEq] at h
    obtain ⟨y, hy, rest, hrest, rfl⟩ := h
    obtain ⟨name, value⟩ := y
    obtain rfl : name = o.parameter := fst_of_valueOf hy
    by_cases heq : o.parameter = parameter
    · simp [heq, hy, Except.toOption]
    · have hne : (parameter == o.parameter) = false := beq_eq_false_iff_ne.2 (Ne.symm heq)
      simp [List.lookup_cons, hne, heq, ih hrest]

/-! ## The order of conversion -/

theorem mem_distinct : o ∈ distinct options ↔ o ∈ options := by
  induction options with
  | nil => simp [distinct]
  | cons first rest ih =>
    by_cases h : o = first <;> simp [distinct, ih, h]

theorem filter_distinct (p : OptionSpec → Bool) :
    (distinct options).filter p = distinct (options.filter p) := by
  induction options with
  | nil => rfl
  | cons o options ih =>
    cases hp : p o with
    | true =>
      rw [List.filter_cons_of_pos hp, distinct, distinct, List.filter_cons_of_pos hp, ← ih,
        List.filter_filter, List.filter_filter]
      simp only [Bool.and_comm]
    | false =>
      have hnot : ¬p o = true := by simp [hp]
      rw [List.filter_cons_of_neg hnot, distinct, List.filter_cons_of_neg hnot, ← ih,
        List.filter_filter]
      refine List.filter_congr fun x _ => ?_
      by_cases hx : x = o
      · simp [hx, hp]
      · simp [hx]

/-- The options on the command line that come with values, in the order given. -/
def named (given : List Given) : List OptionSpec :=
  (distinct (given.map Given.option)).filter fun o => !o.isRequest

/-- The options of a command in the order of their conversion. -/
def converted (command : Command) (given : List Given) : List OptionSpec :=
  named given ++ (command.options.filter fun o => !o.isRequest).filter
    fun o => !(named given).contains o

theorem mem_named : o ∈ named given ↔ o ∈ given.map Given.option ∧ o.isRequest = false := by
  rw [named, List.mem_filter, mem_distinct, Bool.not_eq_true']

theorem mem_named_append_cons (h : o ≠ flag) :
    o ∈ named (before ++ ⟨flag, value⟩ :: after) ↔ o ∈ named (before ++ after) := by
  rw [mem_named, mem_named, List.map_append, List.map_append, List.map_cons, List.mem_append,
    List.mem_cons, List.mem_append, or_iff_right h]

variable (command flag before after value) in
/-- Wherever a flag is given, the other options are converted in the same order. -/
theorem filter_converted_append_cons :
    (command.converted (before ++ ⟨flag, value⟩ :: after)).filter (· ≠ flag) =
      (command.converted (before ++ after)).filter (· ≠ flag) := by
  have hnamed : (named (before ++ ⟨flag, value⟩ :: after)).filter (· ≠ flag) =
      (named (before ++ after)).filter (· ≠ flag) := by
    rw [named, named, List.filter_filter, List.filter_filter, filter_distinct, filter_distinct]
    simp
  rw [converted, converted, List.filter_append, List.filter_append, hnamed]
  simp only [List.filter_filter]
  congr 1
  refine List.filter_congr fun o _ => ?_
  by_cases h : o = flag
  · simp [h]
  · simp [h, mem_named_append_cons h]

theorem mem_converted_append_cons (h : o ≠ flag) :
    o ∈ command.converted (before ++ ⟨flag, value⟩ :: after) ↔
      o ∈ command.converted (before ++ after) := by
  have hfilter := congrArg (o ∈ ·) (filter_converted_append_cons command flag before after value)
  simpa [h] using hfilter

/-! ## Values of parameters -/

/-- The argument of a command, if it has the words that it needs and no other. -/
def argument? (command : Command) (others : List String) : Option (Option String) :=
  match command.argument, others with
  | some _, [word] => some (some word)
  | none, [] => some none
  | _, _ => none

theorem values_eq_ok_iff {v : Values} : command.values environment given others = .ok v ↔
    (command.converted given).mapM (command.valueOf environment given) = .ok v.options ∧
      command.argument? others = some v.argument := by
  obtain ⟨options, argument⟩ := v
  simp only [values, converted, named, List.mapM_append, argument?]
  generalize ((distinct (given.map Given.option)).filter fun o => !o.isRequest).mapM
    (command.valueOf environment given) = first
  generalize List.mapM (command.valueOf environment given) (List.filter _ (List.filter _ _)) =
    second
  cases first with
  | error e => simp [Bind.bind, Except.bind]
  | ok first =>
    cases second with
    | error e =>
      cases command.argument <;> cases others <;>
        simp [Bind.bind, Except.bind, pure, Except.pure, throw, throwThe, MonadExceptOf.throw]
    | ok second =>
      cases command.argument <;> rcases others with _ | ⟨word, _ | ⟨next, others⟩⟩ <;>
        simp [Bind.bind, Except.bind, pure, Except.pure, throw, throwThe, MonadExceptOf.throw]

theorem exists_values_eq_ok : (∃ v, command.values environment given others = .ok v) ↔
    (∀ o ∈ command.converted given, ∃ y, command.valueOf environment given o = .ok y) ∧
      (command.argument? others).isSome = true := by
  simp only [values_eq_ok_iff, ← exists_mapM_eq_ok, Option.isSome_iff_exists]
  constructor
  · rintro ⟨v, hoptions, hargument⟩
    exact ⟨⟨_, hoptions⟩, _, hargument⟩
  · rintro ⟨⟨options, hoptions⟩, argument, hargument⟩
    exact ⟨⟨options, argument⟩, hoptions, hargument⟩

/-! ## A flag among the words -/

/-- What two command lines say is the same but for one parameter. -/
inductive SameBut (parameter : String) :
    Except UsageError (OptionSpec ⊕ Values) → Except UsageError (OptionSpec ⊕ Values) → Prop
  | refused (e e' : UsageError) : SameBut parameter (.error e) (.error e')
  | request (o : OptionSpec) : SameBut parameter (.ok (.inl o)) (.ok (.inl o))
  | values {v v' : Values} (hargument : v.argument = v'.argument)
      (hlookup : ∀ other, other ≠ parameter → v.options.lookup other = v'.options.lookup other) :
      SameBut parameter (.ok (.inr v)) (.ok (.inr v'))

section Flag
variable (hflag : flag.kind = .flag)
  (hvariable : ∀ text, flag.fromEnvironment command.environment environment = some text →
    readBoolean text ≠ none)
include hflag hvariable

theorem exists_values_append_cons (hfits : ∀ g ∈ before ++ after, g.Fits) (others : List String) :
    (∃ v, command.values environment (before ++ ⟨flag, none⟩ :: after) others = .ok v) ↔
      ∃ v, command.values environment (before ++ after) others = .ok v := by
  have hflagFits : Given.Fits ⟨flag, none⟩ := by simp [Given.Fits, OptionSpec.takesValue, hflag]
  have hfits' : ∀ g ∈ before ++ ⟨flag, none⟩ :: after, g.Fits := by
    simpa [hflagFits, or_imp, forall_and] using hfits
  rw [exists_values_eq_ok, exists_values_eq_ok]
  refine and_congr_left fun _ => forall_congr' fun o => ?_
  by_cases h : o = flag
  · subst h
    exact iff_of_true (fun _ => exists_valueOf_flag hflag hfits' hvariable)
      fun _ => exists_valueOf_flag hflag hfits hvariable
  · rw [mem_converted_append_cons h, valueOf_append_cons h]

omit hflag hvariable in
/-- A flag that is given leaves the values of all other parameters as they are. -/
theorem lookup_values_append_cons {v v' : Values} {parameter : String}
    (hv : command.values environment (before ++ ⟨flag, value⟩ :: after) others = .ok v)
    (hv' : command.values environment (before ++ after) others = .ok v')
    (hparameter : parameter ≠ flag.parameter) :
    v.options.lookup parameter = v'.options.lookup parameter := by
  rw [lookup_mapM_valueOf (values_eq_ok_iff.1 hv).1, lookup_mapM_valueOf (values_eq_ok_iff.1 hv').1]
  have hne {o : OptionSpec} (h : o.parameter = parameter) : o ≠ flag := by
    rintro rfl
    exact hparameter h.symm
  have hfind (given : List Given) :
      (command.converted given).find? (fun o => o.parameter = parameter) =
        ((command.converted given).filter (· ≠ flag)).find? fun o => o.parameter = parameter := by
    rw [List.find?_filter]
    congr 1
    funext o
    by_cases h : o.parameter = parameter <;> simp [h, hne]
  rw [hfind, hfind, filter_converted_append_cons]
  refine Option.bind_congr fun o ho => ?_
  rw [valueOf_append_cons (hne (by simpa using List.find?_some ho))]

omit hvariable in
/-- A flag is no request, and so the same request comes first wherever a flag is given. -/
theorem requested_append_cons :
    command.requested environment (before ++ ⟨flag, value⟩ :: after) =
      command.requested environment (before ++ after) := by
  have hfirst (options : List OptionSpec) (h : ∀ o ∈ options, o ≠ flag) :
      command.firstSet environment (before ++ ⟨flag, value⟩ :: after) options =
        command.firstSet environment (before ++ after) options := by
    induction options with
    | nil => rfl
    | cons o options ih =>
      obtain ⟨ho, hrest⟩ := List.forall_mem_cons.1 h
      rw [firstSet, firstSet, valueOf_append_cons ho, ih hrest]
  have hrequest : flag.isRequest = false := by simp [OptionSpec.isRequest, hflag]
  have hrequests : ((before ++ ⟨flag, value⟩ :: after).map Given.option ++
      command.allOptions).filter OptionSpec.isRequest =
      ((before ++ after).map Given.option ++ command.allOptions).filter OptionSpec.isRequest := by
    simp [hrequest]
  rw [requested, requested, hrequests]
  refine hfirst _ fun o ho => ?_
  rintro rfl
  simpa [hrequest] using (List.mem_filter.1 (mem_distinct.1 ho)).2


/-- What is bound to the parameters is the same but for a flag that is put where it is read. -/
theorem sameBut_bind {words : List String} {word : String}
    (hwords : scan command.allOptions true words = .ok (before, others)) (hend : "--" ∉ words)
    (hword : scan command.allOptions true [word] = .ok ([⟨flag, none⟩], [])) (rest : List String) :
    SameBut flag.parameter (command.bind environment (words ++ word :: rest))
      (command.bind environment (words ++ rest)) := by
  have hne : "--" ∉ [word] := by
    intro hmem
    obtain rfl := List.mem_singleton.1 hmem
    simp [scan] at hword
  have hwith := scan_append hwords hend (word :: rest)
  have hafter : scan command.allOptions true (word :: rest) = _ := scan_append hword hne rest
  have hwithout := scan_append hwords hend rest
  rw [hafter] at hwith
  cases hrest : scan command.allOptions true rest with
  | error e =>
    simp only [hrest, Except.map] at hwith hwithout
    simp only [Command.bind, hwith, hwithout]
    exact .refused e e
  | ok found =>
    obtain ⟨after, left⟩ := found
    simp only [hrest, Except.map] at hwith hwithout
    have hfits := scan_fits hwithout
    have hexists := exists_values_append_cons hflag hvariable hfits (others ++ left)
    simp only [Command.bind, hwith, hwithout, Bind.bind, Except.bind, List.nil_append,
      List.singleton_append, requested_append_cons hflag]
    cases command.requested environment (before ++ after) with
    | error e => exact .refused e e
    | ok request =>
      cases request with
      | some o => exact .request o
      | none =>
        generalize others ++ left = others at hexists ⊢
        cases hv : command.values environment (before ++ ⟨flag, none⟩ :: after) others with
        | error e =>
          cases hv' : command.values environment (before ++ after) others with
          | error e' => exact .refused e e'
          | ok v' =>
            obtain ⟨v, hok⟩ := hexists.2 ⟨v', hv'⟩
            cases hv.symm.trans hok
        | ok v =>
          obtain ⟨v', hv'⟩ := hexists.1 ⟨v, hv⟩
          rw [hv']
          have hargument : v.argument = v'.argument :=
            Option.some.inj ((values_eq_ok_iff.1 hv).2.symm.trans (values_eq_ok_iff.1 hv').2)
          exact .values hargument fun _ => lookup_values_append_cons hv hv'

end Flag

end Command

/-! ## Options that are not given -/

/-- No variable of an environment is one of the program's. -/
def Unset (environment : List (String × String)) : Prop :=
  ∀ p ∈ environment, ¬ "UOR_".toList <+: p.1.toList

section Unset
variable {environment : List (String × String)} {command : Command} {given : List Given}
  {o : OptionSpec} {options : List OptionSpec}

theorem Unset.fromEnvironment_eq_none (h : Unset environment) {beginning : String}
    (hbeginning : "UOR_".toList <+: (beginning ++ "_").toList) (o : OptionSpec) :
    o.fromEnvironment beginning environment = none := by
  rw [OptionSpec.fromEnvironment, List.find?_eq_none.2]
  · rfl
  · rintro ⟨key, text⟩ hmem hkey
    obtain rfl := of_decide_eq_true hkey
    have hkey : (s!"{beginning}_{o.parameter}").toList =
        (beginning ++ "_").toList ++ o.parameter.toList := by
      rw [← String.toList_append]
      rfl
    exact h _ hmem (hkey ▸ hbeginning.trans (List.prefix_append _ _))

/-- An option that is given nowhere has the value that holds without it. -/
theorem Command.valueOf_absent (hgiven : o ∉ given.map Given.option)
    (hvariable : o.fromEnvironment command.environment environment = none) :
    command.valueOf environment given o = .ok (o.parameter, o.absent) := by
  have hnone : (given.filter fun g => g.option = o) = [] := by
    rw [List.filter_eq_nil_iff]
    intro g hg heq
    exact hgiven (List.mem_map.2 ⟨g, hg, of_decide_eq_true heq⟩)
  simp only [valueOf, hnone, hvariable]
  rfl

theorem Command.firstSet_eq_none (h : ∀ o ∈ options, o.kind = .request ∧
    command.valueOf environment given o = .ok (o.parameter, o.absent)) :
    command.firstSet environment given options = .ok none := by
  induction options with
  | nil => rfl
  | cons o options ih =>
    obtain ⟨⟨hkind, hvalue⟩, hrest⟩ := List.forall_mem_cons.1 h
    have habsent : o.absent = .flag false := by rw [OptionSpec.absent, hkind]
    rw [firstSet, hvalue, habsent]
    exact ih hrest

/-- Nothing is asked for before everything else if no request is given anywhere. -/
theorem Command.requested_eq_none (hgiven : ∀ g ∈ given, g.option.isRequest = false)
    (hvariable : ∀ o : OptionSpec, o.fromEnvironment command.environment environment = none) :
    command.requested environment given = .ok none := by
  refine firstSet_eq_none fun o ho => ?_
  have hrequest : o.isRequest = true := (List.mem_filter.1 (mem_distinct.1 ho)).2
  refine ⟨by simpa [OptionSpec.isRequest] using hrequest, valueOf_absent ?_ (hvariable o)⟩
  intro hmem
  obtain ⟨g, hg, rfl⟩ := List.mem_map.1 hmem
  exact Bool.false_ne_true ((hgiven g hg).symm.trans hrequest)

end Unset

/-! ## Programs and commands -/

section Run
variable {setting : Setting} {command : Command} {word : String} {words : List String}

/-- A word that is no option ends what the program reads for itself. -/
theorem readProgram_cons (h : word.toList.head? ≠ some '-') :
    readProgram setting (word :: words) = (do
      match ← program.requested setting.environment [] with
      | some o => return .inl o
      | none =>
        let _ ← program.valueOf setting.environment [] verboseOption
        return .inr (word :: words)) := by
  have hscan : scan program.allOptions false (word :: words) = .ok ([], word :: words) := by
    have hdashes : word.toList ≠ ['-', '-'] := by
      intro heq
      simp [heq] at h
    simp [scan, hdashes, h]
  rw [readProgram, hscan]
  rfl

theorem ne_nil_of_readProgram {name : String} {rest : List String}
    (h : readProgram setting words = .ok (.inr (name :: rest))) : words ≠ [] := by
  rintro rfl
  have hscan : scan program.allOptions false [] = .ok ([], []) := by rw [scan]
  simp only [readProgram, hscan, bind_eq_ok, Except.ok.injEq, exists_eq_left'] at h
  obtain ⟨request, -, hrest⟩ := h
  cases request with
  | some o => cases hrest
  | none =>
    obtain ⟨_, -, hrest⟩ := bind_eq_ok.1 hrest
    cases hrest

/-- The name of a command comes before its words: either the run is over by then, in the same way
whatever the words are, or it is the run of the command. -/
theorem run_name_cases (setting : Setting) (hmem : command ∈ commands) :
    (∃ outcome, ∀ words, run setting (command.name :: words) = outcome) ∨
      ∀ words, run setting (command.name :: words) = runCommand setting command words := by
  have hname : command.name.toList.head? ≠ some '-' ∧
      commands.find? (fun other => other.name = command.name) = some command := by
    revert command
    decide
  simp only [run, List.isEmpty_cons, Bool.false_eq_true, if_false, readProgram_cons hname.1]
  cases program.requested setting.environment [] with
  | error e => exact .inl ⟨.misuse e, fun _ => rfl⟩
  | ok request =>
    cases request with
    | some o => exact .inl ⟨answer program o, fun _ => rfl⟩
    | none =>
      cases program.valueOf setting.environment [] verboseOption with
      | error e => exact .inl ⟨.misuse e, fun _ => rfl⟩
      | ok _ =>
        refine .inr fun words => ?_
        simp only [Bind.bind, Except.bind, pure, Except.pure, hname.2]

end Run

end WordRing.CommandLine
