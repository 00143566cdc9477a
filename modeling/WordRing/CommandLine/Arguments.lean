import WordRing.Json.Inspect
import WordRing.Text.Numeral
import WordRing.Text.Similar

/-!
# Command line arguments

A command declares its options and at most one argument; here they are found among the words of
the command line, looked up in the environment where the command line does not give them, and
converted. Options may follow arguments, `--` ends them, a short option may have its value joined
to it and a long one behind an equals sign.

## Main definitions

* `Command.bind command environment words` — what is asked for before everything else, or the
  values of the parameters, or what is wrong with the words.
* `UsageError.message` — how a wrong use is reported.
-/
namespace WordRing.CommandLine

/-! ## Declarations -/

/-- What an option takes. -/
inductive OptionKind where
  /-- Nothing: it is there or not. -/
  | flag
  /-- Nothing: it asks for something that comes before everything else. -/
  | request
  /-- An integer; without it the number given here holds. -/
  | integer (absent : Int)
  /-- Any text. -/
  | text
deriving DecidableEq, Repr

/-- An option. -/
structure OptionSpec where
  short : Option Char
  long : String
  /-- The name of its value, also in the environment. -/
  parameter : String
  kind : OptionKind
deriving DecidableEq, Repr

/-- A command with its options and its argument. -/
structure Command where
  name : String
  options : List OptionSpec
  argument : Option String
  /-- What the names of its environment variables begin with. -/
  environment : String
deriving DecidableEq, Repr

namespace OptionSpec

/-- The long form as it is typed. -/
def longForm (o : OptionSpec) : String := "--" ++ o.long

/-- The forms as they are typed. -/
def forms (o : OptionSpec) : List String :=
  (o.short.toList.map fun c => String.ofList ['-', c]) ++ [o.longForm]

/-- The option in a message: its forms in quotes. -/
def hint (o : OptionSpec) : String := " / ".intercalate (o.forms.map fun form => s!"'{form}'")

/-- Whether the option asks for something that comes before everything else. -/
def isRequest (o : OptionSpec) : Bool := o.kind = .request

/-- Whether the option comes with a value. -/
def takesValue (o : OptionSpec) : Bool := !(o.kind = .flag || o.isRequest)

end OptionSpec

/-- What is wrong with the use of a command. -/
inductive UsageError where
  | noSuchOption (form : String) (similar : List String)
  | noSuchCommand (name : String)
  | missingCommand
  | missingArgument (name : String)
  | extraArguments (words : List String)
  | missingValue (form : String)
  | needlessValue (form : String)
  | notInteger (option : OptionSpec) (text : String)
  | notBoolean (option : OptionSpec) (text : String)
  /-- A value that a command refuses for a reason of its own. -/
  | refused (parameter reason : String)

/-- How a wrong use is reported. -/
def UsageError.message : UsageError → String
  | noSuchOption form [] => s!"No such option: {form}"
  | noSuchOption form [known] => s!"No such option: {form} Did you mean {known}?"
  | noSuchOption form known =>
    let list := ", ".intercalate known
    s!"No such option: {form} (Possible options: {list})"
  | noSuchCommand name => s!"No such command {(Json.str name).shown}."
  | missingCommand => "Missing command."
  | missingArgument name => s!"Missing argument '{name}'."
  | extraArguments words =>
    let list := " ".intercalate words
    if words.length = 1 then s!"Got unexpected extra argument ({list})"
    else s!"Got unexpected extra arguments ({list})"
  | missingValue form => s!"Option {(Json.str form).shown} requires an argument."
  | needlessValue form => s!"Option {(Json.str form).shown} does not take a value."
  | notInteger option text =>
    s!"Invalid value for {option.hint}: {(Json.str text).shown} is not a valid integer."
  | notBoolean option text =>
    s!"Invalid value for {option.hint}: {(Json.str text).shown} is not a valid boolean."
  | refused parameter reason => s!"Invalid value for {parameter}: {reason}"

/-! ## Words -/

/-- An option found among the words, with its value if it takes one. -/
structure Given where
  option : OptionSpec
  value : Option String
deriving DecidableEq, Repr

/-- What a word with options says: these options, and perhaps one more that takes the next word as
its value. -/
structure Word where
  given : List Given
  waiting : Option (OptionSpec × String)

/-- The option that every command has besides its own. -/
def helpOption : OptionSpec := ⟨none, "help", "HELP", .request⟩

/-- The letters of a word of short options. The rest of the word is the value of an option that
takes one. -/
def readShort (options : List OptionSpec) : List Char → Except UsageError Word
  | [] => .ok ⟨[], none⟩
  | c :: rest =>
    match options.find? fun o => o.short = some c with
    | none => .error (.noSuchOption (String.ofList ['-', c]) [])
    | some o =>
      if o.takesValue then
        if rest.isEmpty then .ok ⟨[], some (o, String.ofList ['-', c])⟩
        else .ok ⟨[⟨o, some (String.ofList rest)⟩], none⟩
      else do
        let word ← readShort options rest
        return { word with given := ⟨o, none⟩ :: word.given }

/-- A word that begins with a dash. It is tried as a long option first. -/
def readOption (options : List OptionSpec) (word : List Char) : Except UsageError Word :=
  let form := String.ofList (word.takeWhile (· ≠ '='))
  let joined := (word.dropWhile (· ≠ '=')).tail?
  match options.find? fun o => o.longForm = form with
  | some o =>
    match joined with
    | some value =>
      if o.takesValue then .ok ⟨[⟨o, some (String.ofList value)⟩], none⟩
      else .error (.needlessValue form)
    | none =>
      if o.takesValue then .ok ⟨[], some (o, form)⟩ else .ok ⟨[⟨o, none⟩], none⟩
  | none =>
    if "--".toList.isPrefixOf word then
      .error (.noSuchOption form (Similar.closest form (options.map OptionSpec.longForm)))
    else readShort options word.tail

/-- Sorts words into options and other words. Without `interspersed` the first other word ends the
options. -/
def scan (options : List OptionSpec) (interspersed : Bool) :
    List String → Except UsageError (List Given × List String)
  | [] => .ok ([], [])
  | word :: rest =>
    let cs := word.toList
    if cs = ['-', '-'] then .ok ([], rest)
    else if cs.head? = some '-' ∧ 1 < cs.length then
      match readOption options cs with
      | .error e => .error e
      | .ok ⟨given, none⟩ => do
        let (others, words) ← scan options interspersed rest
        return (given ++ others, words)
      | .ok ⟨given, some (o, form)⟩ =>
        match rest with
        | [] => .error (.missingValue form)
        | value :: rest => do
          let (others, words) ← scan options interspersed rest
          return (given ++ ⟨o, some value⟩ :: others, words)
    else if interspersed then do
      let (others, words) ← scan options interspersed rest
      return (others, word :: words)
    else .ok ([], word :: rest)

/-! ## Values -/

/-- The value of a parameter. -/
inductive Value where
  | flag (b : Bool)
  | integer (n : Int)
  | text (s : Option String)
deriving DecidableEq, Repr

/-- The truth value that a word stands for. -/
def readBoolean (s : String) : Option Bool :=
  let isGap (c : Char) := Text.isBlank c || Text.isInformationSeparator c
  let word := String.ofList ((Text.trim isGap s.toList).map Char.toLower)
  if ["1", "true", "t", "yes", "y", "on"].contains word then some true
  else if ["0", "false", "f", "no", "n", "off"].contains word then some false
  else none

/-- The value that a text gives to an option. -/
def OptionSpec.convert (o : OptionSpec) (text : String) : Except UsageError Value :=
  match o.kind with
  | .flag | .request => match readBoolean text with
    | some b => .ok (.flag b)
    | none => .error (.notBoolean o text)
  | .integer _ => match Numeral.parse? text with
    | some n => .ok (.integer n)
    | none => .error (.notInteger o text)
  | .text => .ok (.text (some text))

/-- The value of an option that is not given. -/
def OptionSpec.absent (o : OptionSpec) : Value :=
  match o.kind with
  | .flag | .request => .flag false
  | .integer n => .integer n
  | .text => .text none

/-- The variable of an option in an environment; an empty one counts as not set. -/
def OptionSpec.fromEnvironment (o : OptionSpec) (beginning : String)
    (environment : List (String × String)) : Option String :=
  (environment.find? fun (key, _) => key = s!"{beginning}_{o.parameter}").bind fun (_, text) =>
    if text.isEmpty then none else some text

/-- The values of a command's parameters. -/
structure Values where
  options : List (String × Value)
  argument : Option String
deriving DecidableEq, Repr

namespace Values

/-- Whether a flag is set. -/
def flag (v : Values) (parameter : String) : Bool :=
  match v.options.lookup parameter with
  | some (.flag b) => b
  | _ => false

/-- The integer of a parameter. -/
def integer (v : Values) (parameter : String) : Int :=
  match v.options.lookup parameter with
  | some (.integer n) => n
  | _ => 0

/-- The text of a parameter. -/
def text (v : Values) (parameter : String) : Option String :=
  match v.options.lookup parameter with
  | some (.text s) => s
  | _ => none

end Values

namespace Command
variable (command : Command)

/-- The options of a command and the one for help. -/
def allOptions : List OptionSpec := command.options ++ [helpOption]

/-- The value of an option: the last one given, else its variable, else what holds without it. -/
def valueOf (environment : List (String × String)) (given : List Given) (o : OptionSpec) :
    Except UsageError (String × Value) := do
  let last := (given.filter fun g => g.option = o).getLast?
  let value ← match last with
    | some ⟨_, some text⟩ => o.convert text
    | some ⟨_, none⟩ => pure (.flag true)
    | none => match o.fromEnvironment command.environment environment with
      | some text => o.convert text
      | none => pure o.absent
  return (o.parameter, value)

/-- Each option once, by its first place. -/
def distinct : List OptionSpec → List OptionSpec
  | [] => []
  | o :: rest => o :: (distinct rest).filter (· ≠ o)

/-- The first of some options that is set. -/
def firstSet (environment : List (String × String)) (given : List Given) :
    List OptionSpec → Except UsageError (Option OptionSpec)
  | [] => .ok none
  | o :: rest => do
    let (_, value) ← command.valueOf environment given o
    if value = .flag true then return some o else firstSet environment given rest

/-- What is asked for before everything else. Requests on the command line are looked at first, in
the order given. -/
def requested (environment : List (String × String)) (given : List Given) :
    Except UsageError (Option OptionSpec) :=
  command.firstSet environment given
    (distinct ((given.map Given.option ++ command.allOptions).filter OptionSpec.isRequest))

/-- The values of the parameters, from the options and the words that were found. The options on
the command line are converted first, in the order given, then the argument is looked for, then
come the other options; what is left over of the words is an error at the end. -/
def values (environment : List (String × String)) (given : List Given) (others : List String) :
    Except UsageError Values := do
  let plain := command.options.filter fun o => !o.isRequest
  let named := (distinct (given.map Given.option)).filter fun o => !o.isRequest
  let first ← named.mapM (command.valueOf environment given)
  let argument ← match command.argument, others with
    | some name, [] => throw (.missingArgument name)
    | some _, word :: _ => pure (some word)
    | none, _ => pure none
  let unnamed := plain.filter fun o => !named.contains o
  let second ← unnamed.mapM (command.valueOf environment given)
  let left := if command.argument.isSome then others.drop 1 else others
  if !left.isEmpty then throw (.extraArguments left)
  return ⟨first ++ second, argument⟩

/-- What the words and the environment say: a request, or the values of the parameters. -/
def bind (environment : List (String × String)) (words : List String) :
    Except UsageError (OptionSpec ⊕ Values) := do
  let (given, others) ← scan command.allOptions true words
  match ← command.requested environment given with
  | some o => return .inl o
  | none => return .inr (← command.values environment given others)

end Command

end WordRing.CommandLine
