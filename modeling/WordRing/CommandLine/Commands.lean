import WordRing.Certificate
import WordRing.CommandLine.Arguments
import WordRing.Coherence.Check
import WordRing.Json.Indented
import WordRing.Json.Reader
import WordRing.Receipt
import WordRing.Term.Structure
import WordRing.Text

/-!
# Commands

The three commands: `verify` checks the laws of a ring, `derive` derives a term given as JSON,
and `demo` shows what canonicalization does. A run is a function of the words, the environment,
the rings and the time; it yields an exit status and two texts. Status 1 means that a ring or a
term failed, status 2 that the command was used wrongly.

Words are texts: bytes that are no text in the encoding of the machine do not come up. Integers are
read and written with any number of digits, and terms and JSON values may be nested to any depth. A
machine that limits digits or depth fails beyond its limits, where a run of this description still
gives its answer.

## Main definitions

* `CommandLine.run setting words` — what the program does with the words of its command line.
-/
namespace WordRing.CommandLine

/-- The version of the program. -/
def version : String := "0.1.0"

/-- What a run finds around it. -/
structure Setting where
  environment : List (String × String)
  /-- The ring that is made for a level. -/
  ringAt : Quantum → ByteRing
  now : String

/-- What a run leaves: an exit status and lines for either output. -/
structure Outcome where
  status : Nat
  output : List String
  errors : List String
deriving DecidableEq, Repr

namespace Outcome

/-- A run that succeeds. -/
def success (output : List String) : Outcome := ⟨0, output, []⟩

/-- A run that fails without a word of its own. -/
def stopped (output : List String) : Outcome := ⟨1, output, []⟩

/-- A run that fails with a message. -/
def failure (message : String) : Outcome := ⟨1, [], [s!"Error: {message}"]⟩

/-- A run that was asked for wrongly. -/
def misuse (e : UsageError) : Outcome := ⟨2, [], [s!"Error: {e.message}"]⟩

/-- Lines as a text for a terminal. -/
def text (lines : List String) : String := String.join (lines.map (· ++ "\n"))

/-- Lines as a text for anything else, without styling. -/
def plainText (lines : List String) : String := text (lines.map Styling.strip)

end Outcome

/-! ## Declarations -/

/-- The level of the ring. -/
def quantumOption : OptionSpec := ⟨some 'q', "quantum", "QUANTUM", .integer 0⟩

/-- Stop at the first failing law. -/
def abortOption : OptionSpec := ⟨none, "abort", "ABORT", .flag⟩

/-- Print the report as JSON. -/
def jsonOption : OptionSpec := ⟨none, "json", "AS_JSON", .flag⟩

/-- Also issue a certificate. -/
def certifyOption : OptionSpec := ⟨none, "certify", "CERTIFY", .flag⟩

/-- Also issue a receipt for a module. -/
def receiptOption : OptionSpec := ⟨none, "receipt", "MODULE_ID", .text⟩

/-- Say more on the way. -/
def verboseOption : OptionSpec := ⟨none, "verbose", "VERBOSE", .flag⟩

/-- Show the version. -/
def versionOption : OptionSpec := ⟨none, "version", "VERSION", .request⟩

/-- Checks the laws of a ring. -/
def verifyCommand : Command :=
  ⟨"verify", [quantumOption, abortOption, jsonOption], none, "UOR_VERIFY"⟩

/-- Derives a term. -/
def deriveCommand : Command :=
  ⟨"derive", [quantumOption, certifyOption, receiptOption], some "TERM_JSON", "UOR_DERIVE"⟩

/-- Shows that equivalent terms share an identifier. -/
def demoCommand : Command := ⟨"demo", [quantumOption], none, "UOR_DEMO"⟩

/-- All commands. -/
def commands : List Command := [demoCommand, deriveCommand, verifyCommand]

/-! ## Rings -/

/-- The ring of the level that was asked for. -/
def ringOf (setting : Setting) (values : Values) : Except UsageError ByteRing :=
  match Quantum.ofInt (values.integer "QUANTUM") with
  | .ok q => .ok (setting.ringAt q)
  | .error e => .error (.refused "--quantum" e.message)

/-- A failed law as a line. -/
def failureLine (failure : String) : String := s!"  ✗ {failure}"

/-- The ring of the level that was asked for, if it passes its check; otherwise the outcome. -/
def verifiedRing (setting : Setting) (values : Values) : Except Outcome ByteRing :=
  match ringOf setting values with
  | .error e => .error (.misuse e)
  | .ok r =>
    match r.verify setting.now with
    | .error _ => .error (.stopped [])
    | .ok (report, checked) =>
      if report.verified then .ok checked
      else
        let message := s!"Error: Ring Q{r.quantum.level} failed coherence verification"
        .error ⟨1, [], report.failures.map failureLine ++ [message]⟩

/-! ## Verify -/

/-- A number with commas. -/
def groupedText (n : Nat) : String := String.ofList (Digits.grouped n)

/-- The report on a ring in lines. -/
def reportLines (report : CoherenceReport) : List String :=
  let q := report.quantum
  let cycle := if q.cycle ≤ Nat.pow 2 32 then groupedText q.cycle else s!"2^{q.bits}"
  let extent := if report.sampled then "sampled" else "exhaustive"
  let walk := if report.fullCycleVerified then "verified" else "not walked"
  [s!"Quantum:            {q.level}", s!"Width:              {q.width} byte(s)",
    s!"Bits:               {q.bits}", s!"Cycle:              {cycle}",
    s!"Checks:             {groupedText report.totalChecks} ({extent})",
    s!"Full cycle:         {walk}"] ++
  if report.verified then
    ["  ✓ All coherence checks passed",
      s!"  ✓ Critical identity verified: {CoherenceReport.criticalIdentity}"]
  else []

/-- Prints a report, on a failed check with the failures among the errors. -/
def printReport (asJson : Bool) (report : CoherenceReport) : Outcome where
  status := if report.verified then 0 else 1
  output := if asJson then [report.toJson.indentedAscii] else reportLines report
  errors := if asJson then [] else report.failures.map failureLine

/-- The outcome of `verify`. -/
def verify (setting : Setting) (values : Values) : Outcome :=
  match ringOf setting values with
  | .error e => .misuse e
  | .ok r =>
    let mode := if values.flag "ABORT" then CheckMode.abort else .collect
    match r.check mode setting.now with
    | .ok report => printReport (values.flag "AS_JSON") report
    | .error (.coherence v) =>
      ⟨1, [], [s!"  ✗ Coherence failed: {(Error.coherence v).message}"]⟩
    | .error _ => .stopped []

/-! ## Derive -/

/-- The term that a JSON text gives, or why it gives none. -/
def termOfText (text : String) : Except UsageError Term :=
  match Json.parse? text with
  | none => .error (.refused "TERM_JSON" "<json>")
  | some d => match Term.ofStructure d with
    | .ok t => .ok t
    | .error e => .error (.refused "TERM_JSON" e.message)

/-- The records that were asked for, the derivation first. -/
def records (setting : Setting) (values : Values) (r : ByteRing) (t : Term) :
    Except Error (List (String × Json)) := do
  let (d, receipt) ← match values.text "MODULE_ID" with
    | some moduleId => do
      let (d, receipt) ← r.issueReceipt moduleId t setting.now
      pure (d, [("receipt", receipt.toJson)])
    | none => do pure (← r.derive t setting.now, [])
  let certificate ←
    if values.flag "CERTIFY" then do
      pure [("certificate", (← r.certify d t [] setting.now).toJson)]
    else pure []
  return ("derivation", d.toJson) :: certificate ++ receipt

/-- The outcome of `derive`. The term is read before the ring is made. -/
def derive (setting : Setting) (values : Values) : Outcome :=
  match termOfText (values.argument.getD "") with
  | .error e => .misuse e
  | .ok t =>
    match verifiedRing setting values with
    | .error outcome => outcome
    | .ok r =>
      match records setting values r t with
      | .ok members => .success [(Json.obj members).indented]
      | .error e => .failure e.message

/-! ## Demo -/

/-- An exclusive or of constants. -/
def xorOf (values : List Int) : Term := .nary .xor (values.map .const)

/-- The variable of the demonstration. -/
def demoVariable : Term := .var ⟨"x", by decide⟩

/-- A derived term with its value in Braille, or the error. -/
def demoLine (setting : Setting) (r : ByteRing) (t : Term) : String :=
  match r.derive t setting.now with
  | .ok d =>
    let glyphs := Address.glyphs (r.quantum.word d.resultValue)
    s!"  {t.written 1} → {d.canonicalTerm} = {glyphs}"
  | .error e => s!"  {t.written 1} → {e.message}"

/-- The part on canonical forms and identifiers. -/
def demoCanonical (setting : Setting) (r : ByteRing) : Except Error (List String) := do
  let d1 ← r.derive (xorOf [0x55, 0, 0xAA]) setting.now
  let d2 ← r.derive (xorOf [0x55, 0xAA]) setting.now
  let d3 ← r.derive (xorOf [0xAA, 0x55]) setting.now
  let d4 ← r.derive (xorOf [0x55, 0x55, 0xAA]) setting.now
  let same := (Json.bool (d1.id = d2.id ∧ d2.id = d3.id)).shown
  let different := (Json.bool (d4.id ≠ d1.id)).shown
  return [s!"  t1 = xor(0x55, 0, 0xAA)      → {d1.canonicalTerm}",
    s!"  t2 = xor(0x55, 0xAA)         → {d2.canonicalTerm}",
    s!"  t3 = xor(0xAA, 0x55)         → {d3.canonicalTerm}",
    s!"  t4 = xor(0x55, 0x55, 0xAA)   → {d4.canonicalTerm}",
    "", s!"  IDs equal (t1==t2==t3): {same}",
    s!"  t4 different (0x55 xor 0x55 = 0): {different}",
    s!"  t4 result: {Address.glyphs (r.quantum.word d4.resultValue)}"]

/-- A word as numbers in parentheses; a single number keeps a comma behind it. -/
def parenthesized (b : Bytes) : String :=
  let numbers := ", ".intercalate (b.map fun x => s!"{x.toNat}")
  if b.length = 1 then s!"({numbers},)" else s!"({numbers})"

/-- The part on the critical identity, line by line until the ring refuses an answer. -/
def demoIdentity (r : ByteRing) : Outcome :=
  let x := r.quantum.word 0x55
  match r.unary .bnot x >>= r.unary .neg with
  | .error _ => .stopped ["  x = 0x55"]
  | .ok left =>
    let shown := ["  x = 0x55", s!"  neg(bnot(x)) = {parenthesized left}"]
    match r.unary .succ x with
    | .error _ => .stopped shown
    | .ok right =>
      .success (shown ++ [s!"  succ(x)      = {parenthesized right}",
        s!"  Equal:       {(Json.bool (left = right)).shown}"])

/-- The outcome of `demo`. -/
def demo (setting : Setting) (values : Values) : Outcome :=
  match verifiedRing setting values with
  | .error outcome => outcome
  | .ok r =>
    let title := ["Canonicalization demo:"]
    match demoCanonical setting r with
    | .error _ => .stopped title
    | .ok lines =>
      let idempotent := [demoLine setting r (.nary .and [.const 0x55, .const 0x55, demoVariable]),
        demoLine setting r (.nary .or [.const 0xAA, .const 0xAA, .const 0x00])]
      let identity := demoIdentity r
      { identity with
        output := title ++ lines ++ ["", "Idempotence demo:"] ++ idempotent ++
          ["", "Critical identity:"] ++ identity.output }

/-! ## The program -/

/-- How a command is used. -/
def usage (command : Command) : List String :=
  let options := command.allOptions.map fun o => "  " ++ ", ".intercalate o.forms
  let argument := match command.argument with
    | some name => s!" {name}"
    | none => ""
  s!"Usage: {command.name} [OPTIONS]{argument}" :: "" :: "Options:" :: options

/-- The program as a command whose first argument names another. -/
def program : Command :=
  ⟨"wordring", [verboseOption, versionOption], some "COMMAND", "UOR"⟩

/-- What a command does with its values. -/
def perform (setting : Setting) (command : Command) (values : Values) : Outcome :=
  if command.name = verifyCommand.name then verify setting values
  else if command.name = deriveCommand.name then derive setting values
  else demo setting values

/-- The answer to a request. -/
def answer (command : Command) (o : OptionSpec) : Outcome :=
  if o = versionOption then .success [s!"{program.name}, version {version}"]
  else .success (usage command)

/-- A command with the words that follow its name. -/
def runCommand (setting : Setting) (command : Command) (words : List String) : Outcome :=
  match command.bind setting.environment words with
  | .error e => .misuse e
  | .ok (.inl o) => answer command o
  | .ok (.inr values) => perform setting command values

/-- What words say before the name of a command: a request, or the words from that name on. -/
def readProgram (setting : Setting) (words : List String) :
    Except UsageError (OptionSpec ⊕ List String) := do
  let (given, rest) ← scan program.allOptions false words
  match ← program.requested setting.environment given with
  | some o => return .inl o
  | none =>
    let _ ← program.valueOf setting.environment given verboseOption
    return .inr rest

/-- Whether a word begins with a mark, as options do, and not with a letter or a digit. -/
def looksLikeOption (word : String) : Bool :=
  word.toList.head?.any fun c => c.toNat < 128 && !c.isAlphanum

/-- A name that no command has. If it looks like an option it is tried as one first. -/
def runUnknown (setting : Setting) (name : String) (words : List String) : Outcome :=
  let unknown := Outcome.misuse (.noSuchCommand name)
  if looksLikeOption name then
    match readProgram setting (name :: words) with
    | .error e => .misuse e
    | .ok (.inl o) => answer program o
    | .ok (.inr _) => unknown
  else unknown

/-- The program with the words of its command line: its own options, the name of a command, and
the words for that. Without a word it shows how it is used. -/
def run (setting : Setting) (words : List String) : Outcome :=
  if words.isEmpty then .success (usage program)
  else
    match readProgram setting words with
    | .error e => .misuse e
    | .ok (.inl o) => answer program o
    | .ok (.inr []) => .misuse .missingCommand
    | .ok (.inr (name :: words)) =>
      match commands.find? fun command => command.name = name with
      | some command => runCommand setting command words
      | none => runUnknown setting name words

end WordRing.CommandLine
