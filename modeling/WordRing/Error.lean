import WordRing.Coherence.Law
import WordRing.Json.Inspect

/-!
# Errors

Everything that can be wrong with what the library is given, one constructor for each cause, and
the sentence that reports it.
-/
namespace WordRing

/-- Why an operation was refused. -/
inductive Error where
  /-- A quantum level that is no integer. -/
  | quantumNotInteger (got : Json)
  /-- A quantum level below zero. -/
  | quantumNegative (got : Int)
  /-- A bit width that is no positive multiple of eight. -/
  | bitWidth (got : Int)
  /-- An operand with too few or too many bytes. -/
  | operandWidth (expected got : Nat)
  /-- An item of an operand that is no byte. -/
  | itemNotByte (index : Nat) (got : Json)
  /-- An operand that is neither an integer nor a sequence. -/
  | notSequence (got : Json)
  /-- A value without an integer meaning. -/
  | notInteger (got : Json)
  /-- An integer outside `0 … 255` where a byte is due. -/
  | notByte (got : Int)
  /-- A constant that is no integer. -/
  | constantNotInteger (got : Json)
  /-- A variable name that is no identifier. -/
  | variableName (got : Json)
  /-- An operand that is no term. -/
  | notTerm (got : Json)
  /-- A name that no unary operator has. -/
  | unknownUnary (name : String)
  /-- A name that no operator on any number of operands has. -/
  | unknownNary (name : String)
  /-- A name that no operator has. -/
  | unknownOperation (name : String)
  /-- A unary operator with a number of operands other than one. -/
  | operandCount (name : String) (got : Nat)
  /-- A value that is no structure of a term. -/
  | unreadableTerm (got : Json)
  /-- A structure of an unknown type. -/
  | unknownTermType (got : Json)
  /-- An operation that is not given by a text. -/
  | operationNotText (got : Json)
  /-- Operands that are not given as a list. -/
  | operandsNotList
  /-- A value to write or canonicalize that is no term. -/
  | unknownNode (got : Json)
  /-- A value to evaluate that is no term. -/
  | unknownTerm (got : Json)
  /-- A width to which no constant can be written. -/
  | widthOutside (got : Int)
  /-- A variable met during evaluation. -/
  | unboundVariable (name : String)
  /-- A code point of an address that stands for no byte. -/
  | codepointOutside (got : Nat)
  /-- An address without a segment. -/
  | noSegments (iri : String)
  /-- A value that cannot name anything. -/
  | notName (got : Json)
  /-- A hash function that is not available. -/
  | hashUnavailable (algorithm : String)
  /-- A law that failed while checking stops at the first failure. -/
  | coherence (violation : Violation)
  /-- A grade that does not exist. -/
  | unknownGrade (name : String)
  /-- A field that a record does not have. -/
  | noSuchField (name : String)
  /-- A record that was not kept. -/
  | noSuchRecord (name : String)
  /-- A ring that was not made. -/
  | noSuchRing (index : Nat)

/-- The sentence that reports an error. -/
def Error.message : Error → String
  | quantumNotInteger got => s!"Quantum must be an integer, got {got.shown}"
  | quantumNegative got => s!"Quantum must be non-negative, got {got}"
  | bitWidth got => s!"Bit width must be a positive multiple of 8, got {got}"
  | operandWidth expected got => s!"Expected {expected} bytes, got {got}"
  | itemNotByte index got => s!"Byte {index} out of range: {got.shown}"
  | notSequence got => s!"Not a sequence of bytes: {got.shown}"
  | notInteger got => s!"Not an integer: {got.shown}"
  | notByte got => s!"Not a byte: {got}"
  | constantNotInteger got => s!"Constant must be an integer, got {got.shown}"
  | variableName got => s!"Invalid variable name: {got.shown}"
  | notTerm got => s!"Not a term: {got.shown}"
  | unknownUnary name => s!"Unknown unary operation: {name}"
  | unknownNary name => s!"Unknown n-ary operation: {name}"
  | unknownOperation name => s!"Unknown operation: {name}"
  | operandCount name got => s!"{name} takes exactly one operand, got {got}"
  | unreadableTerm got => s!"Cannot read term from {got.shown}"
  | unknownTermType got => s!"Unknown term type: {got.shown}"
  | operationNotText got => s!"Invalid operation: {got.shown}"
  | operandsNotList => "operands must be a list"
  | unknownNode got => s!"Unknown term node: {got.shown}"
  | unknownTerm got => s!"Unknown term: {got.shown}"
  | widthOutside got => s!"Width must be non-negative and below 2^62, got {got}"
  | unboundVariable name => s!"Cannot evaluate unbound variable: ?{name}"
  | codepointOutside got =>
    s!"Codepoint U+{String.ofList (Digits.upperHex 4 got)} is outside U+2800..U+28FF"
  | noSegments iri => s!"No U\x7bHEX4\x7d segments in IRI: {iri}"
  | notName got => s!"Not a name: {got.shown}"
  | hashUnavailable algorithm => s!"Hash algorithm unavailable: {algorithm}"
  | coherence v => s!"Coherence violation {v.message}"
  | unknownGrade name => s!"Unknown grade: {name}"
  | noSuchField name => s!"No such field: {name}"
  | noSuchRecord name => s!"No such record: {name}"
  | noSuchRing index => s!"No such ring: {index}"

end WordRing
