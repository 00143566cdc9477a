import WordRing.Quantum

/-!
# Content addresses

Every byte has a Braille character of its own, and the address of a word lists the code points of
its bytes. An address is no digest: it gives the bytes back. Reading picks the segments out of a
text, a `U` and four hexadecimal digits each, and passes over everything else.
-/
namespace WordRing.Address

/-- What addresses begin with. -/
def base : String := "https://uor.foundation/u/"

/-- The code point of the blank Braille pattern. -/
def brailleBase : Nat := 0x2800

/-- The code point of a byte. -/
def codepoint (x : UInt8) : Nat := brailleBase + x.toNat

/-- The lowest byte of an integer. -/
def lowByte (n : Int) : UInt8 := UInt8.ofNat (n % 256).toNat

/-- The Braille characters of a byte string. -/
def glyphs (b : Bytes) : String := String.ofList (b.map fun x => Char.ofNat (codepoint x))

/-- The code points of a byte string as they are usually written, with blanks between them. -/
def codepoints (b : Bytes) : String :=
  " ".intercalate (b.map fun x => "U+" ++ String.ofList (Digits.upperHex 4 (codepoint x)))

/-- The segment of a byte. -/
def segment (x : UInt8) : List Char := 'U' :: Digits.upperHex 4 (codepoint x)

/-- The address of a byte string without the base. -/
def path (b : Bytes) : List Char := b.flatMap segment

/-- The address of a byte string. -/
def ofBytes (b : Bytes) : String := base ++ String.ofList (path b)

/-- The address of an integer at a quantum level. -/
def ofInt (q : Quantum) (n : Int) : String := ofBytes (q.word n)

/-- The byte of a code point. -/
def byteOf (cp : Nat) : Except Error UInt8 :=
  if brailleBase ≤ cp ∧ cp ≤ brailleBase + 0xFF then .ok (UInt8.ofNat (cp - brailleBase))
  else .error (.codepointOutside cp)

/-- The bytes of the segments in a text, from left to right. -/
def segments : List Char → Except Error Bytes
  | 'U' :: a :: b :: c :: d :: rest =>
    match Digits.ofDigits 16 [a, b, c, d] with
    | some cp => do
      let x ← byteOf cp
      let xs ← segments rest
      return x :: xs
    | none => segments (a :: b :: c :: d :: rest)
  | _ :: rest => segments rest
  | [] => .ok []

/-- The text after the base, if it begins with it. -/
def withoutBase (iri : String) : List Char :=
  let cs := iri.toList
  if base.toList.isPrefixOf cs then cs.drop base.length else cs

/-- The bytes that an address stands for, with or without its base. -/
def toBytes (iri : String) : Except Error Bytes := do
  let b ← segments (withoutBase iri)
  if b.isEmpty then throw (.noSegments iri)
  return b

end WordRing.Address
