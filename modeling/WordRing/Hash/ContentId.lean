import WordRing.Error
import WordRing.Hash.Sha256
import WordRing.Json.Canonical

/-!
# Digests and content identifiers

Hash functions are asked for by name, in capitals or not. The library has one, under the names
that are registered for it, and refuses the others. The content identifier of a byte string is its
SHA-256 digest, marked with the identifier's version, the codec and the hash function, in base32
with a leading `b` for the base: the lower-case alphabet `a`–`z`, `2`–`7`, one letter for five bits,
without padding. Values are identified by their canonical JSON.

## Main definitions

* `Digest.named name b` — the digest under the hash function of a name.
* `Base32.encode b` — a byte string in base32.
* `ContentId.ofBytes b`, `ContentId.ofJson d` — the identifier of a byte string and of a value.
-/
namespace WordRing

namespace Digest

/-- The name of the hash function that all identifiers use. -/
def algorithm : String := "sha256"

/-- All names of that hash function, in small letters; the last is its object identifier. -/
def names : List String := [algorithm, "sha-256", "sha2-256", "2.16.840.1.101.3.4.2.1"]

/-- The digest of a byte string under the hash function of a name. A text with a NUL is no name. -/
def named (name : String) (b : Bytes) : Except Error Bytes :=
  if name.toList.contains '\x00' then .error (.notName (.str name))
  else if names.contains (String.ofList (name.toList.map Char.toLower)) then .ok (Sha256.digest b)
  else .error (.hashUnavailable name)

/-- A byte string in hexadecimal. -/
def hex (b : Bytes) : List Char := b.flatMap fun x => Digits.padded 16 2 x.toNat

end Digest

namespace Base32

/-- The 32 letters. -/
def alphabet : List Char := "abcdefghijklmnopqrstuvwxyz234567".toList

/-- The eight bits of a byte, most significant first. -/
def bitsOf (x : UInt8) : List Bool := (List.range 8).map fun i => Bytes.bit x (7 - i)

/-- The letter for five bits, most significant first. -/
def letter (bits : List Bool) : Char :=
  alphabet.getD (bits.foldl (fun n b => 2 * n + b.toNat) 0) 'a'

/-- The letters for a string of bits. The last group is filled up with zero bits. -/
def letters : List Bool → List Char
  | a :: b :: c :: d :: e :: rest => letter [a, b, c, d, e] :: letters rest
  | [] => []
  | rest => [letter (rest ++ List.replicate (5 - rest.length) false)]

/-- The base32 text of a byte string. -/
def encode (b : Bytes) : List Char := letters (b.flatMap bitsOf)

end Base32

namespace ContentId

/-- Version 1, codec `dag-json` as a two-byte varint, SHA-256, 32 bytes. -/
def header : Bytes := [0x01, 0xA9, 0x02, 0x12, 0x20]

/-- The identifier of a byte string. -/
def ofBytes (b : Bytes) : List Char := 'b' :: Base32.encode (header ++ Sha256.digest b)

/-- The identifier of a text, through its UTF-8 bytes. -/
def ofText (s : String) : List Char := ofBytes (Bytes.ofText s)

/-- The identifier of a value, through its canonical text. -/
def ofJson (d : Json) : List Char := ofText d.canonical

/-- The leading characters of the identifier of a value. -/
def abridged (length : Nat) (d : Json) : String := String.ofList ((ofJson d).take length)

end ContentId

end WordRing
