import SimpleBinary.Bytes

/-!
UTF-8 read one byte at a time. A byte that cannot continue the character begun before it ends that
character as an error; each maximal beginning of a character and each stray byte is one error.
-/

namespace SimpleBinary.Utf8

/-- A character begun: the scalar value of the bytes so far, the number of bytes still owed, and
the range of the next one. -/
structure Partial where
  value : Nat
  owed : Nat
  low : Nat
  high : Nat
  deriving DecidableEq, Repr

inductive Step where
  | char (c : Char)
  | more (begun : Partial)
  | invalid
  deriving DecidableEq, Repr

def first (byte : UInt8) : Step :=
  let b := byte.toNat
  if b < 0x80 then .char (Char.ofNat b)
  else if b < 0xc2 then .invalid
  else if b < 0xe0 then .more ⟨b - 0xc0, 1, 0x80, 0xbf⟩
  else if b < 0xf0 then
    .more ⟨b - 0xe0, 2, if b = 0xe0 then 0xa0 else 0x80, if b = 0xed then 0x9f else 0xbf⟩
  else if b < 0xf5 then
    .more ⟨b - 0xf0, 3, if b = 0xf0 then 0x90 else 0x80, if b = 0xf4 then 0x8f else 0xbf⟩
  else .invalid

def continue? (begun : Partial) (byte : UInt8) : Step :=
  let b := byte.toNat
  if begun.low ≤ b ∧ b ≤ begun.high then
    let value := begun.value * 64 + (b - 0x80)
    if begun.owed = 1 then .char (Char.ofNat value)
    else .more ⟨value, begun.owed - 1, 0x80, 0xbf⟩
  else .invalid

def scan : Option Partial → Bytes → List (Option Char)
  | none, [] => []
  | some _, [] => [none]
  | none, byte :: rest =>
    match first byte with
    | .char c => some c :: scan none rest
    | .more begun => scan (some begun) rest
    | .invalid => none :: scan none rest
  | some begun, byte :: rest =>
    match continue? begun byte with
    | .char c => some c :: scan none rest
    | .more next => scan (some next) rest
    | .invalid =>
      -- The byte that cannot continue a character may begin another one.
      none :: match first byte with
        | .char c => some c :: scan none rest
        | .more next => scan (some next) rest
        | .invalid => none :: scan none rest

def decode? (bytes : Bytes) : Option String :=
  ((scan none bytes).mapM id).map String.ofList

def decodeLossy (bytes : Bytes) : String :=
  String.ofList ((scan none bytes).map fun c => c.getD '\ufffd')

end SimpleBinary.Utf8
