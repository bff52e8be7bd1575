/-!
# Bytes that may not be UTF-8

A sequence of bytes falls into pieces: well-formed characters, and ill-formed pieces, each the
longest run of bytes that a well-formed character could start with, or else one byte.

* `validLength` counts the bytes before the first ill-formed piece.
* `repaired` reads the well-formed characters and puts U+FFFD in place of each ill-formed piece.
-/

namespace ContentSecurity.Text

/-- The ranges in which the bytes after a first byte have to lie; none if no character starts
with that byte. -/
def followers (first : UInt8) : Option (List (UInt8 × UInt8)) :=
  let any : UInt8 × UInt8 := (0x80, 0xBF)
  if first ≤ 0x7F then some []
  else if first ≤ 0xC1 then none
  else if first ≤ 0xDF then some [any]
  else if first == 0xE0 then some [(0xA0, 0xBF), any]
  else if first == 0xED then some [(0x80, 0x9F), any]
  else if first ≤ 0xEF then some [any, any]
  else if first == 0xF0 then some [(0x90, 0xBF), any, any]
  else if first ≤ 0xF3 then some [any, any, any]
  else if first == 0xF4 then some [(0x80, 0x8F), any, any]
  else none

/-- How many of the bytes lie, one by one, in the ranges. -/
def countIn : List (UInt8 × UInt8) → List UInt8 → Nat
  | (low, high) :: ranges, byte :: bytes =>
    if low ≤ byte && byte ≤ high then countIn ranges bytes + 1 else 0
  | _, _ => 0

/-- One stretch of a sequence of bytes. -/
inductive Piece where
  /-- A first byte and the bytes that complete the character. -/
  | wellFormed (first : UInt8) (others : List UInt8)
  /-- Bytes that belong to no character. -/
  | illFormed (bytes : List UInt8)

/-- The pieces of a sequence of bytes, in order. -/
def pieces : List UInt8 → List Piece
  | [] => []
  | first :: rest =>
    match followers first with
    | none => .illFormed [first] :: pieces rest
    | some ranges =>
      let count := countIn ranges rest
      let piece :=
        if count = ranges.length then Piece.wellFormed first (rest.take count)
        else Piece.illFormed (first :: rest.take count)
      piece :: pieces (rest.drop count)
termination_by bytes => bytes.length

namespace Piece

/-- The character that a piece stands for. -/
def char : Piece → Char
  | .illFormed _ => '\uFFFD'
  | .wellFormed first others =>
    let lead :=
      match others.length with
      | 0 => first.toNat
      | 1 => first.toNat % 0x20
      | 2 => first.toNat % 0x10
      | _ => first.toNat % 0x08
    .ofNat (others.foldl (fun code byte => code * 0x40 + byte.toNat % 0x40) lead)

/-- Number of bytes up to the first ill-formed piece. -/
def validLength : List Piece → Nat
  | .wellFormed _ others :: pieces => others.length + 1 + validLength pieces
  | _ => 0

end Piece

/-- Number of bytes before the first that belongs to no character. -/
def validLength (bytes : ByteArray) : Nat :=
  Piece.validLength (pieces bytes.data.toList)

/-- The text of the bytes, with U+FFFD for each ill-formed piece. -/
def repaired (bytes : ByteArray) : String :=
  .ofList ((pieces bytes.data.toList).map Piece.char)

end ContentSecurity.Text
