/-!
# Base64

Bytes are written in groups of three as four digits of six bits each.  A last group of one or two
bytes has two or three digits and is filled up with the sign `=`; the bits of its last digit that
belong to no byte are zero.  `encode` writes this form, and `decode` accepts it alone.

A refusal is an offset, that of the byte to blame where there is one.  The last one to eight bytes,
from the last multiple of eight on that still leaves a byte, are where padding may stand; before
them every byte has to be a digit.
-/

namespace ContentSecurity.Base64

/-- Which digits stand for 62 and 63. -/
inductive Alphabet where
  /-- `+` and `/` -/
  | standard
  /-- `-` and `_`, which need no escaping in a URL -/
  | urlSafe
  deriving DecidableEq, Repr

/-- The sign `=`. -/
def padding : UInt8 :=
  0x3D

namespace Alphabet

/-- The digit for 62. -/
def plus : Alphabet → UInt8
  | .standard => 0x2B
  | .urlSafe => 0x2D

/-- The digit for 63. -/
def slash : Alphabet → UInt8
  | .standard => 0x2F
  | .urlSafe => 0x5F

/-- The digit for a number below 64: the capitals, the small letters, the decimal digits and the
two of the alphabet. -/
def digit (alphabet : Alphabet) (value : Nat) : UInt8 :=
  if value < 26 then .ofNat (0x41 + value)
  else if value < 52 then .ofNat (0x61 + (value - 26))
  else if value < 62 then .ofNat (0x30 + (value - 52))
  else if value = 62 then alphabet.plus
  else alphabet.slash

/-- The number that a digit stands for. -/
def value? (alphabet : Alphabet) (byte : UInt8) : Option Nat :=
  if 0x41 ≤ byte ∧ byte ≤ 0x5A then some (byte.toNat - 0x41)
  else if 0x61 ≤ byte ∧ byte ≤ 0x7A then some (byte.toNat - 0x61 + 26)
  else if 0x30 ≤ byte ∧ byte ≤ 0x39 then some (byte.toNat - 0x30 + 52)
  else if byte = alphabet.plus then some 62
  else if byte = alphabet.slash then some 63
  else none

end Alphabet

/-! ### Writing -/

/-- The Base64 form of a sequence of bytes. -/
def encode (alphabet : Alphabet) : List UInt8 → List UInt8
  | [] => []
  | [a] =>
    [alphabet.digit (a.toNat / 4), alphabet.digit (a.toNat % 4 * 16), padding, padding]
  | [a, b] =>
    [alphabet.digit (a.toNat / 4), alphabet.digit (a.toNat % 4 * 16 + b.toNat / 16),
      alphabet.digit (b.toNat % 16 * 4), padding]
  | a :: b :: c :: rest =>
    alphabet.digit (a.toNat / 4) ::
    alphabet.digit (a.toNat % 4 * 16 + b.toNat / 16) ::
    alphabet.digit (b.toNat % 16 * 4 + c.toNat / 64) ::
    alphabet.digit (c.toNat % 64) :: encode alphabet rest

/-! ### Reading -/

/-- The bytes that six-bit numbers make up, bits left over dropped. -/
def bytes : List Nat → List UInt8
  | a :: b :: c :: d :: rest =>
    .ofNat (a * 4 + b / 16) :: .ofNat (b % 16 * 16 + c / 4) :: .ofNat (c % 4 * 64 + d) ::
      bytes rest
  | [a, b, c] => [.ofNat (a * 4 + b / 16), .ofNat (b % 16 * 16 + c / 4)]
  | [a, b] => [.ofNat (a * 4 + b / 16)]
  | _ => []

/-- The bits of six-bit numbers that make up no whole byte. -/
def leftover : List Nat → Nat
  | _ :: _ :: _ :: _ :: rest => leftover rest
  | [_, _, c] => c % 4
  | [_, b] => b % 16
  | _ => 0

/-- The numbers of bytes that all have to be digits, the first of them at `offset`. -/
def digits (alphabet : Alphabet) (offset : Nat) : List UInt8 → Except Nat (List Nat)
  | [] => .ok []
  | byte :: rest =>
    match alphabet.value? byte with
    | none => .error offset
    | some value => (digits alphabet (offset + 1) rest).map (value :: ·)

/-- How many signs of padding there are, if nothing else is left.  They stand in the second half
of a group; otherwise the first of them, at `blame`, is wrong.  The next byte is number `index` of
the closing part. -/
def paddings (blame : Nat) (index : Nat) : List UInt8 → Except Nat Nat
  | [] => .ok 0
  | byte :: rest =>
    if byte = padding ∧ 2 ≤ index % 4 then
      (paddings blame (index + 1) rest).map (· + 1)
    else
      .error blame

/-- The numbers of the closing part, which starts at `offset`, and how many signs of padding
follow them.  The next byte is number `index` of that part. -/
def closing (alphabet : Alphabet) (offset index : Nat) :
    List UInt8 → Except Nat (List Nat × Nat)
  | [] => .ok ([], 0)
  | byte :: rest =>
    if byte = padding then
      (paddings (offset + index) index (byte :: rest)).map fun count => ([], count)
    else
      match alphabet.value? byte with
      | none => .error (offset + index)
      | some value =>
        (closing alphabet offset (index + 1) rest).map fun (values, count) =>
          (value :: values, count)

/-- The bytes that a Base64 form stands for, or the offset at which it is refused. -/
def decode (alphabet : Alphabet) (form : List UInt8) : Except Nat (List UInt8) := do
  let size := form.length
  if size % 4 = 1 then
    match form.getLast? with
    | some last =>
      if last ≠ padding ∧ alphabet.value? last = none then .error (size - 1) else .error size
    | none => .error size
  else
    let start := (size - 1) / 8 * 8
    let front ← digits alphabet 0 (form.take start)
    let (back, count) ← closing alphabet start 0 (form.drop start)
    if (back.length + count) % 4 ≠ 0 then
      .error size
    else if leftover back ≠ 0 then
      .error (start + back.length - 1)
    else
      .ok (bytes (front ++ back))

end ContentSecurity.Base64
