import ContentSecurity.Error
/-!
# Limits

How much of a header is read before it is refused.
-/

namespace ContentSecurity

/-- The greatest header length in bytes, number of directives, and number of sources in one
directive. -/
structure Limits where
  headerLength : Nat := 16384
  directives : Nat := 256
  sources : Nat := 512
  deriving DecidableEq, Repr

namespace Limits

/-- The greatest number that a limit can be. -/
def greatest : Nat :=
  UInt64.size - 1

/-- Limits that no header in memory passes. -/
def unbounded : Limits :=
  ⟨greatest, greatest, greatest⟩

/-- The limit on a quantity, the greatest where there is none of its own. -/
def of (limits : Limits) : Quantity → Nat
  | .headerLength => limits.headerLength
  | .directiveCount => limits.directives
  | .sourceCount => limits.sources
  | .other _ => greatest

/-- Refuse a quantity above its limit. -/
def check (limits : Limits) (quantity : Quantity) (actual : Nat) : Except Error Unit :=
  if actual > limits.of quantity then
    .error (.limitExceeded quantity (limits.of quantity) actual)
  else
    .ok ()

end Limits

end ContentSecurity
