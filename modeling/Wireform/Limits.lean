/-!
# Limits

What a buffer accepts when it decodes: how long a string may be, how much a tree of tags may be
charged, how deep it may nest. Sizes are addressable sizes: a sum of sizes stays at `sizeMax` once
it gets there.
-/

namespace Wireform

/-- The largest addressable size. -/
def sizeMax : Nat := 0xFFFFFFFFFFFFFFFF

/-- The largest frame that a length of three seven-bit groups can declare. -/
def maxFrameBytes : Nat := 0x1FFFFF

/-- Addition that stays at the largest size. -/
def satAdd (a b : Nat) : Nat := min (a + b) sizeMax

/-- Multiplication that stays at the largest size. -/
def satMul (a b : Nat) : Nat := min (a * b) sizeMax

/-- The decode limits carried by a buffer. -/
structure Limits where
  /-- The longest string accepted, in UTF-16 units. -/
  stringUnits : Nat
  /-- The charge one tree of tags may run up. -/
  nbtQuota : Nat
  /-- The deepest nesting of one tree of tags. -/
  nbtDepth : Nat
  deriving DecidableEq, Repr

namespace Limits

/-- The longest string accepted by default. -/
def defaultStringUnits : Nat := 32767

/-- The charge accepted by default. -/
def defaultNbtQuota : Nat := 2 * 1024 * 1024

/-- The nesting accepted by default. -/
def defaultNbtDepth : Nat := 512

/-- What the protocol itself enforces. -/
def standard : Limits := ⟨defaultStringUnits, defaultNbtQuota, defaultNbtDepth⟩

instance : Inhabited Limits := ⟨standard⟩

end Limits

end Wireform
