/-!
# Binary floating point numbers and 128-bit identities

Floating point numbers are kept as the bits of their IEEE 754 interchange form, so a value read
from the wire is written back unchanged, whatever kind of NaN it is. `ieeeEq` is the equality of
the standard on those bits: a NaN differs from everything, the two zeros are equal, and any other
number equals itself alone.
-/

namespace Wireform

/-- A single precision number by its bits. -/
structure Binary32 where
  bits : UInt32
  deriving DecidableEq, Repr, Inhabited

/-- A double precision number by its bits. -/
structure Binary64 where
  bits : UInt64
  deriving DecidableEq, Repr, Inhabited

namespace Binary32

/-- A NaN has the largest exponent and a fraction that is not zero. -/
def isNaN (x : Binary32) : Bool := 0x7f800000 < x.bits &&& 0x7fffffff

/-- Zero of either sign. -/
def isZero (x : Binary32) : Bool := x.bits &&& 0x7fffffff = 0

def ieeeEq (x y : Binary32) : Bool :=
  !x.isNaN && !y.isNaN && (x.bits = y.bits || (x.isZero && y.isZero))

end Binary32

namespace Binary64

/-- A NaN has the largest exponent and a fraction that is not zero. -/
def isNaN (x : Binary64) : Bool := 0x7ff0000000000000 < x.bits &&& 0x7fffffffffffffff

/-- Zero of either sign. -/
def isZero (x : Binary64) : Bool := x.bits &&& 0x7fffffffffffffff = 0

def ieeeEq (x y : Binary64) : Bool :=
  !x.isNaN && !y.isNaN && (x.bits = y.bits || (x.isZero && y.isZero))

end Binary64

/-- A 128-bit identity in two halves, the more significant one first. -/
structure Uuid where
  high : UInt64
  low : UInt64
  deriving DecidableEq, Repr, Inhabited

end Wireform
