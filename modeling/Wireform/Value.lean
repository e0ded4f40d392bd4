import Wireform.BitSet
import Wireform.Identifier
import Wireform.Nbt.Tree

/-!
# Values

The values that fields hold in memory, one constructor per native type. A value fits a wire type
when its native type is the one the wire type carries; a `Field` is a value together with a wire
type that it fits.
-/

namespace Wireform

/-- A native value. -/
inductive Value where
  | int32 (v : Int32)
  | int64 (v : Int64)
  | uint8 (v : UInt8)
  | int8 (v : Int8)
  | bool (v : Bool)
  | int16 (v : Int16)
  | float32 (v : Binary32)
  | float64 (v : Binary64)
  | text (s : String)
  | nbt (tree : Option Nbt.Tree)
  | bitSet (s : BitSet)
  | identifier (i : Identifier)
  | uuid (u : Uuid)
  deriving Inhabited

namespace Value

/-- The native type of a value. -/
def kind : Value → Kind
  | int32 _ => .int32
  | int64 _ => .int64
  | uint8 _ => .uint8
  | int8 _ => .int8
  | bool _ => .bool
  | int16 _ => .int16
  | float32 _ => .float32
  | float64 _ => .float64
  | text _ => .text
  | nbt _ => .nbt
  | bitSet _ => .bitSet
  | identifier _ => .identifier
  | uuid _ => .uuid

/-- A value fits the wire types that carry its native type. -/
def Fits (v : Value) (t : WireType) : Prop := v.kind = t.kind

instance (v : Value) (t : WireType) : Decidable (v.Fits t) :=
  inferInstanceAs (Decidable (v.kind = t.kind))

/-- Equality of values, floating point numbers compared as numbers. -/
def ieeeEq : Value → Value → Bool
  | int32 a, int32 b => a == b
  | int64 a, int64 b => a == b
  | uint8 a, uint8 b => a == b
  | int8 a, int8 b => a == b
  | bool a, bool b => a == b
  | int16 a, int16 b => a == b
  | float32 a, float32 b => a.ieeeEq b
  | float64 a, float64 b => a.ieeeEq b
  | text a, text b => a == b
  | nbt none, nbt none => true
  | nbt (some a), nbt (some b) => a.entries.ieeeEq b.entries
  | bitSet a, bitSet b => a == b
  | identifier a, identifier b => a == b
  | uuid a, uuid b => a == b
  | _, _ => false

end Value

/-- A value and the wire type it is written as. -/
structure Field where
  tag : WireType
  value : Value
  fits : value.Fits tag

namespace Field

instance : Inhabited Field := ⟨⟨.varInt, .int32 0, rfl⟩⟩

/-- Pairs a value with a wire type, unless the native types differ. -/
def make (tag : WireType) (value : Value) : Except Fault Field :=
  if fits : value.Fits tag then .ok ⟨tag, value, fits⟩
  else .error (.typeMismatch (.native tag value.kind))

end Field

end Wireform
