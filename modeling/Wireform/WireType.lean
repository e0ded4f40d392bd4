/-!
# Wire types

`WireType` is the closed set of encodings a field can have on the wire, `Kind` the set of native
types that values have in memory. Every wire type carries values of exactly one kind; `varInt` and
`int` share one, and so do `varLong` and `long`.
-/

namespace Wireform

/-- The encodings of the protocol. -/
inductive WireType where
  | varInt
  | varLong
  | unsignedByte
  | byte
  | string
  | nbt
  | bitSet
  | boolean
  | short
  | int
  | long
  | float
  | double
  | identifier
  | uuid
  deriving DecidableEq, Repr, Inhabited

/-- The native types of values. -/
inductive Kind where
  | int32
  | int64
  | uint8
  | int8
  | bool
  | int16
  | float32
  | float64
  | text
  | nbt
  | bitSet
  | identifier
  | uuid
  deriving DecidableEq, Repr, Inhabited

/-- The name a mismatch report gives a native type. -/
def Kind.name : Kind → String
  | .int32 => "i32"
  | .int64 => "i64"
  | .uint8 => "u8"
  | .int8 => "i8"
  | .bool => "bool"
  | .int16 => "i16"
  | .float32 => "f32"
  | .float64 => "f64"
  | .text => "String"
  | .nbt => "Option<NbtCompound>"
  | .bitSet => "BitSet"
  | .identifier => "Identifier"
  | .uuid => "u128"

namespace WireType

/-- Every wire type, in the order of the protocol's list. -/
def all : List WireType :=
  [.varInt, .varLong, .unsignedByte, .byte, .string, .nbt, .bitSet, .boolean, .short, .int, .long,
    .float, .double, .identifier, .uuid]

theorem mem_all (t : WireType) : t ∈ all := by cases t <;> decide

/-- The name a wire type is displayed by. -/
def name : WireType → String
  | varInt => "VarInt"
  | varLong => "VarLong"
  | unsignedByte => "UnsignedByte"
  | byte => "Byte"
  | string => "String"
  | nbt => "NbtCompoundOrNull"
  | bitSet => "BitSet"
  | boolean => "Boolean"
  | short => "Short"
  | int => "Int"
  | long => "Long"
  | float => "Float"
  | double => "Double"
  | identifier => "Identifier"
  | uuid => "Uuid"

/-- The wire type of a given name, if there is one. -/
def ofName? (s : String) : Option WireType :=
  all.find? (·.name == s)

/-- The width of a fixed-width encoding in bytes, `none` if the width depends on the value. -/
def width? : WireType → Option Nat
  | boolean | byte | unsignedByte => some 1
  | short => some 2
  | int | float => some 4
  | long | double => some 8
  | uuid => some 16
  | varInt | varLong | string | nbt | bitSet | identifier => none

/-- The native type of the values a wire type carries. -/
def kind : WireType → Kind
  | varInt | int => .int32
  | varLong | long => .int64
  | unsignedByte => .uint8
  | byte => .int8
  | boolean => .bool
  | short => .int16
  | float => .float32
  | double => .float64
  | string => .text
  | nbt => .nbt
  | bitSet => .bitSet
  | identifier => .identifier
  | uuid => .uuid

end WireType

end Wireform
