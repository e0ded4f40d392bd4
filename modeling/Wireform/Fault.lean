import Wireform.WireType
import Wireform.VersionRange
import Wireform.Nbt.Fault
import Wireform.Config.Problem

/-!
# Faults

Everything that can go wrong, by cause. `Fault.message` words a fault and `Fault.desynchronises`
tells the faults that desynchronise the buffer they were raised on: after one of these the framing
of the surrounding stream can no longer be trusted.
-/

namespace Wireform

/-- How a typed value or a typed read disagrees with what is there. -/
inductive Mismatch where
  /-- A value of the wrong native type for its wire type. -/
  | native (expected : WireType) (found : Kind)
  /-- A raw read where only typed reads are accepted. -/
  | untypedRead
  /-- A field of another wire type starts here. -/
  | field (expected found : WireType) (index : Nat)
  /-- All fields have been read. -/
  | pastEnd (expected : WireType) (count : Nat)
  /-- No field starts here. -/
  | midField (expected : WireType)
  /-- A field was left behind. -/
  | unreadField (found : WireType) (index : Nat)
  /-- Bytes were left behind where no field starts. -/
  | unreadBytes (count : Nat)
  | described (expected found : String)
  deriving DecidableEq, Repr, Inhabited

namespace Mismatch

def expected : Mismatch → String
  | native t _ => t.name
  | untypedRead => "typed field read"
  | field t _ _ => t.name
  | pastEnd t _ => t.name
  | midField t => t.name
  | unreadField _ _ => "end of target reader"
  | unreadBytes _ => "end of target reader"
  | described expected _ => expected

def found : Mismatch → String
  | native _ k => k.name
  | untypedRead => "untyped read from a synthesized buffer"
  | field _ t index => t.name ++ s!" at pending field {index}"
  | pastEnd _ count => s!"end of {count} pending fields"
  | midField _ => "read starting inside a pending field"
  | unreadField t index => "unread " ++ t.name ++ s!" at pending field {index}"
  | unreadBytes count => s!"{count} unread bytes"
  | described _ found => found

end Mismatch

/-- Why a setting was refused or a configuration is unavailable. -/
inductive ConfigFault where
  /-- A handler covers some of these versions already. -/
  | overlap (range registered : VersionRange)
  | parse (detail : String)
  | openFile (detail : String)
  | readFile (detail : String)
  | serialize (detail : String)
  | writeFile (detail : String)
  | invalid (problems : List Config.Problem)
  | described (text : String)
  deriving DecidableEq, Inhabited

def ConfigFault.message : ConfigFault → String
  | overlap range registered =>
    "Version range " ++ range.display ++ " overlaps registered range " ++ registered.display
  | parse detail => "Failed to parse TOML: " ++ detail
  | openFile detail => "Failed to open config file: " ++ detail
  | readFile detail => "Failed to read config file: " ++ detail
  | serialize detail => "Failed to serialize config: " ++ detail
  | writeFile detail => "Failed to write config file: " ++ detail
  | invalid problems =>
    "Configuration validation failed:\n  - " ++
      "\n  - ".intercalate (problems.map Config.Problem.message)
  | described text => text

/-- Everything that can go wrong. -/
inductive Fault where
  | underflow (requested available : Nat)
  | malformedVarInt
  | malformedVarLong
  | stringTooLong (length : Int) (max : Nat)
  | structureDecode (cause : Nbt.ReadFault)
  | structureEncode (cause : Nbt.WriteFault)
  | bitSetTooLong (declared : Int) (max : Nat)
  | typeMismatch (cause : Mismatch)
  | oversizedPacket (size : Nat)
  | io (text : String)
  | unexpectedMessage
  | config (cause : ConfigFault)
  deriving DecidableEq, Inhabited

namespace Fault

/-- The name of the class a fault belongs to. -/
def name : Fault → String
  | underflow _ _ => "Underflow"
  | malformedVarInt => "MalformedVarInt"
  | malformedVarLong => "MalformedVarLong"
  | stringTooLong _ _ => "StringTooLong"
  | structureDecode _ => "StructureDecode"
  | structureEncode _ => "StructureEncode"
  | bitSetTooLong _ _ => "BitSetTooLong"
  | typeMismatch _ => "TypeMismatch"
  | oversizedPacket _ => "OversizedPacket"
  | io _ => "Io"
  | unexpectedMessage => "UnexpectedMessage"
  | config _ => "ConfigError"

def message : Fault → String
  | underflow requested available =>
    s!"Buffer underflow: needed {requested} bytes but only {available} readable"
  | malformedVarInt => "VarInt too big"
  | malformedVarLong => "VarLong too big"
  | stringTooLong length max =>
    s!"String length {length} is longer than maximum allowed ({max})"
  | structureDecode cause => "NBT decode error: " ++ cause.message
  | structureEncode cause => "NBT encode error: " ++ cause.message
  | bitSetTooLong declared max => s!"BitSet with {declared} words is bigger than allowed {max}"
  | typeMismatch cause => "Type mismatch: expected " ++ cause.expected ++ ", found " ++ cause.found
  | oversizedPacket size => s!"Packet too large: {size} bytes"
  | io text => "I/O error: " ++ text
  | unexpectedMessage => "Unexpected message type"
  | config cause => "Configuration error: " ++ cause.message

/-- Whether a fault desynchronises the buffer it was raised on. The other faults only reject one
attempt. They leave a buffer as it was, except that a tree that is refused half way leaves what had
been written of it. -/
def desynchronises : Fault → Bool
  | underflow _ _ | malformedVarInt | malformedVarLong | stringTooLong _ _ | structureDecode _
  | bitSetTooLong _ _ | oversizedPacket _ => true
  | structureEncode _ | typeMismatch _ | io _ | unexpectedMessage | config _ => false

end Fault

end Wireform
