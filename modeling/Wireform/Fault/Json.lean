import Wireform.Fault
import Wireform.Json
import Wireform.Limits

/-!
# Faults as JSON

A fault with nothing to tell is written as its name; any other is an object whose one key is the
name, over the text or number that the fault holds or over an object of its parts. Reading also
accepts `null` under the name of a fault with nothing to tell, the parts in an array, and parts
with no meaning here, but no part twice. A fault of input or output has no JSON form.
-/

namespace Wireform.Fault

/-! ### Writing -/

/-- An object, its members already written. -/
def writeObject (members : List (String × String)) : String :=
  "\x7b" ++ ",".intercalate (members.map fun (key, v) => Json.quote key ++ ":" ++ v) ++ "\x7d"

/-- What a fault holds, `none` if nothing. -/
def writeContent : Fault → Option String
  | malformedVarInt | malformedVarLong | unexpectedMessage => none
  | underflow requested available =>
    writeObject [("requested", toString requested), ("available", toString available)]
  | stringTooLong length max => writeObject [("length", toString length), ("max", toString max)]
  | structureDecode cause => Json.quote cause.message
  | structureEncode cause => Json.quote cause.message
  | bitSetTooLong declared max =>
    writeObject [("declared", toString declared), ("max", toString max)]
  | typeMismatch cause =>
    writeObject [("expected", Json.quote cause.expected), ("found", Json.quote cause.found)]
  | oversizedPacket size => toString size
  | config cause => Json.quote cause.message
  | io text => Json.quote text

/-- The JSON form of a fault, if it has one. -/
def toJson? (f : Fault) : Option String :=
  match f with
  | io _ => none
  | f =>
    match f.writeContent with
    | none => Json.quote f.name
    | some content => writeObject [(f.name, content)]

/-! ### Reading -/

/-- An integer from `low` to `high`. Zero has no sign. -/
def readInt? (low high : Int) : Json → Option Int
  | .number ('-' :: digits) => do
    if !digits.all Char.isDigit then failure
    let n : Int := Scanner.decimalValue digits
    if 0 < n ∧ low ≤ -n ∧ -n ≤ high then return -n
    failure
  | .number digits => do
    if !digits.all Char.isDigit then failure
    let n : Int := Scanner.decimalValue digits
    if low ≤ n ∧ n ≤ high then return n
    failure
  | _ => none

/-- An addressable size. -/
def readSize? (v : Json) : Option Nat := (readInt? 0 sizeMax v).map Int.toNat

def readText? : Json → Option String
  | .string raw => Json.decode? raw
  | _ => none

/-- The parts of a fault with two parts, by name or in order. -/
def readParts? (first second : String) : Json → Option (Json × Json)
  | .array [a, b] => some (a, b)
  | .object members => do
    let named ← members.mapM fun (key, v) => do return (← Json.decode? key, v)
    match named.filter (·.1 = first), named.filter (·.1 = second) with
    | [(_, a)], [(_, b)] => return (a, b)
    | _, _ => none
  | _ => none

/-- The fault of a name that holds something. -/
def readContent? (name : String) (v : Json) : Option Fault :=
  match name with
  | "MalformedVarInt" => if v matches .null then some malformedVarInt else none
  | "MalformedVarLong" => if v matches .null then some malformedVarLong else none
  | "UnexpectedMessage" => if v matches .null then some unexpectedMessage else none
  | "Underflow" => do
    let (requested, available) ← readParts? "requested" "available" v
    return underflow (← readSize? requested) (← readSize? available)
  | "StringTooLong" => do
    let (length, max) ← readParts? "length" "max" v
    let length ← readInt? (-0x8000000000000000) 0x7FFFFFFFFFFFFFFF length
    return stringTooLong length (← readSize? max)
  | "StructureDecode" => (readText? v).map fun text => structureDecode (.described text)
  | "StructureEncode" => (readText? v).map fun text => structureEncode (.described text)
  | "BitSetTooLong" => do
    let (declared, max) ← readParts? "declared" "max" v
    return bitSetTooLong (← readInt? (-0x80000000) 0x7FFFFFFF declared) (← readSize? max)
  | "TypeMismatch" => do
    let (expected, found) ← readParts? "expected" "found" v
    return typeMismatch (.described (← readText? expected) (← readText? found))
  | "OversizedPacket" => (readSize? v).map oversizedPacket
  | "ConfigError" => (readText? v).map fun text => config (.described text)
  | _ => none

/-- The fault of a JSON value. -/
def ofValue? : Json → Option Fault
  | .string raw => do
    match ← Json.decode? raw with
    | "MalformedVarInt" => return malformedVarInt
    | "MalformedVarLong" => return malformedVarLong
    | "UnexpectedMessage" => return unexpectedMessage
    | _ => none
  | .object [(key, v)] => do readContent? (← Json.decode? key) v
  | _ => none

/-- The fault of a JSON text. -/
def ofJson? (s : String) : Option Fault :=
  match Json.parse s with
  | .ok v => ofValue? v
  | .error _ => none

end Wireform.Fault
