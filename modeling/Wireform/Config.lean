import Wireform.Decoder
import Wireform.Config.Settings
import Wireform.Text.Utf8
import Wireform.Toml.Document

/-!
# Configurations

A configuration comes from a TOML document, from a file that holds one, or from the environment,
over defaults. In a document both sections may be missing; a section that is there has to name all
of its settings, and a section may also be an array of its settings in order. Keys with no meaning
here are ignored. The first setting that cannot be used, in the order of the document, is the one
reported.
-/

namespace Wireform

/-- All settings. -/
structure Config where
  codec : Config.CodecSettings
  logging : Config.LogSettings
  deriving DecidableEq, Repr

namespace Config

def standard : Config := ⟨.standard, .standard⟩

instance : Inhabited Config := ⟨standard⟩

/-- What is wrong with a configuration. -/
def problems (c : Config) : List Problem := c.codec.problems ++ c.logging.problems

/-- Refuses a configuration with problems. -/
def check (c : Config) : Except Fault Unit :=
  match c.problems with
  | [] => .ok ()
  | problems => .error (.config (.invalid problems))

/-! ### Reading -/

section Reading

open Toml

/-- A size. -/
def sizeOf : Node → Except String Nat
  | .integer n => if n < 0 then .error "size expected, negative number found" else .ok n.toNat
  | _ => .error "size expected"

def textOf : Node → Except String String
  | .string s => .ok s
  | _ => .error "string expected"

def flagOf : Node → Except String Bool
  | .boolean b => .ok b
  | _ => .error "truth value expected"

def levelOf (n : Node) : Except String LogLevel := do
  let s ← textOf n
  match LogLevel.parse? s with
  | some level => return level
  | none => .error ("Invalid log level: " ++ s)

/-- The settings of a section by name. An array gives them in order. -/
def section? (names : List String) : Node → Option Entries
  | .table _ es => some es
  | .array items => some (names.zip items)
  | .tables elements => some (names.zip (elements.map (.table .header)))
  | _ => none

/-- The setting of a name. -/
def setting (es : Entries) (name : String) (read : Node → Except String α) : Except String α :=
  match es.get? name with
  | none => .error ("missing setting: " ++ name)
  | some n => read n

/-- Reads each setting in the order of the section and drops what it holds. -/
def tryAll (es : Entries) (readers : List (String × (Node → Except String Unit))) :
    Except String Unit :=
  es.forM fun (name, n) =>
    match readers.lookup name with
    | some read => read n
    | none => .ok ()

/-- Reads a value and drops it. -/
def drop (read : Node → Except String α) (n : Node) : Except String Unit := do
  let _ ← read n

def codecNames : List String :=
  ["max_string_length", "nbt_max_bytes", "nbt_max_depth", "max_frame_size"]

def codecOf (n : Node) : Except String CodecSettings := do
  match section? codecNames n with
  | none => .error "table of the codec expected"
  | some es =>
    tryAll es (codecNames.map fun name => (name, drop sizeOf))
    return ⟨← setting es "max_string_length" sizeOf, ← setting es "nbt_max_bytes" sizeOf,
      ← setting es "nbt_max_depth" sizeOf, ← setting es "max_frame_size" sizeOf⟩

def logNames : List String := ["app_name", "log_level", "json_format"]

def loggingOf (n : Node) : Except String LogSettings := do
  match section? logNames n with
  | none => .error "table of the log expected"
  | some es =>
    tryAll es [("app_name", drop textOf), ("log_level", drop levelOf), ("json_format", drop flagOf)]
    return ⟨← setting es "app_name" textOf, ← setting es "log_level" levelOf,
      ← setting es "json_format" flagOf⟩

/-- The configuration that a table holds. -/
def ofEntries (es : Entries) : Except String Config :=
  es.foldlM (fun c (name, n) => do
    if name = "codec" then return { c with codec := ← codecOf n }
    else if name = "logging" then return { c with logging := ← loggingOf n }
    else return c) standard

/-- The configuration that a document holds. The reason of a refusal stands on a line of its
own. -/
def ofToml (s : String) : Except Fault Config :=
  match (do ofEntries (← Document.parse s)) with
  | .ok c => .ok c
  | .error reason => .error (.config (.parse ("TOML parse error\n" ++ reason ++ "\n")))

end Reading

/-- The configuration in the content of a file, if there is such a file. -/
def ofFile (content? : Option Bytes) : Except Fault Config :=
  match content? with
  | none => .error (.config (.openFile "no such file"))
  | some content =>
    match Utf8.decode? content with
    | none => .error (.config (.readFile "no valid UTF-8"))
    | some s => ofToml s

/-- The defaults with what the environment says instead. A variable that cannot be used is
ignored. -/
def ofEnvironment (lookup : String → Option String) : Config where
  codec :=
    let size (name : String) (default : Nat) : Nat := ((lookup name).bind parseSize?).getD default
    { stringUnits := size "PACKET_BRIDGE_MAX_STRING_LENGTH" CodecSettings.standard.stringUnits
      nbtQuota := size "PACKET_BRIDGE_NBT_MAX_BYTES" CodecSettings.standard.nbtQuota
      nbtDepth := CodecSettings.standard.nbtDepth
      maxFrame := size "PACKET_BRIDGE_MAX_FRAME_SIZE" CodecSettings.standard.maxFrame }
  logging :=
    { LogSettings.standard with
      level := ((lookup "PACKET_BRIDGE_LOG_LEVEL").bind LogLevel.parse?).getD
        LogSettings.standard.level }

/-! ### Writing -/

/-- The largest integer that a document can hold. -/
def maxTomlInteger : Nat := 0x7FFFFFFFFFFFFFFF

/-- A setting on a line of its own. -/
def line (name value : String) : String := name ++ " = " ++ value ++ "\n"

/-- A size on a line of its own, unless no document can hold it. -/
def sizeLine (name : String) (n : Nat) : Except Fault String :=
  if maxTomlInteger < n then .error (.config (.serialize ("number out of range: " ++ name)))
  else .ok (line name (toString n))

/-- The document that holds a configuration. -/
def toToml (c : Config) : Except Fault String := do
  let units ← sizeLine "max_string_length" c.codec.stringUnits
  let quota ← sizeLine "nbt_max_bytes" c.codec.nbtQuota
  let depth ← sizeLine "nbt_max_depth" c.codec.nbtDepth
  let frame ← sizeLine "max_frame_size" c.codec.maxFrame
  return "[codec]\n" ++ units ++ quota ++ depth ++ frame ++ "\n[logging]\n" ++
    line "app_name" (Toml.Quoted.quote c.logging.appName) ++
    line "log_level" (Toml.Quoted.quote c.logging.level.name) ++
    line "json_format" (if c.logging.json then "true" else "false")

/-- The document that holds the defaults. -/
def exampleDocument : String :=
  match standard.toToml with
  | .ok s => s
  | .error _ => "# Failed to generate example config"

/-- What a file holds once a configuration has been saved in it; the file may not be writable. -/
def save (c : Config) (writable : Bool) : Except Fault String := do
  let document ← c.toToml
  if !writable then throw (.config (.writeFile "no such directory"))
  return document

end Config

end Wireform
