import Wireform.Toml.Literal
import Wireform.Toml.Quoted

/-!
# Reading TOML documents

A document is a sequence of lines: blank ones, comments, keys with values, and headers that open a
table for the keys that follow. `parse` gives the table of the whole document. Values nest, and
dotted keys extend, to less than `nestingLimit` levels; that bound is what the reader recurses on.
-/

namespace Wireform.Toml

/-- Values nested this deep, and keys of this many parts, are refused. -/
def nestingLimit : Nat := 80

namespace Document

def isBlank (c : Char) : Bool := c = ' ' || c = '\t'

def isBareKey (c : Char) : Bool := c.isAlphanum || c = '_' || c = '-'

def skipBlanks : Scanner Unit := do
  let _ ← Scanner.takeWhile isBlank

/-- A comment up to the end of its line. -/
def comment : Scanner Unit := do
  Scanner.expect '#'
  let _ ← Scanner.takeWhile Quoted.isPlain

/-- A line break. -/
def lineBreak : Scanner Unit := do
  match ← Scanner.rest with
  | '\n' :: rest => set rest
  | '\r' :: '\n' :: rest => set rest
  | _ => throw "line break expected"

/-- A line break or the end of the document. -/
def lineEnd : Scanner Unit := do
  if !(← Scanner.rest).isEmpty then lineBreak

/-- What may stand behind a value or a header on its line. -/
def trailing : Scanner Unit := do
  skipBlanks
  if (← Scanner.peek?) = some '#' then comment
  lineEnd

/-- Blanks, line breaks and comments between the items of an array. -/
def skipSpace (fuel : List Char) : Scanner Unit := do
  skipBlanks
  let more ← (do
    match ← Scanner.peek? with
    | some '#' =>
      comment
      return true
    | some '\n' | some '\r' =>
      lineBreak
      return true
    | _ => return false)
  match more, fuel with
  | true, _ :: fuel => skipSpace fuel
  | _, _ => return
termination_by structural fuel

def space : Scanner Unit := do skipSpace (← Scanner.rest)

/-! ### Keys -/

/-- One part of a key. -/
def simpleKey : Scanner String := do
  match ← Scanner.peek? with
  | some '"' => Quoted.single
  | some '\'' => Quoted.single
  | _ =>
    match ← Scanner.takeWhile isBareKey with
    | [] => throw "key expected"
    | cs => return String.ofList cs

/-- The parts of a key, with blanks around each. -/
def keyParts (fuel : List Char) : Scanner (List String) := do
  skipBlanks
  let part ← simpleKey
  skipBlanks
  match ← Scanner.peek?, fuel with
  | some '.', _ :: fuel =>
    Scanner.advance
    return part :: (← keyParts fuel)
  | _, _ => return [part]
termination_by structural fuel

/-- A key: its last part, and the path before that. -/
def key : Scanner (List String × String) := do
  let parts ← keyParts (← Scanner.rest)
  if nestingLimit ≤ parts.length then throw "key of too many parts"
  match parts.getLast? with
  | none => throw "key expected"
  | some last => return (parts.dropLast, last)

/-! ### Values -/

/-- The items of an array and its closing bracket; `acc` holds the items read, in reverse. -/
def arrayItems (value : Scanner Node) : (fuel : List Char) → (acc : List Node) → Scanner Node
  | fuel, acc => do
    space
    if (← Scanner.peek?) = some ']' then
      Scanner.advance
      return .array acc.reverse
    let item ← value
    space
    match ← Scanner.peek?, fuel with
    | some ',', _ :: fuel =>
      Scanner.advance
      arrayItems value fuel (item :: acc)
    | _, _ =>
      Scanner.expect ']'
      return .array (item :: acc).reverse
termination_by structural fuel => fuel

/-- The keys of a table in braces and its closing brace, added to `es`. -/
def inlineEntries (value : Scanner Node) : (fuel : List Char) → Entries → Scanner Node
  | fuel, es => do
    let (path, name) ← key
    Scanner.expect '='
    skipBlanks
    let item ← value
    skipBlanks
    match es.insert path name item with
    | .error e => throw e
    | .ok es =>
      match ← Scanner.peek?, fuel with
      | some ',', _ :: fuel =>
        Scanner.advance
        inlineEntries value fuel es
      | _, _ =>
        Scanner.expect '\x7d'
        return .table .whole es
termination_by structural fuel => fuel

/-- A table in braces, behind the opening brace. -/
def inlineTable (value : Scanner Node) : Scanner Node := do
  skipBlanks
  if (← Scanner.peek?) = some '\x7d' then
    Scanner.advance
    return .table .whole []
  inlineEntries value (← Scanner.rest) []

/-- A value with fewer than `levels` arrays and tables around one another. -/
def value (levels : Nat) : Scanner Node := do
  match ← Scanner.peek?, levels with
  | some '[', levels + 1 =>
    Scanner.advance
    arrayItems (value levels) (← Scanner.rest) []
  | some '\x7b', levels + 1 =>
    Scanner.advance
    inlineTable (value levels)
  | some '"', _ => return .string (← Quoted.any)
  | some '\'', _ => return .string (← Quoted.any)
  | _, _ => Literal.scan
termination_by structural levels

/-! ### Tables -/

/-- The document so far: the tables that are closed, and the table that keys are being added to,
with the path and the name that its header gave it. -/
structure Progress where
  closed : Entries
  header? : Option (List String × String × Bool)
  current : Entries
  deriving Inhabited

namespace Progress

/-- Nothing read: keys are added to the table of the whole document. -/
def start : Progress := ⟨[], none, []⟩

/-- Puts the current table where its header says: as a new element of an array of tables, or as a
table of its own. -/
def close (p : Progress) : Except String Entries :=
  match p.header? with
  | none => .ok p.current
  | some (path, name, isElement) =>
    p.closed.alter false (fun _ es =>
      match es.get? name, isElement with
      | none, true => .ok (es.put name (.tables [p.current]))
      | some (.tables elements), true => .ok (es.put name (.tables (elements ++ [p.current])))
      | none, false => .ok (es.put name (.table .header p.current))
      | _, _ => .error ("duplicate table: " ++ name)) path .header

/-- Closes the current table and opens the one of a header. A table that was only implied so far is
taken out and goes on with what it has. -/
def openTable (p : Progress) (path : List String) (name : String) (isElement : Bool) :
    Except String Progress := do
  let closed ← p.close
  let entered ← closed.alter false (fun _ es => .ok es) path .header
  let parent := (entered.follow? path).getD []
  match parent.get? name, isElement with
  | none, _ => return ⟨entered, some (path, name, isElement), []⟩
  | some (.tables _), true => return ⟨entered, some (path, name, true), []⟩
  | some (.table .implied inner), false =>
    return ⟨← entered.alter false (fun _ es => .ok (es.erase name)) path .header,
      some (path, name, false), inner⟩
  | _, _ => .error ("duplicate table: " ++ name)

end Progress

/-! ### Lines -/

/-- A key and its value, added to the current table. -/
def keyLine (p : Progress) : Scanner Progress := do
  let (path, name) ← key
  Scanner.expect '='
  skipBlanks
  let item ← value (nestingLimit - 1)
  trailing
  match p.current.insert path name item with
  | .ok current => return { p with current }
  | .error e => throw e

/-- The header of a table or, in double brackets, of an element of an array of tables. -/
def headerLine (p : Progress) : Scanner Progress := do
  let isElement ← Scanner.skip? ['[', '[']
  if !isElement then Scanner.expect '['
  let (path, name) ← key
  Scanner.expect ']'
  if isElement then Scanner.expect ']'
  trailing
  match p.openTable path name isElement with
  | .ok p => return p
  | .error e => throw e

/-- The next line. -/
def line (p : Progress) : Scanner Progress := do
  match ← Scanner.peek? with
  | some '#' =>
    comment
    lineEnd
    return p
  | some '\n' | some '\r' =>
    lineBreak
    return p
  | some '[' => headerLine p
  | _ => keyLine p

/-- The lines up to the end. -/
def lines (fuel : List Char) (p : Progress) : Scanner Progress := do
  skipBlanks
  match ← Scanner.peek?, fuel with
  | some _, _ :: fuel => lines fuel (← line p)
  | _, _ => return p
termination_by structural fuel

/-- A document, behind a byte order mark if there is one. -/
def all : Scanner Entries := do
  let _ ← Scanner.skip? ['\uFEFF']
  let p ← lines (← Scanner.rest) .start
  match p.close with
  | .ok root => return root
  | .error e => throw e

/-- The table of a whole document. -/
def parse (s : String) : Except String Entries := Scanner.readAll all s.toList

end Document

end Wireform.Toml
