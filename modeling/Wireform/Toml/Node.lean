/-!
# TOML documents as trees

A document is a tree of nodes with the keys of each table in the order in which they first
appeared. A table remembers how it came about, because that decides what may still be added to it:
a table from a header or in braces is complete, one implied by a longer header can still get its
own header, and one made by dotted keys can only grow by dotted keys.
-/

namespace Wireform.Toml

/-- How a table came about. -/
inductive Origin where
  /-- In braces, or the table that holds a whole document. -/
  | whole
  /-- By its own header. -/
  | header
  /-- As a parent in a header. -/
  | implied
  /-- As a parent in a dotted key. -/
  | dotted
  deriving DecidableEq, Repr, Inhabited

/-- A value or a table. Floating point numbers and times are kept as they are written. -/
inductive Node where
  | string (s : String)
  | integer (n : Int)
  | float (literal : String)
  | boolean (b : Bool)
  | time (literal : String)
  | array (items : List Node)
  | table (origin : Origin) (entries : List (String × Node))
  | tables (elements : List (List (String × Node)))
  deriving Inhabited

/-- The keys of a table and what they lead to, in order. -/
abbrev Entries := List (String × Node)

namespace Entries

/-- What a key leads to. -/
def get? (key : String) (es : Entries) : Option Node := (es.find? (·.1 = key)).map (·.2)

/-- Takes out a key. -/
def erase (key : String) (es : Entries) : Entries := es.filter (·.1 ≠ key)

/-- Puts a node under a key: in its place if the key is there, else at the end. -/
def put (key : String) (n : Node) : Entries → Entries
  | [] => [(key, n)]
  | (k, m) :: rest => if k = key then (k, n) :: rest else (k, m) :: put key n rest

/-- Changes the table that a path leads to from here, the table at the start being of origin
`origin`. Missing tables are made, by dotted keys or by a header as `dotted` says; a path goes
through the last element of an array of tables. -/
def alter (dotted : Bool) (f : Origin → Entries → Except String Entries) :
    List String → Origin → Entries → Except String Entries
  | [], origin, es => f origin es
  | key :: path, _, es =>
    match get? key es with
    | none => do
      let made := if dotted then Origin.dotted else .implied
      return put key (.table made (← alter dotted f path made [])) es
    | some (.table origin inner) =>
      if origin = .whole ∨ (dotted ∧ origin = .header) then
        .error ("table is complete: " ++ key)
      else do
        return put key (.table origin (← alter dotted f path origin inner)) es
    | some (.tables elements) =>
      match elements.getLast? with
      | none => .error ("empty array of tables: " ++ key)
      | some inner => do
        let inner ← alter dotted f path .header inner
        return put key (.tables (elements.dropLast ++ [inner])) es
    | some _ => .error ("not a table: " ++ key)

/-- The table that a path leads to, through the last elements of arrays of tables. -/
def follow? : List String → Entries → Option Entries
  | [], es => some es
  | key :: path, es =>
    match get? key es with
    | some (.table _ inner) => follow? path inner
    | some (.tables elements) => elements.getLast?.bind (follow? path)
    | _ => none

/-- Adds a value under a dotted key. The table it is added to must have been made by dotted keys
just if the key has more than one part. -/
def insert (path : List String) (key : String) (n : Node) (es : Entries) :
    Except String Entries :=
  alter true (fun origin es =>
    if origin = .dotted ↔ path = [] then .error ("table is not made by dotted keys: " ++ key)
    else if (get? key es).isSome then .error ("duplicate key: " ++ key)
    else .ok (put key n es)) path .header es

end Entries

end Wireform.Toml
