import Wireform.Binary

/-!
# Named tags

Trees of typed tags. A compound keeps its entries in ascending order of their keys, each key once:
`Compound.insert` and `Compound.erase` keep that order, so two compounds with the same entries are
the same list. Strings compare by code point, which is the order of their UTF-8 bytes.
-/

namespace Wireform.Nbt

/-- A value in a tree. -/
inductive Tag where
  | byte (v : Int8)
  | short (v : Int16)
  | int (v : Int32)
  | long (v : Int64)
  | float (v : Binary32)
  | double (v : Binary64)
  | byteArray (vs : List Int8)
  | text (s : String)
  | list (items : List Tag)
  | compound (entries : List (String × Tag))
  | intArray (vs : List Int32)
  | longArray (vs : List Int64)
  deriving Inhabited

/-- Tags by key, keys ascending. -/
abbrev Compound := List (String × Tag)

/-- The number that ends a compound in the place of a tag's number. -/
def endId : UInt8 := 0

namespace Tag

/-- The number of a tag's type on the wire. -/
def id : Tag → UInt8
  | byte _ => 1
  | short _ => 2
  | int _ => 3
  | long _ => 4
  | float _ => 5
  | double _ => 6
  | byteArray _ => 7
  | text _ => 8
  | list _ => 9
  | compound _ => 10
  | intArray _ => 11
  | longArray _ => 12

/-- The number of the compound type, with which every tree begins. -/
def compoundId : UInt8 := 10

/-- The largest number of a tag's type. -/
def maxId : UInt8 := 12

end Tag

mutual

/-- Equality of tags, floating point numbers compared as numbers. -/
def Tag.ieeeEq : Tag → Tag → Bool
  | .byte a, .byte b => a == b
  | .short a, .short b => a == b
  | .int a, .int b => a == b
  | .long a, .long b => a == b
  | .float a, .float b => a.ieeeEq b
  | .double a, .double b => a.ieeeEq b
  | .byteArray a, .byteArray b => a == b
  | .text a, .text b => a == b
  | .list a, .list b => itemsIeeeEq a b
  | .compound a, .compound b => entriesIeeeEq a b
  | .intArray a, .intArray b => a == b
  | .longArray a, .longArray b => a == b
  | _, _ => false
termination_by structural a => a

/-- Equality of lists, item by item. -/
def itemsIeeeEq : List Tag → List Tag → Bool
  | [], [] => true
  | a :: as, b :: bs => a.ieeeEq b && itemsIeeeEq as bs
  | _, _ => false
termination_by structural a => a

/-- Equality of entries, key and tag. -/
def entriesIeeeEq : List (String × Tag) → List (String × Tag) → Bool
  | [], [] => true
  | (k, a) :: as, (l, b) :: bs => k == l && a.ieeeEq b && entriesIeeeEq as bs
  | _, _ => false
termination_by structural a => a

end

namespace Compound

def ieeeEq (c d : Compound) : Bool := entriesIeeeEq c d

/-- Puts a tag under a key, in the place of the one that was there. -/
def insert (key : String) (tag : Tag) : Compound → Compound
  | [] => [(key, tag)]
  | (k, t) :: rest =>
    if key < k then (key, tag) :: (k, t) :: rest
    else if key = k then (key, tag) :: rest
    else (k, t) :: insert key tag rest

/-- Takes out a key and its tag. -/
def erase (key : String) (c : Compound) : Compound := c.filter (·.1 ≠ key)

/-- The tag under a key. -/
def get? (key : String) (c : Compound) : Option Tag := (c.find? (·.1 = key)).map (·.2)

/-- Whether there is a tag under a key. -/
def contains (key : String) (c : Compound) : Bool := (get? key c).isSome

/-- The compound of some entries, of equal keys the last. -/
def ofList (entries : List (String × Tag)) : Compound :=
  entries.foldl (fun c (key, tag) => insert key tag c) []

/-- The `int` under a key. -/
def int? (key : String) (c : Compound) : Option Int32 :=
  match get? key c with
  | some (.int v) => some v
  | _ => none

/-- The text under a key. -/
def text? (key : String) (c : Compound) : Option String :=
  match get? key c with
  | some (.text s) => some s
  | _ => none

/-- The compound under a key. -/
def compound? (key : String) (c : Compound) : Option Compound :=
  match get? key c with
  | some (.compound entries) => some entries
  | _ => none

end Compound

end Wireform.Nbt
