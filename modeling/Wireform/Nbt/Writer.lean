import Wireform.Nbt.Tree
import Wireform.Emission
import Wireform.Text.ModifiedUtf8

/-!
# Writing trees

A tree is written as the number of the compound type, an empty name and the entries; each entry is
the number of its type, its key and its payload, and a zero ends the entries. Numbers are
big-endian. A list begins with the type its items share and their count; a list whose items differ
in type is refused before any of it is written.
-/

namespace Wireform.Nbt

/-- Appends to the bytes written so far. -/
abbrev Writer := EStateM WriteFault (Array UInt8)

namespace Writer

/-- Appends bytes. -/
def put (bytes : Bytes) : Writer Unit := modify fun out => out ++ bytes.toArray

/-- Appends a number of a given width. -/
def number (width n : Nat) : Writer Unit := put (Bytes.ofNat width n)

/-- Appends a text behind its length. -/
def text (s : String) : Writer Unit := do
  match ModifiedUtf8.encode s with
  | .ok bytes =>
    number 2 bytes.length
    put bytes
  | .error e => throw e

/-- The longest list or array: a count is a positive 32-bit number. -/
def maxCount : Nat := 0x7FFFFFFF

/-- Appends a count. -/
def count (n : Nat) : Writer Unit := do
  if maxCount < n then throw (.lengthOverflow n)
  number 4 n

end Writer

/-- The type that the items of a list share: the type of the first, or the end mark if there are
none. -/
def itemId : List Tag → UInt8
  | [] => endId
  | item :: _ => item.id

mutual

/-- Writes a tag without its type. -/
def Tag.write : Tag → Writer Unit
  | .byte v => .number 1 v.toUInt8.toNat
  | .short v => .number 2 v.toUInt16.toNat
  | .int v => .number 4 v.toUInt32.toNat
  | .long v => .number 8 v.toUInt64.toNat
  | .float v => .number 4 v.bits.toNat
  | .double v => .number 8 v.bits.toNat
  | .byteArray vs => do
    .count vs.length
    .put (vs.map (·.toUInt8))
  | .text s => .text s
  | .list items => do
    if !items.all (·.id == itemId items) then throw .mixedList
    .put [itemId items]
    .count items.length
    writeItems items
  | .compound entries => writeEntries entries
  | .intArray vs => do
    .count vs.length
    .put (vs.flatMap fun v => Bytes.ofNat 4 v.toUInt32.toNat)
  | .longArray vs => do
    .count vs.length
    .put (vs.flatMap fun v => Bytes.ofNat 8 v.toUInt64.toNat)
termination_by structural t => t

/-- Writes the items of a list. -/
def writeItems : List Tag → Writer Unit
  | [] => return
  | item :: rest => do
    item.write
    writeItems rest
termination_by structural items => items

/-- Writes entries and the end mark. -/
def writeEntries : List (String × Tag) → Writer Unit
  | [] => .put [endId]
  | (key, tag) :: rest => do
    .put [tag.id]
    .text key
    tag.write
    writeEntries rest
termination_by structural entries => entries

end

/-- Writes a tree under an empty name. -/
def Tree.write (t : Tree) : Writer Unit := do
  .put [Tag.compoundId]
  .text ""
  writeEntries t.entries

/-- The bytes of a tree. -/
def Tree.emit (t : Tree) : Emission :=
  match t.write #[] with
  | .ok _ out => ⟨out.toList, none⟩
  | .error e out => ⟨out.toList, some (.structureEncode e)⟩

end Wireform.Nbt
