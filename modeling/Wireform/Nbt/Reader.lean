import Wireform.Nbt.Tag
import Wireform.Limits
import Wireform.Text.ModifiedUtf8

/-!
# Reading trees

Reading charges an estimate of what each part of the tree takes in memory against a quota, before
the part is read, and stops at a nesting depth. The levels of nesting still allowed are what the
recursion descends on; the entries of a compound are bounded by the bytes at hand, of which each
entry takes at least one.
-/

namespace Wireform.Nbt

/-- What reading a tree may use up. -/
structure Budget where
  quota : Nat
  depth : Nat
  deriving DecidableEq, Repr

/-- What has been charged, and the bytes left. -/
structure Progress where
  used : Nat
  rest : Bytes
  deriving DecidableEq, Repr

/-- Reads from the bytes left and charges for it. -/
abbrev Reader := EStateM ReadFault Progress

/-! ### What the parts of a tree are charged -/

namespace Cost

def byte : Nat := 9
def short : Nat := 10
def int : Nat := 12
def long : Nat := 16

/-- An array of `n` elements of `width` bytes. -/
def array (n width : Nat) : Nat := satAdd 24 (satMul n width)

/-- A text of `n` bytes as written. -/
def text (n : Nat) : Nat := satAdd 36 (satMul n 2)

/-- A list of `n` items, without the items. -/
def list (n : Nat) : Nat := satAdd 37 (satMul n 4)

/-- A compound without its entries. -/
def compound : Nat := 48

/-- An entry of a compound, without its key and its tag. -/
def entry : Nat := 28

end Cost

namespace Reader

/-- Adds to the charge. The charge stays over the quota once it is. -/
def charge (quota cost : Nat) : Reader Unit := do
  let used := satAdd (← get).used cost
  modify ({ · with used })
  if quota < used then throw (.overQuota used quota)

/-- The next `n` bytes. -/
def take (n : Nat) : Reader Bytes := fun s =>
  match Decoder.take n s.rest with
  | .ok bytes rest => .ok bytes { s with rest }
  | .error (.underflow needed available) rest =>
    .error (.truncated needed available) { s with rest }
  | .error e rest => .error (.described e.message) { s with rest }

/-- The number in the next `width` bytes. -/
def number (width : Nat) : Reader Nat := do return (← take width).value

/-- The number of a type. -/
def typeId : Reader UInt8 := do return UInt8.ofNat (← number 1)

/-- A count of items, elements or bytes. -/
def count : Reader Nat := do
  let n := Int32.ofNat (← number 4)
  if n < 0 then throw (.negativeLength n.toInt)
  return n.toInt.toNat

/-- A text behind its length. -/
def text (quota : Nat) : Reader String := do
  let size ← number 2
  charge quota (Cost.text size)
  match ModifiedUtf8.decode (← take size) with
  | .ok s => return s
  | .error e => throw e

/-- The results of `n` runs in a row. -/
def replicate (n : Nat) (read : Reader α) : Reader (List α) := go n []
where
  go : Nat → List α → Reader (List α)
  | 0, acc => return acc.reverse
  | n + 1, acc => do go n ((← read) :: acc)

/-- Entries up to the end mark, put into `c`. The bytes at hand bound their number: `fuel` loses
one byte with each entry. -/
def entries (quota : Nat) (payload : UInt8 → Reader Tag) :
    (fuel : Bytes) → Compound → Reader Compound
  | fuel, c => do
    let id ← typeId
    if id = endId then return c
    let key ← text quota
    charge quota Cost.entry
    let tag ← payload id
    match fuel with
    | [] => throw (.truncated 1 0)
    | _ :: fuel => entries quota payload fuel (Compound.insert key tag c)
termination_by structural fuel => fuel

/-- One entry, whether or not a byte is left for another. -/
theorem entries_eq (quota : Nat) (payload : UInt8 → Reader Tag) (fuel : Bytes) (c : Compound) :
    entries quota payload fuel c = (do
      let id ← typeId
      if id = endId then return c
      let key ← text quota
      charge quota Cost.entry
      let tag ← payload id
      match fuel with
      | [] => throw (.truncated 1 0)
      | _ :: fuel => entries quota payload fuel (Compound.insert key tag c)) := by
  cases fuel <;> rfl

/-- The entries of a compound. -/
def compound (quota : Nat) (payload : UInt8 → Reader Tag) : Reader Compound := do
  charge quota Cost.compound
  entries quota payload (← get).rest []

/-- A tag of a given type, with `levels` levels of nesting still allowed. -/
def payload (budget : Budget) : (levels : Nat) → UInt8 → Reader Tag
  | 0, _ => throw (.tooDeep budget.depth)
  | levels + 1, id =>
    let charge := charge budget.quota
    match id.toNat with
    | 1 => do
      charge Cost.byte
      return .byte (Int8.ofNat (← number 1))
    | 2 => do
      charge Cost.short
      return .short (Int16.ofNat (← number 2))
    | 3 => do
      charge Cost.int
      return .int (Int32.ofNat (← number 4))
    | 4 => do
      charge Cost.long
      return .long (Int64.ofNat (← number 8))
    | 5 => do
      charge Cost.int
      return .float ⟨UInt32.ofNat (← number 4)⟩
    | 6 => do
      charge Cost.long
      return .double ⟨UInt64.ofNat (← number 8)⟩
    | 7 => do
      let n ← count
      charge (Cost.array n 1)
      return .byteArray ((← take n).map (·.toInt8))
    | 8 => do return .text (← text budget.quota)
    | 9 => do
      let item ← typeId
      let n ← count
      charge (Cost.list n)
      if item = endId ∧ 0 < n then throw .untypedList
      return .list (← replicate n (payload budget levels item))
    | 10 => do return .compound (← compound budget.quota (payload budget levels))
    | 11 => do
      let n ← count
      charge (Cost.array n 4)
      return .intArray (← replicate n do return Int32.ofNat (← number 4))
    | 12 => do
      let n ← count
      charge (Cost.array n 8)
      return .longArray (← replicate n do return Int64.ofNat (← number 8))
    | n => throw (.unknownTag n)

/-- A tree: the compound type, a name that is not kept, and the entries. The root is at depth
zero. -/
def tree (budget : Budget) : Reader Compound := do
  let id ← typeId
  if id ≠ Tag.compoundId then throw .rootNotCompound
  let _ ← text budget.quota
  compound budget.quota (payload budget budget.depth)

end Reader

end Wireform.Nbt
