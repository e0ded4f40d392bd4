import Wireform.WireType

/-!
# Layouts

Where the fields of a synthesized buffer start and what they were written as. Offsets ascend, so a
field is found by halving the range it can be in.
-/

namespace Wireform

/-- The offset and the wire type of each field, in order. -/
structure Layout where
  fields : Array (Nat × WireType)
  deriving DecidableEq, Repr

namespace Layout

def empty : Layout := ⟨#[]⟩

/-- Adds a field behind the others. -/
def push (l : Layout) (offset : Nat) (t : WireType) : Layout := ⟨l.fields.push (offset, t)⟩

/-- The number of fields. -/
def size (l : Layout) : Nat := l.fields.size

/-- The index of the field at an offset, if it is in the range from `low` to `high`, the latter
excluded. -/
def search (fields : Array (Nat × WireType)) (offset low high : Nat) : Option Nat :=
  if low < high then
    let mid := low + (high - low) / 2
    match fields[mid]? with
    | none => none
    | some (start, _) =>
      if start = offset then some mid
      else if start < offset then search fields offset (mid + 1) high
      else search fields offset low mid
  else none
termination_by high - low
decreasing_by all_goals omega

/-- The index and the wire type of the field that starts at an offset. -/
def find? (l : Layout) (offset : Nat) : Option (Nat × WireType) := do
  let index ← search l.fields offset 0 l.size
  let (_, t) ← l.fields[index]?
  return (index, t)

end Layout

end Wireform
