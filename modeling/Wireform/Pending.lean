import Wireform.Value

/-!
# Pending fields

The list of fields a packet will be synthesized from. It only grows: a push adds a field at the
end, or fails and leaves the list as it was.
-/

namespace Wireform

/-- Fields in the order in which they will be written. -/
structure PendingFields where
  fields : List Field
  deriving Inhabited

namespace PendingFields

def empty : PendingFields := ⟨[]⟩

/-- Adds a value to be written as a wire type, unless the native types differ. -/
def push (p : PendingFields) (tag : WireType) (value : Value) : Except Fault PendingFields := do
  return ⟨p.fields ++ [← Field.make tag value]⟩

/-- The number of fields. -/
def size (p : PendingFields) : Nat := p.fields.length

def isEmpty (p : PendingFields) : Bool := p.fields.isEmpty

/-- The wire types in order. -/
def tags (p : PendingFields) : List WireType := p.fields.map (·.tag)

/-- The values in order. -/
def values (p : PendingFields) : List Value := p.fields.map (·.value)

end PendingFields

end Wireform
