/-!
# Faults of named tag trees

Why a tree could not be read from bytes, and why one could not be written. A fault that arrived
from elsewhere, as text, is `described`.
-/

namespace Wireform.Nbt

/-- Why bytes are no tree. -/
inductive ReadFault where
  | truncated (needed available : Nat)
  | negativeLength (declared : Int)
  | overQuota (used quota : Nat)
  | tooDeep (limit : Nat)
  | untypedList
  | unknownTag (id : Nat)
  | rootNotCompound
  | malformedText (offset : Nat)
  | described (text : String)
  deriving DecidableEq, Repr, Inhabited

def ReadFault.message : ReadFault → String
  | truncated needed available =>
    s!"unexpected end of NBT data: Buffer underflow: needed {needed} bytes but only {available} " ++
      "readable"
  | negativeLength declared => s!"negative NBT length {declared}"
  | overQuota used quota =>
    s!"Tried to read NBT tag that was too big; tried to allocate: {used} bytes where " ++
      s!"max allowed: {quota}"
  | tooDeep limit => s!"Tried to read NBT tag with too high complexity, depth > {limit}"
  | untypedList => "Missing type on ListTag"
  | unknownTag id => s!"Invalid tag id: {id}"
  | rootNotCompound => "Root tag must be a named compound tag"
  | malformedText offset => s!"malformed modified UTF-8 around byte {offset}"
  | described text => text

/-- Why a tree has no bytes. -/
inductive WriteFault where
  | mixedList
  | textTooLong (bytes : Nat)
  | lengthOverflow (length : Nat)
  | described (text : String)
  deriving DecidableEq, Repr, Inhabited

def WriteFault.message : WriteFault → String
  | mixedList => "List elements do not share a single tag type"
  | textTooLong bytes => s!"Encoded string too long for modified UTF-8: {bytes} bytes"
  | lengthOverflow length => s!"NBT length {length} overflows i32"
  | described text => text

end Wireform.Nbt
