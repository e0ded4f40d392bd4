import Wireform.Codec
import Wireform.Layout

/-!
# Buffers

A buffer holds the bytes written so far, a read cursor into them, the limits it decodes with and,
if it was synthesized, the layout of its fields. Writes append; reads start at the cursor and move
it. A read that fails leaves the cursor where its decoder stopped.

While a layout is attached only typed reads are accepted, and each must start on a field of its own
wire type. Raw reads are refused.
-/

namespace Wireform

/-- Bytes with a read cursor, which is not past them. -/
@[ext]
structure Buffer where
  bytes : Bytes
  cursor : Nat
  limits : Limits
  layout? : Option Layout
  inBounds : cursor ≤ bytes.length
  deriving DecidableEq

namespace Buffer

/-- The empty buffer with given limits. -/
def ofLimits (limits : Limits) : Buffer := ⟨[], 0, limits, none, Nat.zero_le _⟩

/-- The empty buffer with the standard limits. -/
def empty : Buffer := ofLimits .standard

instance : Inhabited Buffer := ⟨empty⟩

/-- The buffer that holds given bytes, none of them read. -/
def ofBytes (bytes : Bytes) : Buffer := ⟨bytes, 0, .standard, none, Nat.zero_le _⟩

/-- The number of bytes written. -/
def size (b : Buffer) : Nat := b.bytes.length

/-- The bytes not yet read. -/
def unread (b : Buffer) : Bytes := b.bytes.drop b.cursor

/-- The number of bytes not yet read. -/
def unreadSize (b : Buffer) : Nat := b.size - b.cursor

/-- Whether any byte has not been read. -/
def hasUnread (b : Buffer) : Bool := 0 < b.unreadSize

/-- The buffer with all but its last `n` bytes read. -/
def leaving (b : Buffer) (n : Nat) : Buffer :=
  { b with cursor := b.size - n, inBounds := Nat.sub_le _ _ }

/-- The buffer with more bytes behind its own. -/
def extend (b : Buffer) (more : Bytes) : Buffer :=
  { b with bytes := b.bytes ++ more, inBounds := by simp [Nat.le_add_right_of_le b.inBounds] }

@[simp] theorem bytes_leaving (b : Buffer) (n : Nat) : (b.leaving n).bytes = b.bytes := rfl
@[simp] theorem cursor_leaving (b : Buffer) (n : Nat) : (b.leaving n).cursor = b.size - n := rfl
@[simp] theorem limits_leaving (b : Buffer) (n : Nat) : (b.leaving n).limits = b.limits := rfl
@[simp] theorem layout?_leaving (b : Buffer) (n : Nat) : (b.leaving n).layout? = b.layout? := rfl
@[simp] theorem size_leaving (b : Buffer) (n : Nat) : (b.leaving n).size = b.size := rfl

@[simp] theorem bytes_extend (b : Buffer) (more : Bytes) :
    (b.extend more).bytes = b.bytes ++ more := rfl
@[simp] theorem cursor_extend (b : Buffer) (more : Bytes) : (b.extend more).cursor = b.cursor := rfl
@[simp] theorem limits_extend (b : Buffer) (more : Bytes) : (b.extend more).limits = b.limits := rfl
@[simp] theorem layout?_extend (b : Buffer) (more : Bytes) :
    (b.extend more).layout? = b.layout? := rfl
@[simp] theorem extend_nil (b : Buffer) : b.extend [] = b :=
  Buffer.ext (List.append_nil _) rfl rfl rfl
@[simp] theorem size_extend (b : Buffer) (more : Bytes) :
    (b.extend more).size = b.size + more.length := List.length_append

/-- Something done to a buffer. It leaves a buffer behind whether it succeeds or fails. -/
abbrev Action := EStateM Fault Buffer

namespace Action

/-- Runs a decoder from the cursor. -/
def ofDecoder (d : Decoder α) : Action α := fun b =>
  match d b.unread with
  | .ok a rest => .ok a (b.leaving rest.length)
  | .error e rest => .error e (b.leaving rest.length)

/-- Runs a decoder from the cursor and leaves the buffer as it was. -/
def inspect (d : Decoder α) : Action α := fun b =>
  match d b.unread with
  | .ok a _ => .ok a b
  | .error e _ => .error e b

/-- Appends what was written, up to its fault. -/
def ofEmission (e : Emission) : Action Unit := fun b =>
  match e.fault? with
  | none => .ok () (b.extend e.bytes)
  | some fault => .error fault (b.extend e.bytes)

end Action

/-! ### Fields -/

/-- Refuses raw reads of a buffer with a layout. -/
def checkRaw : Action Unit := do
  if (← get).layout?.isSome then throw (.typeMismatch .untypedRead)

/-- Checks that a field of a wire type starts at the cursor. -/
def checkField (t : WireType) : Action Unit := do
  let b ← get
  match b.layout? with
  | none => return
  | some layout =>
    match layout.find? b.cursor with
    | some (index, found) =>
      if found ≠ t then throw (.typeMismatch (.field t found index))
    | none =>
      if b.size ≤ b.cursor then throw (.typeMismatch (.pastEnd t layout.size))
      throw (.typeMismatch (.midField t))

/-- Refuses a buffer of which something was left unread. -/
def checkAllRead : Action Unit := do
  let b ← get
  if b.hasUnread then
    match b.layout?.bind (·.find? b.cursor) with
    | some (index, t) => throw (.typeMismatch (.unreadField t index))
    | none => throw (.typeMismatch (.unreadBytes b.unreadSize))

/-! ### Raw reads -/

/-- The next byte. -/
def rawByte : Action UInt8 := do
  checkRaw
  .ofDecoder Decoder.byte

/-- The next byte, not consumed. -/
def rawPeek : Action UInt8 := do
  checkRaw
  .inspect Decoder.peek

/-- The next `n` bytes. -/
def rawTake (n : Nat) : Action Bytes := do
  checkRaw
  .ofDecoder (Decoder.take n)

/-- Passes over `n` bytes. -/
def rawSkip (n : Nat) : Action Unit := do
  checkRaw
  .ofDecoder (Decoder.skip n)

/-- Moves the cursor to a position that is not past the end. -/
def setCursor (position : Nat) : Action Unit := do
  checkRaw
  let b ← get
  if h : b.size < position then throw (.underflow (position - b.cursor) b.unreadSize)
  else set { b with cursor := position, inBounds := Nat.le_of_not_lt h }

/-! ### Typed reads and writes -/

/-- A value of a wire type. -/
def read (t : WireType) : Action Value := do
  checkField t
  .ofDecoder (t.decode (← get).limits)

/-- A variable-length 32-bit number. -/
def readVarInt32 : Action Int32 := do
  checkField .varInt
  .ofDecoder VarInt.decode32

/-- A string of at most `max` UTF-16 units, whatever the limits say. -/
def readText (max : Nat) : Action String := do
  checkField .string
  .ofDecoder (Decode.text max)

/-- A tree within a budget. No layout is consulted. -/
def readTree (budget : Nbt.Budget) : Action Nbt.Tree := .ofDecoder (Nbt.decodeTree budget)

/-- Passes over a value of a wire type. -/
def skip (t : WireType) : Action Unit := do
  checkField t
  .ofDecoder (t.skip (← get).limits)

/-- Appends bytes. -/
def append (bytes : Bytes) : Action Unit := .ofEmission (.ofBytes bytes)

/-- Appends a field. -/
def write (f : Field) : Action Unit := .ofEmission f.emit

/-- Appends a tree. -/
def writeTree (t : Nbt.Tree) : Action Unit := .ofEmission t.emit

/-! ### The buffer as a whole -/

/-- Drops the content and the layout; the limits stay. -/
def clear : Action Unit := modify fun b => ofLimits b.limits

/-- Decodes with other limits from here on. -/
def useLimits (limits : Limits) : Action Unit := modify ({ · with limits })

end Buffer

end Wireform
