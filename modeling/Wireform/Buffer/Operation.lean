import Wireform.Buffer

/-!
# Operations on buffers

Everything a caller can do to a buffer, as data, and what it answers. A run of operations is then a
list, and what holds of each operation holds of every run.
-/

namespace Wireform.Buffer

/-- What an operation answers. -/
inductive Reply where
  | done
  | byte (b : UInt8)
  | bytes (bytes : Bytes)
  | flag (b : Bool)
  | count (n : Nat)
  | limits (l : Limits)
  | value (v : Value)
  | tree (t : Nbt.Tree)
  deriving Inhabited

/-- What a caller can do to a buffer. -/
inductive Operation where
  | rawByte
  | rawPeek
  | rawTake (n : Nat)
  | rawSkip (n : Nat)
  | setCursor (position : Nat)
  | read (t : WireType)
  | readText (max : Nat)
  | readTree (budget : Nbt.Budget)
  | skip (t : WireType)
  | append (bytes : Bytes)
  | write (f : Field)
  | writeTree (t : Nbt.Tree)
  | clear
  | useLimits (l : Limits)
  | limits
  | hasUnread
  | unreadSize
  | content
  | unread
  deriving Inhabited

/-- Carries an operation out. -/
def Operation.run : Operation → Action Reply
  | rawByte => do return .byte (← Buffer.rawByte)
  | rawPeek => do return .byte (← Buffer.rawPeek)
  | rawTake n => do return .bytes (← Buffer.rawTake n)
  | rawSkip n => do
    Buffer.rawSkip n
    return .done
  | setCursor position => do
    Buffer.setCursor position
    return .done
  | read t => do return .value (← Buffer.read t)
  | readText max => do return .value (.text (← Buffer.readText max))
  | readTree budget => do return .tree (← Buffer.readTree budget)
  | skip t => do
    Buffer.skip t
    return .done
  | append bytes => do
    Buffer.append bytes
    return .done
  | write f => do
    Buffer.write f
    return .done
  | writeTree t => do
    Buffer.writeTree t
    return .done
  | clear => do
    Buffer.clear
    return .done
  | useLimits l => do
    Buffer.useLimits l
    return .done
  | limits => do return .limits (← get).limits
  | hasUnread => do return .flag (← get).hasUnread
  | unreadSize => do return .count (← get).unreadSize
  | content => do return .bytes (← get).bytes
  | unread => do return .bytes (← get).unread

end Wireform.Buffer
