import Wireform.Codec
import Mathlib.Tactic.SplitIfs

/-!
# What the decoders are made of

The decoders of all wire types are put together from a few primitive ones by sequencing, tests and
refusals.  A property that these have and that sequencing keeps is one of every decoder.
-/

namespace Wireform

/-- A property of decoders that sequencing keeps, and that the decoders which take bytes have. -/
structure Sequential (P : {α : Type} → Decoder α → Prop) : Prop where
  pure {α : Type} (a : α) : P (Pure.pure a : Decoder α)
  bind {α β : Type} {d : Decoder α} {f : α → Decoder β} (hd : P d) (hf : ∀ a, P (f a)) :
    P (d >>= f)
  take (n : Nat) : P (Decoder.take n)
  byte : P Decoder.byte
  malformedVarInt {α : Type} : P (throw .malformedVarInt : Decoder α)
  malformedVarLong {α : Type} : P (throw .malformedVarLong : Decoder α)

namespace Sequential

variable {P : {α : Type} → Decoder α → Prop} {α β : Type} {d d' : Decoder α} {tooBig : Fault}

theorem map (h : Sequential P) (hd : P d) (g : α → β) : P (do return g (← d)) :=
  h.bind hd fun _ => h.pure _

theorem ite {c : Prop} [Decidable c] (hd : P d) (hd' : P d') : P (if c then d else d') := by
  split_ifs
  · exact hd
  · exact hd'

theorem skip (h : Sequential P) (n : Nat) : P (Decoder.skip n) := h.map (h.take n) _

theorem fixed (h : Sequential P) (width : Nat) (g : Nat → α) :
    P (do return g (← Decoder.number width)) := h.map (h.map (h.take width) Bytes.value) g

theorem go (h : Sequential P) (hd : P d) : ∀ (n : Nat) (acc : List α),
    P (Decoder.replicate.go d n acc)
  | 0, acc => h.pure acc.reverse
  | n + 1, acc => h.bind hd fun a => h.go hd n (a :: acc)

theorem groups (h : Sequential P) (htooBig : P (throw tooBig : Decoder Nat)) :
    ∀ width scale sum : Nat, P (VarInt.groups tooBig width scale sum)
  | 0, _, _ => htooBig
  | width + 1, _, _ => h.bind h.byte fun _ => ite (h.pure _) (h.groups htooBig width _ _)

theorem decode32 (h : Sequential P) : P VarInt.decode32 :=
  h.map (h.groups h.malformedVarInt _ _ _) _

theorem decode64 (h : Sequential P) : P VarInt.decode64 :=
  h.map (h.groups h.malformedVarLong _ _ _) _

/-- The words of a set in a row. -/
theorem words (h : Sequential P) (n : Nat) :
    P (do return BitSet.ofWords (← Decoder.replicate n do
      return UInt64.ofNat (← Decoder.number 8))) := h.map (h.go (h.fixed 8 _) n []) _

theorem bitSet (h : Sequential P) (havailable : P Decoder.available)
    (htooLong : ∀ declared max, P (throw (.bitSetTooLong declared max) : Decoder BitSet)) :
    P Decode.bitSet :=
  h.bind h.decode32 fun _ => h.bind havailable fun _ => ite (htooLong _ _) (h.words _)

theorem nbt (h : Sequential P) (hpeek : P Decoder.peek)
    (htree : ∀ budget, P (Nbt.decodeTree budget)) (limits : Limits) : P (Decode.nbt limits) :=
  h.bind hpeek fun _ => ite (h.bind (h.skip 1) fun _ => h.pure _) (h.map (htree _) _)

end Sequential

/-- A property of decoders that sequencing keeps, and that what the readers of values are put
together from has. -/
structure Readable (P : {α : Type} → Decoder α → Prop) : Prop extends Sequential P where
  stringTooLong {α : Type} (length : Int) (max : Nat) :
    P (throw (.stringTooLong length max) : Decoder α)
  bitSet : P Decode.bitSet
  nbt (limits : Limits) : P (Decode.nbt limits)

namespace Readable

variable {P : {α : Type} → Decoder α → Prop}

theorem text (h : Readable P) (max : Nat) : P (Decode.text max) :=
  h.bind h.decode32 fun _ => Sequential.ite (h.stringTooLong _ _) (h.bind (h.take _) fun _ =>
    Sequential.ite (h.stringTooLong _ _) (h.pure _))

theorem decode (h : Readable P) (limits : Limits) (t : WireType) : P (t.decode limits) := by
  cases t
  case varInt => exact h.map h.decode32 _
  case varLong => exact h.map h.decode64 _
  case unsignedByte => exact h.map h.byte _
  case byte => exact h.map h.byte _
  case string => exact h.map (h.text _) _
  case nbt => exact h.map (h.nbt limits) _
  case bitSet => exact h.map h.bitSet _
  case boolean => exact h.map h.byte _
  case identifier => exact h.map (h.bind (h.text _) fun _ => h.map (h.text _) _) _
  case uuid => exact h.map (h.take 16) _
  all_goals exact h.fixed _ _

end Readable

/-- A property that readers have, and also what passes over values: of a count it adds nothing but
the report that it is negative. -/
structure Inherited (P : {α : Type} → Decoder α → Prop) : Prop extends Readable P where
  negative {α : Type} : P (do throw (.underflow 0 (← Decoder.available)) : Decoder α)

namespace Inherited

variable {P : {α : Type} → Decoder α → Prop}

theorem skipCounted (h : Inherited P) (unit : Nat) : P (Decode.skipCounted unit) :=
  h.bind h.decode32 fun _ => Sequential.ite h.negative (h.skip _)

theorem skipType (h : Inherited P) (limits : Limits) (t : WireType) : P (t.skip limits) := by
  cases t
  case varInt => exact h.map h.decode32 _
  case varLong => exact h.map h.decode64 _
  case string => exact h.skipCounted 1
  case nbt => exact h.map (h.nbt limits) _
  case bitSet => exact h.skipCounted 8
  case identifier => exact h.bind (h.skipCounted 1) fun _ => h.skipCounted 1
  all_goals exact h.skip _

end Inherited

end Wireform
