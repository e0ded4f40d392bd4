import Wireform.Proofs.Codec.Composition
import Wireform.Proofs.Decoder

/-!
# How decoders fail

What is so of the few faults that readers are made of is so of every reader (`OfReaders.readable`).
Every fault of a decoder desynchronises what it reads from (`stops_inherited`).  A decoder of a
fixed width leaves the bytes alone when there are not enough, and fails for no other reason.
-/

namespace Wireform

variable {α β : Type}

/-! ### How decoders stop -/

/-- The faults of decoders, each with the bytes in front of which it is raised. -/
inductive Stop : Fault → Bytes → Prop where
  | short {n : Nat} {s : Bytes} (h : s.length < n) : Stop (.underflow n s.length) s
  /-- A negative count was passed over, and nothing is counted by it. -/
  | negative (s : Bytes) : Stop (.underflow 0 s.length) s
  | varInt (s : Bytes) : Stop .malformedVarInt s
  | varLong (s : Bytes) : Stop .malformedVarLong s
  | text (length : Int) (max : Nat) (s : Bytes) : Stop (.stringTooLong length max) s
  | bitSet (declared : Int) (max : Nat) (s : Bytes) : Stop (.bitSetTooLong declared max) s
  | tree (cause : Nbt.ReadFault) (s : Bytes) : Stop (.structureDecode cause) s

theorem Stop.desynchronises {e : Fault} {s : Bytes} (h : Stop e s) : e.desynchronises = true := by
  cases h <;> rfl

/-- Whatever `d` fails on, it stops in one of these ways. -/
def Stops (d : Decoder α) : Prop := ∀ s e s', d s = .error e s' → Stop e s'

/-- Every fault of `d`, and what it leaves, satisfy `Q`. -/
def FailsWith (Q : Fault → Bytes → Prop) (d : Decoder α) : Prop :=
  ∀ s e s', d s = .error e s' → Q e s'

/-- `Q` is so of the faults that readers of values raise, each in front of the bytes it leaves. -/
structure OfReaders (Q : Fault → Bytes → Prop) : Prop where
  short {n : Nat} {s : Bytes} (h : s.length < n) : Q (.underflow n s.length) s
  varInt (s : Bytes) : Q .malformedVarInt s
  varLong (s : Bytes) : Q .malformedVarLong s
  text (length : Int) (max : Nat) (s : Bytes) : Q (.stringTooLong length max) s
  bitSet (declared : Int) (max : Nat) (s : Bytes) : Q (.bitSetTooLong declared max) s
  tree (cause : Nbt.ReadFault) (s : Bytes) : Q (.structureDecode cause) s

namespace FailsWith

variable {Q : Fault → Bytes → Prop}

theorem fail {e : Fault} (h : ∀ s, Q e s) : FailsWith Q (throw e : Decoder α) := by
  rintro s _ _ ⟨⟩
  exact h s

theorem available : FailsWith Q Decoder.available := by
  rintro s e s' ⟨⟩

theorem peek (hQ : OfReaders Q) : FailsWith Q Decoder.peek := by
  rintro (_ | ⟨b, s⟩) e s' ⟨⟩
  exact hQ.short (s := []) Nat.zero_lt_one

theorem decodeTree (hQ : OfReaders Q) (budget : Nbt.Budget) :
    FailsWith Q (Nbt.decodeTree budget) := by
  intro s e s' h
  rcases Nbt.decodeTree_cases budget s with ⟨t, p, -, hok⟩ | ⟨e', p, -, herror⟩
  · cases hok.symm.trans h
  · cases herror.symm.trans h
    exact hQ.tree _ _

end FailsWith

namespace OfReaders

variable {Q : Fault → Bytes → Prop}

theorem sequential (hQ : OfReaders Q) : Sequential (FailsWith Q) where
  pure a := by
    rintro s e s' ⟨⟩
  bind hd hf := by
    intro s e s' h
    rcases bind_eq_error_iff.mp h with h | ⟨a, t, -, h⟩
    · exact hd s e s' h
    · exact hf a t e s' h
  take n := by
    intro s e s' h
    rcases Nat.lt_or_ge s.length n with hlt | hle
    · rw [Decoder.take_of_lt hlt] at h
      cases h
      exact hQ.short hlt
    · rw [Decoder.take_of_le hle] at h
      cases h
  byte := by
    rintro (_ | ⟨b, s⟩) e s' ⟨⟩
    exact hQ.short (s := []) Nat.zero_lt_one
  malformedVarInt := .fail hQ.varInt
  malformedVarLong := .fail hQ.varLong

/-- **Every reader of values fails so.** -/
theorem readable (hQ : OfReaders Q) : Readable (FailsWith Q) where
  toSequential := hQ.sequential
  stringTooLong length max := .fail (hQ.text length max)
  bitSet := hQ.sequential.bitSet .available fun declared max => .fail (hQ.bitSet declared max)
  nbt := hQ.sequential.nbt (.peek hQ) (.decodeTree hQ)

end OfReaders

theorem stop_ofReaders : OfReaders Stop := ⟨.short, .varInt, .varLong, .text, .bitSet, .tree⟩

theorem Stops.peek : Stops Decoder.peek := FailsWith.peek stop_ofReaders

theorem Stops.tree (budget : Nbt.Budget) : Stops (Nbt.decodeTree budget) :=
  FailsWith.decodeTree stop_ofReaders budget

theorem stops_inherited : Inherited Stops where
  toReadable := stop_ofReaders.readable
  negative := by
    rintro _ s e s' ⟨⟩
    exact .negative s

/-- `d` wants `n` bytes and leaves everything where there are fewer. -/
def Wants (d : Decoder α) (n : Nat) : Prop :=
  ∀ s e s', d s = .error e s' ↔ s.length < n ∧ e = .underflow n s.length ∧ s' = s

namespace Wants

variable {d : Decoder α} {n : Nat}

theorem map (hd : Wants d n) (g : α → β) : Wants (do return g (← d)) n := by
  intro s e s'
  rw [map_eq_error_iff]
  exact hd s e s'

theorem take (n : Nat) : Wants (Decoder.take n) n := by
  intro s e s'
  rcases Nat.lt_or_ge s.length n with hlt | hle
  · rw [Decoder.take_of_lt hlt]
    simp [hlt, eq_comm]
  · rw [Decoder.take_of_le hle]
    simp [Nat.not_lt_of_le hle]

theorem byte : Wants Decoder.byte 1 := by
  rintro (_ | ⟨b, s⟩) e s'
  · simp [Decoder.byte, eq_comm]
  · simp [Decoder.byte]

theorem peek : Wants Decoder.peek 1 := by
  rintro (_ | ⟨b, s⟩) e s'
  · simp [Decoder.peek, eq_comm]
  · simp [Decoder.peek]

theorem skip (n : Nat) : Wants (Decoder.skip n) n := (take n).map _

theorem fixed (width : Nat) (g : Nat → α) : Wants (do return g (← Decoder.number width)) width :=
  ((take width).map Bytes.value).map g

/-- A type of a fixed width wants its width. -/
theorem decode {t : WireType} (h : t.width? = some n) (limits : Limits) :
    Wants (t.decode limits) n := by
  cases t <;> cases h
  case unsignedByte => exact byte.map _
  case byte => exact byte.map _
  case boolean => exact byte.map _
  case uuid => exact (take 16).map _
  all_goals exact fixed _ _

theorem skipType {t : WireType} (h : t.width? = some n) (limits : Limits) :
    Wants (t.skip limits) n := by
  cases t <;> cases h
  all_goals exact skip _

end Wants

end Wireform
