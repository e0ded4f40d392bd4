import Wireform.Buffer.Operation
import Wireform.Proofs.Buffer
import Wireform.Proofs.Codec.Consumption
import Wireform.Proofs.Codec.Composition
import Wireform.Proofs.Nbt.AnyBytes

/-!
# What an operation changes

A read moves the cursor on, over bytes that are there, and changes nothing else, whether it succeeds
or fails half way; a write appends and changes nothing else.  `change_run` says so for every
operation at once, and is all that the proofs about runs need to know of them.
-/

namespace Wireform

variable {α β : Type}

/-! ### Decoders go forward -/

/-- `d` leaves no more bytes than it was given, whether it succeeds or fails. -/
def Forward (d : Decoder α) : Prop := ∀ s, (finalState d s).length ≤ s.length

theorem Forward.bind {d : Decoder α} {f : α → Decoder β} (hd : Forward d)
    (hf : ∀ a, Forward (f a)) : Forward (d >>= f) := by
  intro s
  have hle := hd s
  cases hrun : d s with
  | ok a s' =>
    rw [finalState_of_ok hrun] at hle
    rw [finalState_bind_of_ok hrun]
    exact Nat.le_trans (hf a s') hle
  | error e s' =>
    rw [finalState_of_error hrun] at hle
    rw [finalState_bind_of_error hrun]
    exact hle

theorem Forward.take (n : Nat) : Forward (Decoder.take n) := by
  intro s
  obtain ⟨hle, -⟩ := (TakesUpTo.take n s).consumes
  exact hle

theorem Forward.peek : Forward Decoder.peek
  | [] => Nat.le_refl _
  | _ :: _ => Nat.le_refl _

theorem Forward.tree (budget : Nbt.Budget) : Forward (Nbt.decodeTree budget) :=
  Nbt.length_decodeTree_le budget

theorem forward_sequential : Sequential Forward where
  pure _ _ := Nat.le_refl _
  bind := Forward.bind
  take := Forward.take
  byte
    | [] => Nat.le_refl _
    | _ :: _ => Nat.le_succ _
  malformedVarInt _ := Nat.le_refl _
  malformedVarLong _ := Nat.le_refl _

theorem forward_inherited : Inherited Forward where
  toSequential := forward_sequential
  stringTooLong _ _ _ := Nat.le_refl _
  negative _ := Nat.le_refl _
  bitSet := forward_sequential.bitSet (fun _ => Nat.le_refl _) fun _ _ _ => Nat.le_refl _
  nbt := forward_sequential.nbt Forward.peek Forward.tree

namespace Buffer

variable {b b' b'' : Buffer}

/-! ### Moving on -/

/-- Only the cursor moves, and it moves on over bytes that are there. -/
def MovesTo (b b' : Buffer) : Prop := ∃ n ≤ b.unreadSize, b' = b.advance n

theorem MovesTo.refl (b : Buffer) : b.MovesTo b := ⟨0, Nat.zero_le _, b.advance_zero.symm⟩

theorem MovesTo.trans (h : b.MovesTo b') (h' : b'.MovesTo b'') : b.MovesTo b'' := by
  obtain ⟨m, hm, rfl⟩ := h
  obtain ⟨n, hn, rfl⟩ := h'
  rw [unreadSize_advance] at hn
  exact ⟨m + n, by omega, advance_advance b m n⟩

/-- Whatever comes of it, `m` does nothing but move the cursor on. -/
def OnlyReads (m : Action α) : Prop := ∀ b : Buffer, b.MovesTo (finalState m b)

namespace OnlyReads

variable {m : Action α} {f : α → Action β}

theorem of_same (h : ∀ b, finalState m b = b) : OnlyReads m := by
  intro b
  rw [h b]
  exact .refl b

theorem bind (hm : OnlyReads m) (hf : ∀ a, OnlyReads (f a)) : OnlyReads (m >>= f) := by
  intro b
  have h := hm b
  cases hrun : m b with
  | ok a b' =>
    rw [finalState_of_ok hrun] at h
    rw [finalState_bind_of_ok hrun]
    exact h.trans (hf a b')
  | error e b' =>
    rw [finalState_of_error hrun] at h
    rw [finalState_bind_of_error hrun]
    exact h

theorem map (hm : OnlyReads m) (g : α → β) : OnlyReads (do return g (← m)) := by
  intro b
  rw [finalState_map]
  exact hm b

theorem get : OnlyReads get := of_same fun _ => rfl

theorem ofDecoder {d : Decoder α} (hd : Forward d) : OnlyReads (Action.ofDecoder d) := by
  intro b
  have hle := hd b.unread
  rw [length_unread] at hle
  rw [finalState_ofDecoder]
  exact ⟨_, Nat.sub_le _ _, leaving_eq_advance hle⟩

theorem inspect (d : Decoder α) : OnlyReads (Action.inspect d) := by
  refine of_same fun b => ?_
  unfold finalState Action.inspect
  cases d b.unread <;> rfl

theorem checkField (t : WireType) : OnlyReads (checkField t) := by
  refine of_same fun b => ?_
  rcases checkField_cases t b with hok | ⟨m, he⟩
  · exact finalState_of_ok hok
  · exact finalState_of_error he

theorem checkRaw : OnlyReads checkRaw := by
  refine of_same fun b => ?_
  cases hl : b.layout? with
  | none => exact finalState_of_ok (checkRaw_of_none hl)
  | some l =>
    obtain ⟨e, he⟩ := checkRaw_of_layout hl
    exact finalState_of_error he

end OnlyReads

/-! ### Every operation -/

/-- The reads and skips, typed and raw, and the questions about the buffer. -/
def Operation.reads : Operation → Bool
  | rawByte | rawPeek | rawTake _ | rawSkip _ | read _ | readText _ | readTree _ | skip _ => true
  | limits | hasUnread | unreadSize | content | unread => true
  | setCursor _ | append _ | write _ | writeTree _ | clear | useLimits _ => false

/-- The writes, typed and raw. -/
def Operation.writes : Operation → Bool
  | append _ | write _ | writeTree _ => true
  | _ => false

theorem Operation.not_reads_and_writes (op : Operation) :
    ¬ (op.reads = true ∧ op.writes = true) := by
  cases op <;> simp [reads, writes]

/-- All that an operation can do to a buffer. -/
inductive Change (b : Buffer) : Operation → Buffer → Prop where
  | read (op : Operation) (b' : Buffer) (h : op.reads = true) (hb : b.MovesTo b') : Change b op b'
  | write (op : Operation) (more : Bytes) (h : op.writes = true) :
    Change b op (b.extend more)
  | refused (position : Nat) : Change b (.setCursor position) b
  | cursor (position : Nat) (h : position ≤ b.size) :
    Change b (.setCursor position) (b.seek position)
  | clear : Change b .clear (ofLimits b.limits)
  | limits (limits : Limits) : Change b (.useLimits limits) { b with limits }

theorem change_ofEmission {op : Operation} (h : op.writes = true) (e : Emission) (b : Buffer) :
    Change b op (finalState (Action.ofEmission e) b) := by
  rw [finalState_ofEmission]
  exact .write op e.bytes h

theorem change_setCursor (position : Nat) (b : Buffer) :
    Change b (.setCursor position) (finalState (setCursor position) b) := by
  rcases setCursor_cases position b with ⟨-, why, he⟩ | ⟨-, he⟩ | ⟨hle, hok⟩
  · rw [finalState_of_error he]
    exact .refused position
  · rw [finalState_of_error he]
    exact .refused position
  · rw [finalState_of_ok hok]
    exact .cursor position hle

/-- **What an operation changes**, whether it succeeds or fails. -/
theorem change_run (op : Operation) (b : Buffer) : Change b op (finalState op.run b) := by
  have hread {op : Operation} (h : op.reads = true) (hm : OnlyReads op.run) :
      Change b op (finalState op.run b) := .read op _ h (hm b)
  cases op with
  | rawByte =>
    exact hread rfl ((OnlyReads.checkRaw.bind fun _ => .ofDecoder forward_inherited.byte).map _)
  | rawPeek => exact hread rfl ((OnlyReads.checkRaw.bind fun _ => .inspect _).map _)
  | rawTake n => exact hread rfl ((OnlyReads.checkRaw.bind fun _ => .ofDecoder (.take n)).map _)
  | rawSkip n =>
    exact hread rfl ((OnlyReads.checkRaw.bind fun _ => .ofDecoder (forward_inherited.skip n)).map _)
  | setCursor position =>
    have h := change_setCursor position b
    rw [← finalState_map (setCursor position) (fun _ => Reply.done)] at h
    exact h
  | read t =>
    exact hread rfl (((OnlyReads.checkField t).bind fun _ => OnlyReads.get.bind fun b =>
      .ofDecoder (forward_inherited.decode b.limits t)).map _)
  | readText max =>
    exact hread rfl (((OnlyReads.checkField .string).bind fun _ =>
      .ofDecoder (forward_inherited.text max)).map _)
  | readTree budget => exact hread rfl ((OnlyReads.ofDecoder (.tree budget)).map _)
  | skip t =>
    exact hread rfl (((OnlyReads.checkField t).bind fun _ => OnlyReads.get.bind fun b =>
      .ofDecoder (forward_inherited.skipType b.limits t)).map _)
  | append bytes =>
    rw [Operation.run, finalState_map]
    exact change_ofEmission rfl _ b
  | write f =>
    rw [Operation.run, finalState_map]
    exact change_ofEmission rfl _ b
  | writeTree c =>
    rw [Operation.run, finalState_map]
    exact change_ofEmission rfl _ b
  | clear => exact .clear
  | useLimits l => exact .limits l
  | limits => exact hread rfl (OnlyReads.get.map _)
  | hasUnread => exact hread rfl (OnlyReads.get.map _)
  | unreadSize => exact hread rfl (OnlyReads.get.map _)
  | content => exact hread rfl (OnlyReads.get.map _)
  | unread => exact hread rfl (OnlyReads.get.map _)

end Buffer

end Wireform
