import Wireform.Proofs.Buffer.Changes
import Wireform.Proofs.Synthesis.Encoding

/-!
# What an operation does to a synthesized buffer

While the layout is attached, a raw operation changes nothing, a write adds bytes at the end, and a
typed read or skip goes forward within the field it was checked against.  Reading a tree goes
forward without a check, and clearing takes the layout off with the bytes.
-/

namespace Wireform.Buffer

variable {α β : Type} {b : Buffer} {l : Layout} {t : WireType} {fs : List Field}

/-! ### States left behind -/

/-- A raw operation on a buffer with a layout. -/
theorem finalState_raw (hl : b.layout? = some l) (f : Unit → Action α) :
    finalState (checkRaw >>= f) b = b := by
  obtain ⟨e, he⟩ := checkRaw_of_layout hl
  rw [finalState_bind_of_error he]

/-! ### Checks -/

/-- The wire type that a typed read or skip asks for. -/
def Operation.asks? : Operation → Option WireType
  | read t => some t
  | readText _ => some .string
  | skip t => some t
  | _ => none

/-- The check of a typed read or skip passes. -/
def passes (t : WireType) (b : Buffer) : Bool :=
  match checkField t b with
  | .ok _ _ => true
  | .error _ _ => false

theorem passes_iff (hl : b.layout? = some l) :
    passes t b = true ↔ ∃ i, l.find? b.cursor = some (i, t) := by
  unfold passes
  by_cases h : ∃ i, l.find? b.cursor = some (i, t)
  · rw [checkField_of_found hl h]
    exact ⟨fun _ => h, fun _ => rfl⟩
  · obtain ⟨e, he⟩ := checkField_of_not_found hl h
    rw [he]
    exact ⟨nofun, fun h' => absurd h' h⟩

/-- A decoder behind a check either starts at the cursor or is not run. -/
theorem finalState_checked (hl : b.layout? = some l) {f : Unit → Action α} {d : Decoder α}
    (hf : f () b = Action.ofDecoder d b) :
    finalState (checkField t >>= f) b =
      if passes t b then b.leaving (finalState d b.unread).length else b := by
  by_cases h : ∃ i, l.find? b.cursor = some (i, t)
  · rw [if_pos ((passes_iff hl).mpr h), finalState_bind_of_ok (checkField_of_found hl h),
      ← finalState_ofDecoder, finalState, finalState, hf]
  · obtain ⟨e, he⟩ := checkField_of_not_found hl h
    rw [if_neg fun h' => h ((passes_iff hl).mp h'), finalState_bind_of_error he]

/-! ### Effects -/

/-- `n` bytes are left unread of a field of type `t` and what follows it, or of what follows, and
fewer than there were. -/
def Advances (t : WireType) (b : Buffer) (n : Nat) : Prop :=
  ∀ (f : Field) (rest : Bytes), f.tag = t → f.emit.fault? = none →
    b.unread = f.emit.bytes ++ rest → rest.length ≤ n ∧ n < b.unread.length

/-- All that an operation can do to a buffer with a layout. -/
inductive Effect (b : Buffer) : Operation → Buffer → Prop where
  | idle (op : Operation) (more : Bytes) (limits : Limits) (h : op.asks? = none) :
    Effect b op { b.extend more with limits }
  | refused (op : Operation) (t : WireType) (h : op.asks? = some t) (hp : passes t b = false) :
    Effect b op b
  | accepted (op : Operation) (t : WireType) (n : Nat) (h : op.asks? = some t)
    (hp : passes t b = true) (hn : Advances t b n) : Effect b op (b.leaving n)
  | tree (budget : Nbt.Budget) (n : Nat) (hn : n ≤ b.unread.length) :
    Effect b (.readTree budget) (b.leaving n)
  | clear : Effect b .clear (ofLimits b.limits)

namespace Effect

variable {op : Operation} {s : Buffer}

theorem of_eq (h : op.asks? = none) (hs : s = b) : Effect b op s := by
  have hidle := idle (b := b) op [] b.limits h
  rw [extend_nil] at hidle
  rwa [hs]

theorem of_append {more : Bytes} (h : op.asks? = none)
    (hs : s = b.extend more) : Effect b op s := by
  rw [hs]
  exact idle op more b.limits h

theorem of_checked {d : Decoder α} (h : op.asks? = some t)
    (hd : ∀ f : Field, f.tag = t → f.emit.fault? = none → ∀ rest,
      Consumes d 1 f.emit.bytes.length (f.emit.bytes ++ rest))
    (hs : s = if passes t b then b.leaving (finalState d b.unread).length else b) :
    Effect b op s := by
  by_cases hp : passes t b = true
  · rw [hs, if_pos hp]
    refine accepted op t _ h hp fun f rest ht hemit hunread => ?_
    have hconsumes := hd f ht hemit rest
    rw [← hunread] at hconsumes
    unfold Consumes at hconsumes
    have hlen := congrArg List.length hunread
    rw [List.length_append] at hlen
    omega
  · rw [hs, if_neg hp]
    exact refused op t h (Bool.not_eq_true _ ▸ hp)

end Effect

/-- **What an operation does to a buffer with a layout.** -/
theorem effect_run (hl : b.layout? = some l) (op : Operation) :
    Effect b op (finalState op.run b) := by
  cases op with
  | rawByte => exact .of_eq rfl ((finalState_map _ _ b).trans (finalState_raw hl _))
  | rawPeek => exact .of_eq rfl ((finalState_map _ _ b).trans (finalState_raw hl _))
  | rawTake n => exact .of_eq rfl ((finalState_map _ _ b).trans (finalState_raw hl _))
  | rawSkip n => exact .of_eq rfl ((finalState_map _ _ b).trans (finalState_raw hl _))
  | setCursor position => exact .of_eq rfl ((finalState_map _ _ b).trans (finalState_raw hl _))
  | read t =>
    refine .of_checked rfl (fun f ht hemit => ht ▸ consumes_decode b.limits hemit) ?_
    exact (finalState_map _ _ b).trans (finalState_checked hl rfl)
  | readText max =>
    refine .of_checked rfl (fun f ht _ => consumes_text max ht) ?_
    exact (finalState_map _ _ b).trans (finalState_checked hl rfl)
  | readTree budget =>
    have hrun : finalState (Operation.readTree budget).run b = _ :=
      (finalState_map _ _ b).trans (finalState_ofDecoder (Nbt.decodeTree budget) b)
    rw [hrun]
    exact .tree budget _ (Nbt.length_decodeTree_le budget b.unread)
  | skip t =>
    refine .of_checked rfl (fun f ht hemit => ht ▸ consumes_skip b.limits hemit) ?_
    exact (finalState_map _ _ b).trans (finalState_checked hl rfl)
  | append bytes => exact .of_append rfl ((finalState_map _ _ b).trans (finalState_ofEmission _ b))
  | write f => exact .of_append rfl ((finalState_map _ _ b).trans (finalState_ofEmission _ b))
  | writeTree t => exact .of_append rfl ((finalState_map _ _ b).trans (finalState_ofEmission _ b))
  | clear => exact .clear
  | useLimits limits =>
    have h := Effect.idle (b := b) (.useLimits limits) [] limits rfl
    rw [extend_nil] at h
    exact h
  | limits => exact .of_eq rfl rfl
  | hasUnread => exact .of_eq rfl rfl
  | unreadSize => exact .of_eq rfl rfl
  | content => exact .of_eq rfl rfl
  | unread => exact .of_eq rfl rfl

/-! ### Without a layout -/

/-- No layout comes back. -/
def StaysBare (m : Action α) : Prop := ∀ b, b.layout? = none → (finalState m b).layout? = none

theorem StaysBare.run (op : Operation) : StaysBare op.run := by
  intro b hb
  have hchange := change_run op b
  generalize finalState op.run b = s at hchange
  cases hchange with
  | read _ _ _ hmoves =>
    obtain ⟨n, -, rfl⟩ := hmoves
    exact hb
  | write _ more _ => exact hb
  | refused position => exact hb
  | cursor position _ => exact hb
  | clear => rfl
  | limits limits => exact hb

end Wireform.Buffer
