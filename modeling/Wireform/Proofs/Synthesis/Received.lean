import Wireform.Proofs.Codec.SelfDelimiting
import Wireform.Proofs.Frame.RoundTrip
import Wireform.Proofs.Synthesis.Programs
import Wireform.Proofs.Synthesis.Readers

/-!
# Synthesized packets and received ones

A reader that makes typed reads and skips only cannot tell the buffer of a list of fields from the
body of a frame that carries the same bytes, except by a mismatch: the two hold the same bytes to
read under the same limits, and every step that the layout lets pass keeps it so.
-/

namespace Wireform

open Buffer (Operation Reply)

/-- A program of typed reads and skips.  It may look at each answer and stops at the first fault. -/
inductive FieldReader (α : Type) where
  | ret (r : Except Fault α)
  | step (op : Operation) (typed : op.asks?.isSome) (next : Reply → FieldReader α)

namespace FieldReader

/-- Carries a program out. -/
def run : FieldReader α → Buffer.Action α
  | ret (.ok a) => return a
  | ret (.error e) => throw e
  | step op _ next => do (next (← op.run)).run

end FieldReader

namespace Buffer

variable {α β : Type} {b b' c c' : Buffer} {op : Operation} {t : WireType}

/-! ### Typed operations -/

theorem ofDecoder_map (d : Decoder α) (g : α → β) (b : Buffer) :
    (do return g (← Action.ofDecoder d) : Action β) b =
      Action.ofDecoder (do return g (← d)) b := by
  cases h : d b.unread with
  | ok a rest =>
    have h' : (do return g (← d) : Decoder β) b.unread = .ok (g a) rest := by
      rw [bind_of_ok h, pure_eq]
    rw [bind_of_ok (Action.ofDecoder_of_ok h), Action.ofDecoder_of_ok h', pure_eq]
  | error e rest =>
    have h' : (do return g (← d) : Decoder β) b.unread = .error e rest := bind_of_error h
    rw [bind_of_error (Action.ofDecoder_of_error h), Action.ofDecoder_of_error h']

/-- A typed read or skip is a check, and then a decoder that the limits determine. -/
theorem run_typed (h : op.asks? = some t) : ∃ d : Limits → Decoder Reply,
    (∀ limits, Delimited (d limits)) ∧ ∀ b : Buffer,
      (∀ e, checkField t b = .error e b → op.run b = .error e b) ∧
      (checkField t b = .ok () b → op.run b = Action.ofDecoder (d b.limits) b) := by
  cases op <;> cases h
  case read =>
    refine ⟨_, fun limits => delimited_inherited.map (delimited_inherited.decode limits t)
      Reply.value, fun b => ⟨fun e he => bind_of_error (bind_of_error he), fun hok => ?_⟩⟩
    rw [← ofDecoder_map, Operation.run, bind_eq, read_of_checkField hok, ← bind_eq]
  case readText max =>
    refine ⟨_, fun _ => delimited_inherited.map (delimited_inherited.text max)
      fun s => Reply.value (.text s), fun b =>
      ⟨fun e he => bind_of_error (bind_of_error he), fun hok => ?_⟩⟩
    rw [← ofDecoder_map, Operation.run, bind_eq, readText, bind_of_ok hok, ← bind_eq]
  case skip =>
    refine ⟨_, fun limits => delimited_inherited.map (delimited_inherited.skipType limits t)
      fun _ => Reply.done, fun b =>
      ⟨fun e he => bind_of_error (bind_of_error he), fun hok => ?_⟩⟩
    rw [← ofDecoder_map, Operation.run, bind_eq, skip, bind_of_ok hok, bind_of_ok (get_eq b),
      ← bind_eq]

/-! ### Two buffers with the same bytes to read -/

/-- `c` holds the same bytes to read as `b` under the same limits, and no layout. -/
structure Mirrors (c b : Buffer) : Prop where
  unread : c.unread = b.unread
  limits : c.limits = b.limits
  bare : c.layout? = none

theorem Mirrors.hasUnread_eq (h : Mirrors c b) : c.hasUnread = b.hasUnread := by
  rw [Bool.eq_iff_iff, hasUnread_iff_unread, hasUnread_iff_unread, h.unread]

/-- How the runs of `m` on a buffer and on one that mirrors it end: they agree, unless the first is
stopped by a mismatch. -/
inductive Agrees (m : Action α) (c b : Buffer) : Prop where
  | mismatch (e : Mismatch) (b' : Buffer) (h : m b = .error (.typeMismatch e) b')
  | answer (a : α) (c' b' : Buffer) (h : m b = .ok a b') (h' : m c = .ok a c')
    (mirrors : Mirrors c' b')
  | fault (e : Fault) (c' b' : Buffer) (h : m b = .error e b') (h' : m c = .error e c')

namespace Agrees

variable {m : Action α} {f : α → Action β}

theorem bind (hm : Agrees m c b) (hf : ∀ a c' b', Mirrors c' b' → Agrees (f a) c' b') :
    Agrees (m >>= f) c b := by
  cases hm with
  | mismatch e b' h => exact .mismatch e b' (bind_of_error h)
  | fault e c' b' h h' => exact .fault e c' b' (bind_of_error h) (bind_of_error h')
  | answer a c' b' h h' mirrors =>
    have hruns := hf a c' b' mirrors
    cases hruns with
    | mismatch e b'' h₂ => exact .mismatch e b'' (by rw [bind_of_ok h, h₂])
    | answer a₂ c'' b'' h₂ h₂' mirrors₂ =>
      exact .answer a₂ c'' b'' (by rw [bind_of_ok h, h₂]) (by rw [bind_of_ok h', h₂']) mirrors₂
    | fault e c'' b'' h₂ h₂' =>
      exact .fault e c'' b'' (by rw [bind_of_ok h, h₂]) (by rw [bind_of_ok h', h₂'])

/-- A decoder that delimits what it reads moves both cursors in step. -/
theorem ofDecoder {d : Decoder α} (hd : Delimited d) (h : Mirrors c b) :
    Agrees (Action.ofDecoder d) c b := by
  have hunread := h.unread
  cases hrun : d b.unread with
  | error e rest =>
    exact .fault e _ _ (Action.ofDecoder_of_error hrun)
      (Action.ofDecoder_of_error (hunread ▸ hrun))
  | ok a rest =>
    obtain ⟨front, hfront, -⟩ := hd _ _ _ hrun
    refine .answer a _ _ (Action.ofDecoder_of_ok hrun) (Action.ofDecoder_of_ok (hunread ▸ hrun))
      ⟨?_, h.limits, h.bare⟩
    rw [unread_leaving hfront, unread_leaving (hunread.trans hfront)]

/-- Only the check can tell the two apart. -/
theorem run (h : Mirrors c b) (hop : op.asks? = some t) : Agrees op.run c b := by
  obtain ⟨d, hd, hrun⟩ := run_typed hop
  rcases checkField_cases t b with hok | ⟨m, he⟩
  · have hagrees := ofDecoder (hd b.limits) h
    have hb := (hrun b).2 hok
    have hc := (hrun c).2 (checkField_of_none h.bare)
    rw [h.limits] at hc
    cases hagrees with
    | mismatch e b' h₁ => exact .mismatch e b' (hb.trans h₁)
    | answer a c' b' h₁ h₂ mirrors => exact .answer a c' b' (hb.trans h₁) (hc.trans h₂) mirrors
    | fault e c' b' h₁ h₂ => exact .fault e c' b' (hb.trans h₁) (hc.trans h₂)
  · exact .mismatch m b ((hrun b).1 _ he)

end Agrees

end Buffer

/-- **A reader of fields cannot tell them apart**: by induction over the reader, one operation after
the other. -/
theorem FieldReader.agrees (r : FieldReader α) :
    ∀ {b c : Buffer}, Buffer.Mirrors c b → Buffer.Agrees r.run c b := by
  induction r with
  | ret r =>
    intro b c h
    cases r with
    | ok a => exact .answer a c b rfl rfl h
    | error e => exact .fault e c b rfl rfl
  | step op typed next ih =>
    intro b c h
    obtain ⟨t, ht⟩ := Option.isSome_iff_exists.mp typed
    exact (Buffer.Agrees.run h ht).bind fun reply c' b' mirrors => ih reply mirrors

namespace Synthesizer

open Wireform.Frame (Codec)

/-- **A synthesized packet cannot be told from a received one.**  When fields are encoded, sent in a
frame and received, every reader of fields ends on the body of the frame as the synthesis ends,
unless the synthesis reports a mismatch; and what a synthesis accepts was read to the end of the
body. -/
theorem synthesize_received (s : Config.CodecSettings) {p : PendingFields} {b : Buffer} {id : Int32}
    {stream : Bytes} (hb : (ofSettings s).encode p = .ok b)
    (hstream : (Codec.ofSettings s).encode ⟨id, b⟩ [] = .ok () stream) (r : FieldReader α) :
    ∃ body, (Codec.ofSettings s).decode stream = .ok (some ⟨id, body⟩) [] ∧
      ((ofSettings s).synthesize p r.run = outcome r.run body ∨
        ∃ m, (ofSettings s).synthesize p r.run = .error (.typeMismatch m)) ∧
      ∀ a, (ofSettings s).synthesize p r.run = .ok a →
        ∃ body', r.run body = .ok a body' ∧ body'.hasUnread = false := by
  obtain ⟨hsize, rfl⟩ := Frame.encode_eq_ok_iff.mp hstream
  have hlimit : (Codec.ofSettings s).limit ≤ maxFrameBytes := Nat.min_le_right _ _
  have hdecode := Frame.decode_bytes hlimit hsize []
  rw [List.append_nil] at hdecode
  refine ⟨_, hdecode, ?_⟩
  obtain ⟨henc, rfl⟩ := encode_eq_ok_iff.mp hb
  have hmirrors : Buffer.Mirrors
      (Frame.received (Codec.ofSettings s) ⟨id, between (ofSettings s).limits [] p.fields⟩)
      (between (ofSettings s).limits [] p.fields) :=
    ⟨Frame.unread_received _ _, rfl, rfl⟩
  rw [synthesize_of_encodable _ henc]
  cases r.agrees hmirrors with
  | mismatch e b' h =>
    rw [bind_of_error h]
    exact ⟨.inr ⟨e, rfl⟩, nofun⟩
  | fault e body' b' h h' =>
    rw [bind_of_error h]
    exact ⟨.inl (outcome_of_error h').symm, nofun⟩
  | answer a body' b' h h' mirrors =>
    rw [bind_of_ok h]
    rcases Buffer.checkAllRead_cases b' with ⟨hread, hok⟩ | ⟨m, hm⟩
    · rw [bind_of_ok hok]
      refine ⟨.inl (outcome_of_ok h').symm, ?_⟩
      rintro _ ⟨⟩
      exact ⟨body', h', mirrors.hasUnread_eq.trans hread⟩
    · rw [bind_of_error hm]
      exact ⟨.inr ⟨m, rfl⟩, nofun⟩

/-- A number behind a flag, read and passed over. -/
theorem synthesize_received_number :
    let s := Config.CodecSettings.standard
    let p : PendingFields := ⟨[⟨.boolean, .bool true, rfl⟩, ⟨.short, .int16 9, rfl⟩]⟩
    let r : FieldReader Reply :=
      .step (.skip .boolean) rfl fun _ => .step (.read .short) rfl fun reply => .ret (.ok reply)
    ∃ b, (ofSettings s).encode p = .ok b ∧
      (Codec.ofSettings s).encode ⟨7, b⟩ [] = .ok () [4, 7, 1, 0, 9] ∧
      ∃ body body', (Codec.ofSettings s).decode [4, 7, 1, 0, 9] = .ok (some ⟨7, body⟩) [] ∧
        r.run body = .ok (.value (.int16 9)) body' ∧ body'.hasUnread = false := by
  intro s p r
  have hb : (ofSettings s).encode p = .ok (between s.limits [] p.fields) := by rfl
  have hsize : Frame.declaredSize ⟨7, between s.limits [] p.fields⟩ = 4 := by
    rw [Frame.declaredSize, VarInt.size, VarInt.sizeOfNat_of_lt (by decide)]
    rfl
  have hstream : (Codec.ofSettings s).encode ⟨7, between s.limits [] p.fields⟩ [] =
      .ok () [4, 7, 1, 0, 9] := by
    rw [Frame.encode_eq_ok_iff, Frame.bytes, hsize, Frame.content, VarInt.encode32,
      VarInt.ofNat_of_lt (by decide), VarInt.ofNat_of_lt (by decide)]
    exact ⟨by decide, rfl⟩
  have henc : Encodable p.fields := (encode_eq_ok_iff.mp hb).1
  have hskip : Buffer.skip .boolean (between s.limits [] p.fields) =
      .ok () (between s.limits [⟨.boolean, .bool true, rfl⟩] [⟨.short, .int16 9, rfl⟩]) :=
    Buffer.skip_of_checkField (Buffer.checkField_of_found rfl
      ((find?_between henc .boolean).mpr ⟨_, _, rfl, rfl⟩))
  have hrest : Encodable ([⟨.boolean, .bool true, rfl⟩] ++ [⟨.short, .int16 9, rfl⟩]) := henc
  have hread := (read_between_cons s.limits hrest trivial .short).1 ⟨rfl, trivial⟩
  have hskipped : (Operation.skip .boolean).run (between s.limits [] p.fields) = .ok .done _ :=
    bind_of_ok hskip
  have hanswered : (Operation.read .short).run (between s.limits [_] _) =
      .ok (.value (.int16 9)) _ := bind_of_ok hread
  have hrun : r.run (between s.limits [] p.fields) =
      .ok (.value (.int16 9)) (between s.limits p.fields []) :=
    (bind_of_ok hskipped).trans (bind_of_ok hanswered)
  have hsynthesized : (ofSettings s).synthesize p r.run = .ok (.value (.int16 9)) := by
    rw [synthesize_eq_outcome _ henc]
    exact outcome_of_ok (bind_of_ok hrun)
  obtain ⟨body, hdecode, -, hall⟩ := synthesize_received s hb hstream r
  obtain ⟨body', hrun, hread⟩ := hall _ hsynthesized
  exact ⟨_, hb, hstream, body, body', hdecode, hrun, hread⟩

end Synthesizer

end Wireform
