import Wireform.Proofs.Buffer.Changes
import Wireform.Proofs.Codec.Faults
import Wireform.Proofs.Frame.Chunking
import Wireform.Proofs.Frame.Streams

/-!
# How operations fail

A decoder that fails desynchronises its buffer, a check refuses and leaves everything as it was, and
a tree that cannot be written has been begun.  `failure_run` says so of every operation at once, and
which faults can be trusted to have changed nothing follows from it.
-/

namespace Wireform

variable {α β : Type}

namespace Buffer

variable {b b' : Buffer} {e : Fault} {n : Nat}

/-! ### How operations fail -/

/-- The tree that an operation writes. -/
def Operation.tree? : Operation → Option Nbt.Tree
  | write ⟨_, .nbt tree?, _⟩ => tree?
  | writeTree t => some t
  | _ => none

theorem Operation.tree?_write_eq_some_iff {f : Field} {t : Nbt.Tree} :
    (write f).tree? = some t ↔ f.value = .nbt (some t) := by
  obtain ⟨tag, v, hfits⟩ := f
  cases v <;> simp [tree?]

/-- The ways to fail on `b` for an operation that writes a tree, or none: the fault, and the buffer
left behind. -/
inductive Failure (b : Buffer) : Option Nbt.Tree → Fault → Buffer → Prop where
  /-- A check refused. -/
  | refused (why : Mismatch) (h : b.layout? ≠ none) : Failure b none (.typeMismatch why) b
  /-- A decoder stopped. -/
  | stopped {e : Fault} {s : Bytes} (h : Stop e s) (b' : Buffer) : Failure b none e b'
  /-- A position is past the end. -/
  | past {position : Nat} (h : b.size < position) :
    Failure b none (.underflow (position - b.cursor) b.unreadSize) b
  /-- A tree was written up to what cannot be written. -/
  | torn {t : Nbt.Tree} (cause : Nbt.WriteFault) (h : ¬ Nbt.EntriesWritable t.entries) :
    Failure b (some t) (.structureEncode cause) (b.extend t.emit.bytes)

/-- `m` passes, or refuses a buffer with a layout; the buffer stays as it was. -/
def Checks (m : Action Unit) : Prop :=
  ∀ b, m b = .ok () b ∨ b.layout? ≠ none ∧ ∃ why, m b = .error (.typeMismatch why) b

theorem checks_raw : Checks checkRaw := by
  intro b
  cases hl : b.layout? with
  | none => exact .inl (checkRaw_of_none hl)
  | some l =>
    rw [checkRaw, bind_of_ok (get_eq b), hl]
    exact .inr ⟨Option.some_ne_none l, _, rfl⟩

theorem checks_field (t : WireType) : Checks (checkField t) := by
  intro b
  rcases checkField_cases t b with hok | ⟨why, he⟩
  · exact .inl hok
  · refine .inr ⟨fun hl => ?_, why, he⟩
    rw [checkField_of_none hl] at he
    cases he

/-- `m` fails in the ways of an operation that writes a tree, or none. -/
def Fails (m : Action α) (tree? : Option Nbt.Tree) : Prop :=
  ∀ b e b', m b = .error e b' → Failure b tree? e b'

namespace Fails

variable {d : Decoder α} {m : Action α} {tree? : Option Nbt.Tree}

theorem map (hm : Fails m tree?) (g : α → β) : Fails (do return g (← m)) tree? := by
  intro b e b' h
  exact hm b e b' (map_eq_error_iff.mp h)

theorem of_ok (h : ∀ b, ∃ a b', m b = .ok a b') : Fails m tree? := by
  intro b e b' he
  obtain ⟨a, b'', hok⟩ := h b
  rw [hok] at he
  cases he

theorem ofDecoder (hd : Stops d) : Fails (Action.ofDecoder d) none := by
  intro b e b' h
  cases hrun : d b.unread with
  | ok a rest =>
    rw [Action.ofDecoder_of_ok hrun] at h
    cases h
  | error e' rest =>
    rw [Action.ofDecoder_of_error hrun] at h
    cases h
    exact .stopped (hd _ _ _ hrun) _

theorem inspect (hd : Stops d) : Fails (Action.inspect d) none := by
  intro b e b' h
  unfold Action.inspect at h
  split at h
  · cases h
  · next hrun =>
    cases h
    exact .stopped (hd _ _ _ hrun) _

theorem checked {c : Action Unit} (hc : Checks c) (hm : Fails m none) :
    Fails (do c; m) none := by
  intro b e b' h
  rcases hc b with hok | ⟨hl, why, herror⟩
  · rw [bind_of_ok hok] at h
    exact hm b e b' h
  · rw [bind_of_error herror] at h
    cases h
    exact .refused why hl

/-- What `m` does may depend on the buffer. -/
theorem withBuffer {f : Buffer → Action α}
    (hf : ∀ b e b', f b b = .error e b' → Failure b tree? e b') : Fails (do f (← get)) tree? := hf

theorem setCursor (position : Nat) : Fails (setCursor position) none := by
  intro b e b' h
  rcases setCursor_cases position b with ⟨hl, why, he⟩ | ⟨hlt, he⟩ | ⟨-, hok⟩
  · cases he.symm.trans h
    exact .refused why hl
  · cases he.symm.trans h
    exact .past hlt
  · cases hok.symm.trans h

theorem read (t : WireType) : Fails (Buffer.read t) none :=
  checked (checks_field t) (withBuffer fun b => ofDecoder (stops_inherited.decode b.limits t) b)

theorem skip (t : WireType) : Fails (Buffer.skip t) none :=
  checked (checks_field t) (withBuffer fun b => ofDecoder (stops_inherited.skipType b.limits t) b)

theorem readText (max : Nat) : Fails (Buffer.readText max) none :=
  checked (checks_field .string) (ofDecoder (stops_inherited.text max))

theorem writeTree (t : Nbt.Tree) : Fails (Buffer.writeTree t) (some t) := by
  intro b e b' h
  have hw : ¬ Nbt.EntriesWritable t.entries := by
    intro hw
    rw [← Nbt.emit_fault?_eq_none_iff] at hw
    rw [Buffer.writeTree, Action.ofEmission_of_none hw] at h
    cases h
  obtain ⟨cause, hcause⟩ := Nbt.emit_of_not_writable hw
  rw [Buffer.writeTree, Action.ofEmission_of_some hcause] at h
  cases h
  exact .torn cause hw

/-- A field is written as its tree, or cannot fail. -/
theorem write (f : Field) : Fails (Buffer.write f) (Operation.write f).tree? := by
  cases h : (Operation.write f).tree? with
  | none =>
    have hok : f.emit.fault? = none := (Field.emit_fault?_eq_none_iff f).mpr fun t ht => by
      rw [Operation.tree?_write_eq_some_iff.mpr ht] at h
      cases h
    exact of_ok fun b => ⟨_, _, Action.ofEmission_of_none hok⟩
  | some t =>
    intro b e b' herror
    rw [Buffer.write, Field.emit_of_tree (Operation.tree?_write_eq_some_iff.mp h)] at herror
    exact writeTree t b e b' herror

end Fails

/-- **How operations fail.** -/
theorem failure_run (op : Operation) : Fails op.run op.tree? := by
  cases op with
  | rawByte => exact .map (.checked checks_raw (.ofDecoder stops_inherited.byte)) _
  | rawPeek => exact .map (.checked checks_raw (.inspect .peek)) _
  | rawTake n => exact .map (.checked checks_raw (.ofDecoder (stops_inherited.take n))) _
  | rawSkip n => exact .map (.checked checks_raw (.ofDecoder (stops_inherited.skip n))) _
  | setCursor position => exact .map (.setCursor position) _
  | read t => exact .map (.read t) _
  | readText max => exact .map (.readText max) _
  | readTree budget => exact .map (.ofDecoder (.tree budget)) _
  | skip t => exact .map (.skip t) _
  | write f => exact .map (.write f) _
  | writeTree t => exact .map (.writeTree t) _
  | append _ => exact .of_ok fun b => ⟨_, _, rfl⟩
  | clear => exact .of_ok fun b => ⟨_, _, rfl⟩
  | useLimits _ => exact .of_ok fun b => ⟨_, _, rfl⟩
  | limits => exact .of_ok fun b => ⟨_, _, rfl⟩
  | hasUnread => exact .of_ok fun b => ⟨_, _, rfl⟩
  | unreadSize => exact .of_ok fun b => ⟨_, _, rfl⟩
  | content => exact .of_ok fun b => ⟨_, _, rfl⟩
  | unread => exact .of_ok fun b => ⟨_, _, rfl⟩

/-- Without a layout nothing but a tree is refused: whatever else fails, a decoder failed. -/
theorem Failure.desynchronises (h : Failure b none e b') (hl : b.layout? = none) :
    e.desynchronises = true := by
  cases h with
  | refused why hlayout => exact absurd hl hlayout
  | stopped hstop _ => exact hstop.desynchronises
  | past _ => rfl

/-! ### Reads of a fixed width -/

/-- The width of a read or a skip that takes the same number of bytes whatever they are. -/
def Operation.width? : Operation → Option Nat
  | rawByte | rawPeek => some 1
  | rawTake n | rawSkip n => some n
  | read t | skip t => t.width?
  | _ => none

/-- `m` takes `n` bytes or leaves everything, and without a layout it wants nothing but the
bytes. -/
def Atomic (m : Action α) (n : Nat) : Prop :=
  ∀ b e b', (m b = .error e b' → b' = b) ∧
    (b.layout? = none →
      (m b = .error e b' ↔ b.unreadSize < n ∧ e = .underflow n b.unreadSize ∧ b' = b))

namespace Atomic

variable {d : Decoder α} {m : Action α}

theorem of_iff (h : ∀ b e b',
    m b = .error e b' ↔ b.unreadSize < n ∧ e = .underflow n b.unreadSize ∧ b' = b) :
    Atomic m n := by
  intro b e b'
  refine ⟨fun herror => ?_, fun _ => h b e b'⟩
  obtain ⟨-, -, hsame⟩ := (h b e b').mp herror
  exact hsame

theorem map (hm : Atomic m n) (g : α → β) : Atomic (do return g (← m)) n := by
  intro b e b'
  rw [map_eq_error_iff]
  exact hm b e b'

theorem ofDecoder (hd : Wants d n) : Atomic (Action.ofDecoder d) n := by
  refine of_iff fun b e b' => ?_
  rw [Action.ofDecoder_eq_error_iff]
  constructor
  · rintro ⟨rest, hrun, rfl⟩
    obtain ⟨hlt, rfl, rfl⟩ := (hd _ _ _).mp hrun
    rw [length_unread] at hlt ⊢
    exact ⟨hlt, rfl, leaving_unreadSize b⟩
  · rintro ⟨hlt, rfl, rfl⟩
    rw [← length_unread] at hlt ⊢
    exact ⟨_, (hd _ _ _).mpr ⟨hlt, rfl, rfl⟩, by rw [length_unread, leaving_unreadSize]⟩

theorem inspect (hd : Wants d n) : Atomic (Action.inspect d) n := by
  refine of_iff fun b e b' => ?_
  rw [Action.inspect_eq_error_iff]
  constructor
  · rintro ⟨⟨rest, hrun⟩, rfl⟩
    obtain ⟨hlt, rfl, -⟩ := (hd _ _ _).mp hrun
    rw [← length_unread]
    exact ⟨hlt, rfl, rfl⟩
  · rintro ⟨hlt, rfl, rfl⟩
    rw [← length_unread] at hlt ⊢
    exact ⟨⟨_, (hd _ _ _).mpr ⟨hlt, rfl, rfl⟩⟩, rfl⟩

theorem checked {c : Action Unit} (hc : Checks c) (hm : Atomic m n) : Atomic (do c; m) n := by
  intro b e b'
  rcases hc b with hok | ⟨hl, why, herror⟩
  · rw [bind_of_ok hok]
    exact hm b e b'
  · rw [bind_of_error herror]
    refine ⟨?_, fun hnone => absurd hnone hl⟩
    rintro ⟨⟩
    rfl

theorem read {t : WireType} (h : t.width? = some n) : Atomic (Buffer.read t) n := by
  refine checked (checks_field t) fun b => ?_
  exact ofDecoder (Wants.decode h b.limits) b

theorem skip {t : WireType} (h : t.width? = some n) : Atomic (Buffer.skip t) n := by
  refine checked (checks_field t) fun b => ?_
  exact ofDecoder (Wants.skipType h b.limits) b

end Atomic

theorem atomic_run {op : Operation} (h : op.width? = some n) : Atomic op.run n := by
  cases op with
  | rawByte =>
    cases h
    exact .map (.checked checks_raw (.ofDecoder .byte)) _
  | rawPeek =>
    cases h
    exact .map (.checked checks_raw (.inspect .peek)) _
  | rawTake =>
    cases h
    exact .map (.checked checks_raw (.ofDecoder (.take n))) _
  | rawSkip =>
    cases h
    exact .map (.checked checks_raw (.ofDecoder (.skip n))) _
  | read t => exact .map (.read h) _
  | skip t => exact .map (.skip h) _
  | _ => cases h

end Buffer

/-! ### Frames -/

namespace Frame

variable {c : Codec} {f : Frame} {src rest dst dst' : Bytes} {e : Fault}

theorem desynchronises_of_decode (h : c.decode src = .error e rest) : e.desynchronises = true := by
  cases answer_of_decode h with
  | endless hlen hs => rfl
  | oversized hd hlt => rfl
  | noId hd hle hlen he => cases he <;> rfl

/-- What ends in the middle of a frame stays where it is. -/
theorem decodeEnd_unchanged (h : c.decodeEnd src = .error e rest) (he : e.desynchronises = false) :
    rest = src := by
  cases hdecode : c.decode src with
  | error e' rest' =>
    rw [Codec.decodeEnd, bind_of_error hdecode] at h
    cases h
    rw [desynchronises_of_decode hdecode] at he
    cases he
  | ok frame rest' =>
    cases frame with
    | some frame =>
      rw [Codec.decodeEnd, bind_of_ok hdecode] at h
      cases h
    | none =>
      obtain rfl := decode_none hdecode
      rw [decodeEnd_of_none hdecode] at h
      split_ifs at h
      cases h
      rfl

theorem encode_unchanged (h : c.encode f dst = .error e dst') : dst' = dst := by
  by_cases hlt : c.limit < f.declaredSize
  · rw [encode_of_lt hlt] at h
    cases h
    rfl
  · rw [encode_of_le (Nat.le_of_not_lt hlt)] at h
    cases h

end Frame

/-- **What a rejection leaves behind.**  A fault that does not desynchronise leaves a buffer as it
was if and only if no tree was being written; a tree that is refused is left begun.  It leaves the
bytes received as they were, and a frame that is refused leaves those to be sent as they were. -/
theorem rejection_unchanged_iff {e : Fault} (he : e.desynchronises = false) :
    (∀ (op : Buffer.Operation) (b b' : Buffer), op.run b = .error e b' →
      (b' = b ↔ op.tree? = none) ∧
      ∀ t, op.tree? = some t → ¬ Nbt.EntriesWritable t.entries ∧
        ∃ cause front, e = .structureEncode cause ∧ [Nbt.Tag.compoundId, 0, 0] <+: front ∧
          front <+: Nbt.treeEncoding t ∧ b' = b.extend front) ∧
    (∀ (codec : Frame.Codec) (src rest : Bytes),
      codec.decode src = .error e rest ∨ codec.decodeEnd src = .error e rest → rest = src) ∧
    ∀ (codec : Frame.Codec) (f : Frame) (dst dst' : Bytes) (refused : Fault),
      codec.encode f dst = .error refused dst' → dst' = dst := by
  refine ⟨fun op b b' h => ?_, ?_, fun _ _ _ _ _ => Frame.encode_unchanged⟩
  · have hfailure := Buffer.failure_run op b e b' h
    generalize op.tree? = tree? at hfailure ⊢
    cases hfailure with
    | refused why hl => exact ⟨iff_of_true rfl rfl, nofun⟩
    | stopped hstop _ =>
      rw [hstop.desynchronises] at he
      cases he
    | past _ => cases he
    | @torn t cause hw =>
      obtain ⟨hbegun, hprefix⟩ := Nbt.emit_bytes_prefix t
      refine ⟨iff_of_false (fun hsame => ?_) nofun, ?_⟩
      · have hbytes : b.bytes ++ t.emit.bytes = b.bytes := congrArg Buffer.bytes hsame
        rw [List.append_right_eq_self.mp hbytes] at hbegun
        exact absurd (List.prefix_nil.mp hbegun) (List.cons_ne_nil _ _)
      · rintro t' ⟨⟩
        exact ⟨hw, cause, _, rfl, hbegun, hprefix, rfl⟩
  · rintro codec src rest (h | h)
    · rw [Frame.desynchronises_of_decode h] at he
      cases he
    · exact Frame.decodeEnd_unchanged h he

/-- A list of two types is refused behind its key; a stream that ends within a frame, and a frame
that is too large, leave the bytes as they were. -/
theorem rejection_unchanged_iff_mixed :
    let mixed : Nbt.Tree := .ofList [("a", .list [.byte 1, .short 1])]
    let begun := Buffer.ofBytes [10, 0, 0, 9, 0, 1, 97]
    (Buffer.Operation.writeTree mixed).run .empty = .error (.structureEncode .mixedList) begun ∧
      begun ≠ .empty ∧
      (∃ e rest, Frame.Codec.standard.decodeEnd [2, 1] = .error e rest ∧ rest = [2, 1]) ∧
      ∃ e dst, (Frame.Codec.make 0 .standard).encode ⟨1, .empty⟩ [7] = .error e dst ∧
        dst = [7] := by
  intro mixed begun
  have hmixed : (Buffer.Operation.writeTree mixed).run .empty =
      .error (.structureEncode .mixedList) begun := rfl
  have hend : Frame.Codec.standard.decodeEnd [2, 1] =
      .error (.io "bytes remaining on stream") [2, 1] := rfl
  have hpos : 0 < Frame.declaredSize ⟨1, .empty⟩ := by
    rw [Frame.declaredSize, VarInt.size, VarInt.sizeOfNat, if_pos (by decide)]
    exact Nat.zero_lt_succ 0
  have hlarge := Frame.encode_of_lt (c := .make 0 .standard) hpos [7]
  obtain ⟨hrun, -, hencode⟩ := rejection_unchanged_iff (e := .structureEncode .mixedList) rfl
  obtain ⟨-, hdecode, -⟩ := rejection_unchanged_iff (e := .io "bytes remaining on stream") rfl
  refine ⟨hmixed, fun hsame => ?_, ⟨_, _, hend, hdecode _ _ _ (.inr hend)⟩,
    ⟨_, _, hlarge, hencode _ _ _ _ _ hlarge⟩⟩
  have hnone : some mixed = none := (hrun _ _ _ hmixed).1.mp hsame
  exact absurd hnone (Option.some_ne_none mixed)

/-- A rejection need not leave the buffer as it was. -/
theorem not_rejection_unchanged :
    ¬ ∀ (op : Buffer.Operation) (b b' : Buffer) (e : Fault), op.run b = .error e b' →
      e.desynchronises = false → b' = b := by
  intro h
  have hsame := h (.writeTree (.ofList [("a", .list [.byte 1, .short 1])])) .empty
    (.ofBytes [10, 0, 0, 9, 0, 1, 97]) (.structureEncode .mixedList) rfl rfl
  exact nomatch congrArg Buffer.bytes hsame

/-- **On bytes that were received every fault desynchronises**: of all operations only the writing
of a tree fails otherwise on a buffer without a layout.  A read of a fixed width that fails changes
nothing, and without a layout it fails for want of bytes only. -/
theorem received_faults (op : Buffer.Operation) (b b' : Buffer) (codec : Frame.Codec)
    (src rest : Bytes) (e : Fault) :
    (op.tree? = none → b.layout? = none → op.run b = .error e b' → e.desynchronises = true) ∧
    (codec.decode src = .error e rest → e.desynchronises = true) ∧
    ∀ n, op.width? = some n →
      (op.run b = .error e b' → b' = b) ∧
      (b.layout? = none → (op.run b = .error e b' ↔
        b.unreadSize < n ∧ e = .underflow n b.unreadSize ∧ b' = b)) := by
  refine ⟨fun htree hl h => ?_, Frame.desynchronises_of_decode, fun n hwidth => ?_⟩
  · have hfailure := Buffer.failure_run op b e b' h
    rw [htree] at hfailure
    exact hfailure.desynchronises hl
  · exact Buffer.atomic_run hwidth b e b'

/-- A number of four bytes, a tree and a frame, each read from bytes that do not hold one. -/
theorem received_faults_short :
    let b := Buffer.ofBytes [1, 2]
    (Buffer.Operation.read .int).run b = .error (.underflow 4 2) b ∧
      (∃ e b', (Buffer.Operation.readTree ⟨84, 0⟩).run b = .error e b' ∧ e.desynchronises = true) ∧
      ∃ e rest, Frame.Codec.standard.decode [128, 128, 128] = .error e rest ∧
        e.desynchronises = true := by
  intro b
  have htree : (Buffer.Operation.readTree ⟨84, 0⟩).run b =
      .error (.structureDecode .rootNotCompound) (b.advance 1) := rfl
  have hframe : Frame.Codec.standard.decode [128, 128, 128] =
      .error .malformedVarInt [128, 128, 128] := rfl
  obtain ⟨-, -, hwidth⟩ := received_faults (.read .int) b b .standard [] [] (.underflow 4 2)
  obtain ⟨hop, -, -⟩ := received_faults (.readTree ⟨84, 0⟩) b _ .standard [] [] _
  obtain ⟨-, hdecode, -⟩ := received_faults .content b b .standard [128, 128, 128] _ _
  refine ⟨?_, ⟨_, _, htree, hop rfl rfl htree⟩, ⟨_, _, hframe, hdecode hframe⟩⟩
  exact ((hwidth 4 rfl).2 rfl).mpr ⟨by decide, rfl, rfl⟩

end Wireform
