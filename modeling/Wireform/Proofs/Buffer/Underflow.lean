import Wireform.Proofs.Buffer.Faults

/-!
# Reports of underflow

An underflow names the bytes that were wanted and the bytes that are left.  Wherever bytes are taken
and wherever the cursor is moved the report is true: fewer are left than were wanted.  One report is
not: a negative count that is to be passed over wants no bytes, and fails for want of them.
-/

namespace Wireform

variable {α β : Type}

/-! ### Decoders -/

/-- An underflow names the bytes that are left, and more were wanted. -/
def Fault.TrueOf : Fault → Bytes → Prop
  | underflow n available, left => available = left.length ∧ available < n
  | _, _ => True

theorem trueOf_ofReaders : OfReaders Fault.TrueOf where
  short h := ⟨rfl, h⟩
  varInt _ := trivial
  varLong _ := trivial
  text _ _ _ := trivial
  bitSet _ _ _ := trivial
  tree _ _ := trivial

/-- Every underflow of `d` is true. -/
def Truthful (d : Decoder α) : Prop := FailsWith Fault.TrueOf d

/-- **Readers report underflow truly.** -/
theorem truthful_readable : Readable Truthful := trueOf_ofReaders.readable

theorem Truthful.tree (budget : Nbt.Budget) : Truthful (Nbt.decodeTree budget) :=
  FailsWith.decodeTree trueOf_ofReaders budget

/-- The two ways of an underflow, by whether a count was negative: more bytes were wanted than are
left, or none were. -/
inductive Told (negative : Prop) : Nat → Nat → Prop where
  | truly {n available : Nat} (h : ¬ negative) (hlt : available < n) : Told negative n available
  | falsely {available : Nat} (h : negative) : Told negative 0 available

/-- Every underflow of `d` names the bytes that are left, and is false on bytes that are `negative`
only. -/
def Reports (negative : Bytes → Prop) (d : Decoder α) : Prop :=
  ∀ s n available s', d s = .error (.underflow n available) s' →
    available = s'.length ∧ Told (negative s) n available

theorem Reports.congr {p q : Bytes → Prop} {d : Decoder α} (hd : Reports p d)
    (h : ∀ s, p s ↔ q s) : Reports q d := by
  intro s n available s' herror
  rw [← h s]
  exact hd s n available s' herror

theorem Truthful.reports {negative : Bytes → Prop} {d : Decoder α} (hd : Truthful d)
    (h : ∀ s, ¬ negative s) : Reports negative d := by
  intro s n available s' herror
  obtain ⟨hleft, hlt⟩ := hd s _ s' herror
  exact ⟨hleft, .truly (h s) hlt⟩

namespace Decode

/-- The bytes begin with a negative count. -/
def Negative (s : Bytes) : Prop :=
  ∃ (count : Int32) (rest : Bytes), VarInt.decode32 s = .ok count rest ∧ count < 0

/-- What passing over a value of a type meets is a negative count: the first count of the value, or
the second of an identifier, behind a first part that is there. -/
inductive NegativeCount : WireType → Bytes → Prop where
  | string {s : Bytes} (h : Negative s) : NegativeCount .string s
  | bitSet {s : Bytes} (h : Negative s) : NegativeCount .bitSet s
  | space {s : Bytes} (h : Negative s) : NegativeCount .identifier s
  | path {s rest : Bytes} (hspace : skipCounted 1 s = .ok () rest) (h : Negative rest) :
    NegativeCount .identifier s

variable {s : Bytes} {t : WireType}

theorem skipCounted_of_negative (unit : Nat) (h : Negative s) :
    ∃ rest, skipCounted unit s = .error (.underflow 0 rest.length) rest := by
  obtain ⟨count, rest, hcount, hneg⟩ := h
  refine ⟨rest, ?_⟩
  rw [skipCounted, bind_of_ok hcount, if_pos hneg]
  rfl

/-- A negative count always fails so. -/
theorem skip_of_negativeCount (limits : Limits) (h : NegativeCount t s) :
    ∃ rest, t.skip limits s = .error (.underflow 0 rest.length) rest := by
  cases h with
  | string h => exact skipCounted_of_negative 1 h
  | bitSet h => exact skipCounted_of_negative 8 h
  | space h =>
    obtain ⟨rest, hrun⟩ := skipCounted_of_negative 1 h
    exact ⟨rest, bind_of_error hrun⟩
  | path hspace h =>
    obtain ⟨rest, hrun⟩ := skipCounted_of_negative 1 h
    exact ⟨rest, (bind_of_ok hspace).trans hrun⟩

theorem reports_skipCounted (unit : Nat) : Reports Negative (skipCounted unit) := by
  intro s n available s' h
  by_cases hneg : Negative s
  · obtain ⟨rest, hrun⟩ := skipCounted_of_negative unit hneg
    rw [hrun] at h
    cases h
    exact ⟨rfl, .falsely hneg⟩
  · rw [skipCounted, bind_eq_error_iff] at h
    rcases h with h | ⟨count, rest, hcount, h⟩
    · obtain ⟨hleft, hlt⟩ := truthful_readable.decode32 _ _ _ h
      exact ⟨hleft, .truly hneg hlt⟩
    · rw [if_neg fun hlt => hneg ⟨count, rest, hcount, hlt⟩] at h
      obtain ⟨hleft, hlt⟩ := truthful_readable.skip _ _ _ _ h
      exact ⟨hleft, .truly hneg hlt⟩

/-- The second count of an identifier is met only where the first part is passed over. -/
theorem reports_identifier (limits : Limits) :
    Reports (NegativeCount .identifier) (WireType.skip limits .identifier) := by
  intro s n available s' h
  by_cases hneg : NegativeCount .identifier s
  · obtain ⟨rest, hrun⟩ := skip_of_negativeCount limits hneg
    rw [hrun] at h
    cases h
    exact ⟨rfl, .falsely hneg⟩
  · rcases bind_eq_error_iff.mp h with h | ⟨⟨⟩, mid, hspace, h⟩
    · obtain ⟨hleft, ⟨-, hlt⟩ | ⟨hfirst⟩⟩ := reports_skipCounted 1 _ _ _ _ h
      · exact ⟨hleft, .truly hneg hlt⟩
      · exact absurd (.space hfirst) hneg
    · obtain ⟨hleft, ⟨-, hlt⟩ | ⟨hsecond⟩⟩ := reports_skipCounted 1 _ _ _ _ h
      · exact ⟨hleft, .truly hneg hlt⟩
      · exact absurd (.path hspace hsecond) hneg

/-- **What passing over a value reports.** -/
theorem reports_skip (limits : Limits) (t : WireType) :
    Reports (NegativeCount t) (t.skip limits) := by
  cases t
  case string => exact (reports_skipCounted 1).congr fun s => ⟨.string, fun | .string h => h⟩
  case bitSet => exact (reports_skipCounted 8).congr fun s => ⟨.bitSet, fun | .bitSet h => h⟩
  case identifier => exact reports_identifier limits
  case varInt => exact (truthful_readable.map truthful_readable.decode32 _).reports nofun
  case varLong => exact (truthful_readable.map truthful_readable.decode64 _).reports nofun
  case nbt => exact (truthful_readable.map (truthful_readable.nbt limits) _).reports nofun
  all_goals exact (truthful_readable.skip _).reports nofun

end Decode

/-! ### Operations -/

namespace Buffer

variable {b b' : Buffer} {negative : Bytes → Prop}

/-- Every underflow of `m` names the bytes that are left in the buffer, and is false where what was
unread is `negative` only. -/
def Tells (negative : Bytes → Prop) (m : Action α) : Prop :=
  ∀ b n available b', m b = .error (.underflow n available) b' →
    available = b'.unreadSize ∧ Told (negative b.unread) n available

namespace Tells

variable {d : Decoder α} {m : Action α}

theorem map (hm : Tells negative m) (g : α → β) : Tells negative (do return g (← m)) := by
  intro b n available b' h
  exact hm b n available b' (map_eq_error_iff.mp h)

theorem of_ok (h : ∀ b, ∃ a b', m b = .ok a b') : Tells negative m := by
  intro b n available b' herror
  obtain ⟨a, b'', hok⟩ := h b
  rw [hok] at herror
  cases herror

/-- A tree that cannot be written is no underflow. -/
theorem of_tree {t : Nbt.Tree} (hm : Fails m (some t)) : Tells negative m := by
  intro b n available b' h
  cases hm b _ b' h

theorem checked {c : Action Unit} (hc : Checks c) (hm : Tells negative m) :
    Tells negative (do c; m) := by
  intro b n available b' h
  rcases hc b with hok | ⟨-, why, herror⟩
  · rw [bind_of_ok hok] at h
    exact hm b n available b' h
  · rw [bind_of_error herror] at h
    cases h

theorem ofDecoder (hforward : Forward d) (hd : Reports negative d) :
    Tells negative (Action.ofDecoder d) := by
  intro b n available b' h
  obtain ⟨rest, hrun, rfl⟩ := Action.ofDecoder_eq_error_iff.mp h
  obtain ⟨rfl, hwanted⟩ := hd _ _ _ _ hrun
  have hle := hforward b.unread
  rw [finalState_of_error hrun, length_unread] at hle
  exact ⟨(Nat.sub_sub_self (Nat.le_trans hle (Nat.sub_le _ _))).symm, hwanted⟩

/-- Where nothing is negative. -/
theorem of_truthful (hforward : Forward d) (hd : Truthful d) :
    Tells (fun _ => False) (Action.ofDecoder d) := ofDecoder hforward (hd.reports fun _ => id)

theorem peek : Tells (fun _ => False) (Action.inspect Decoder.peek) := by
  intro b n available b' h
  obtain ⟨⟨rest, hrun⟩, rfl⟩ := Action.inspect_eq_error_iff.mp h
  obtain ⟨hlt, ⟨⟩, -⟩ := (Wants.peek _ _ _).mp hrun
  rw [length_unread] at hlt ⊢
  exact ⟨rfl, .truly id hlt⟩

/-- Moving past the end wants what is beyond it as well. -/
theorem setCursor (position : Nat) : Tells (fun _ => False) (setCursor position) := by
  intro b n available b' h
  rcases setCursor_cases position b with ⟨-, why, he⟩ | ⟨hlt, he⟩ | ⟨-, hok⟩
  · cases he.symm.trans h
  · cases he.symm.trans h
    exact ⟨rfl, .truly id (Nat.sub_lt_sub_right b.inBounds hlt)⟩
  · cases hok.symm.trans h

theorem read (t : WireType) : Tells (fun _ => False) (Buffer.read t) := by
  refine checked (checks_field t) fun b => ?_
  exact of_truthful (forward_inherited.decode b.limits t)
    (truthful_readable.decode b.limits t) b

theorem skip (t : WireType) : Tells (Decode.NegativeCount t) (Buffer.skip t) := by
  refine checked (checks_field t) fun b => ?_
  exact ofDecoder (forward_inherited.skipType b.limits t) (Decode.reports_skip b.limits t) b

theorem readText (max : Nat) : Tells (fun _ => False) (Buffer.readText max) :=
  checked (checks_field .string)
    (of_truthful (forward_inherited.text max) (truthful_readable.text max))

theorem write (f : Field) : Tells negative (Buffer.write f) := by
  have hfails := Fails.write f
  cases h : (Operation.write f).tree? with
  | some c => exact of_tree (h ▸ hfails)
  | none =>
    refine of_ok fun b => ⟨(), _, Action.ofEmission_of_none ?_⟩
    rw [Field.emit_fault?_eq_none_iff]
    intro c hc
    rw [Operation.tree?_write_eq_some_iff.mpr hc] at h
    cases h

end Tells

/-- What the operation meets in the unread bytes is a negative count that it is to pass over. -/
def Operation.MeetsNegative : Operation → Bytes → Prop
  | skip t, s => Decode.NegativeCount t s
  | _, _ => False

theorem tells_run (op : Operation) : Tells op.MeetsNegative op.run := by
  cases op with
  | rawByte =>
    refine .map (.checked checks_raw (.of_truthful forward_inherited.byte ?_)) _
    exact truthful_readable.byte
  | rawPeek => exact .map (.checked checks_raw .peek) _
  | rawTake n =>
    refine .map (.checked checks_raw (.of_truthful (forward_inherited.take n) ?_)) _
    exact truthful_readable.take n
  | rawSkip n =>
    refine .map (.checked checks_raw (.of_truthful (forward_inherited.skip n) ?_)) _
    exact truthful_readable.skip n
  | setCursor position => exact .map (.setCursor position) _
  | read t => exact .map (.read t) _
  | readText max => exact .map (.readText max) _
  | readTree budget => exact .map (.of_truthful (.tree budget) (.tree budget)) _
  | skip t => exact .map (.skip t) _
  | write f => exact .map (.write f) _
  | writeTree t => exact .map (.of_tree (.writeTree t)) _
  | _ => exact .of_ok fun b => ⟨_, _, rfl⟩

/-- **Reports of underflow.**  The bytes that are left are those the report names, and more were
wanted, unless a negative count was to be passed over; then none were wanted.  On a buffer without a
layout passing over a negative count always ends so. -/
theorem underflow_reports (op : Operation) (b : Buffer) :
    (∀ n available b', op.run b = .error (.underflow n available) b' →
      available = b'.unreadSize ∧ (available < n ↔ ¬ op.MeetsNegative b.unread) ∧
        (n = 0 ↔ op.MeetsNegative b.unread)) ∧
    (b.layout? = none → op.MeetsNegative b.unread →
      ∃ available b', op.run b = .error (.underflow 0 available) b') := by
  refine ⟨fun n available b' h => ?_, fun hl hneg => ?_⟩
  · obtain ⟨hleft, ⟨hneg, hlt⟩ | ⟨hneg⟩⟩ := tells_run op b n available b' h
    · exact ⟨hleft, iff_of_true hlt hneg, iff_of_false (Nat.ne_zero_of_lt hlt) hneg⟩
    · exact ⟨hleft, iff_of_false (Nat.not_lt_zero _) (not_not_intro hneg), iff_of_true rfl hneg⟩
  · cases op with
    | skip t =>
      obtain ⟨rest, hrun⟩ := Decode.skip_of_negativeCount b.limits hneg
      have hskip : Buffer.skip t b = .error (.underflow 0 rest.length)
          (b.leaving rest.length) := by
        rw [skip_of_checkField (checkField_of_none hl)]
        exact Action.ofDecoder_of_error hrun
      exact ⟨_, _, bind_of_error hskip⟩
    | _ => exact absurd hneg id

/-- A text cut short is reported truly; a count of minus one is not. -/
theorem underflow_reports_minus_one :
    let short := ofBytes [5, 104, 105]
    let negative := ofBytes [0xFF, 0xFF, 0xFF, 0xFF, 0x0F, 7]
    (∃ b', (Operation.skip .string).run short = .error (.underflow 5 2) b' ∧
      ¬ Operation.MeetsNegative (.skip .string) short.unread) ∧
    ∃ available b', (Operation.skip .string).run negative = .error (.underflow 0 available) b' := by
  intro short negative
  have hshort : (Operation.skip .string).run short =
      .error (.underflow 5 2) (short.advance 1) := rfl
  have hcount : VarInt.decode32 negative.unread = .ok (-1) [7] := rfl
  obtain ⟨hreports, -⟩ := underflow_reports (.skip .string) short
  obtain ⟨-, hfails⟩ := underflow_reports (.skip .string) negative
  obtain ⟨-, htrue, -⟩ := hreports _ _ _ hshort
  refine ⟨⟨_, hshort, htrue.mp (by decide)⟩, hfails rfl ?_⟩
  exact .string ⟨_, _, hcount, by decide⟩

/-- A report of underflow need not be true: no bytes are wanted where one is left. -/
theorem not_underflow_wanted :
    ¬ ∀ (op : Operation) (b b' : Buffer) (n available : Nat),
      op.run b = .error (.underflow n available) b' →
      available < n ∧ available = b'.unreadSize := by
  intro h
  have hrun : (Operation.skip .string).run (ofBytes [0xFF, 0xFF, 0xFF, 0xFF, 0x0F, 7]) =
      .error (.underflow 0 1) ((ofBytes [0xFF, 0xFF, 0xFF, 0xFF, 0x0F, 7]).advance 5) := rfl
  obtain ⟨hlt, -⟩ := h _ _ _ _ _ hrun
  exact absurd hlt (Nat.not_lt_zero 1)

end Buffer

end Wireform
