import Wireform.Proofs.Buffer
import Wireform.Proofs.Codec.Composition
import Wireform.Proofs.Codec.Consumption
import Wireform.Proofs.Nbt.Recognition

/-!
# Wire types delimit themselves

What a decoder consumed is all that it depends on: wherever the same bytes stand again, and whatever
follows them, it reads the same from them.  Two decoders look at the number of bytes left and one
keeps a quota; none of them answers differently when more bytes follow.
-/

namespace Wireform

variable {α β : Type} {limits : Limits}

/-- The first byte tells a tree from the end mark. -/
theorem nbt_eq_ok_iff {bytes rest : Bytes} {tree : Option Nbt.Tree} :
    Decode.nbt limits bytes = .ok tree rest ↔
      (bytes = Nbt.endId :: rest ∧ tree = none) ∨
      ∃ d : Nbt.Grammar.Root, bytes = d.bytes ++ rest ∧ d.charge ≤ limits.nbtQuota ∧
        d.height ≤ limits.nbtDepth ∧ tree = some d.tree := by
  constructor
  · intro hrun
    rcases bytes with _ | ⟨b, bytes⟩
    · cases hrun
    by_cases hb : b = Nbt.endId
    · subst hb
      have hnone := decodes_nbt_none limits bytes
      rw [List.singleton_append, hrun] at hnone
      cases hnone
      exact .inl ⟨rfl, rfl⟩
    · rw [nbt_cons_of_ne limits hb] at hrun
      cases htree : Nbt.decodeTree ⟨limits.nbtQuota, limits.nbtDepth⟩ (b :: bytes) with
      | error e rest' =>
        rw [bind_of_error htree] at hrun
        cases hrun
      | ok c rest' =>
        rw [bind_of_ok htree] at hrun
        cases hrun
        obtain ⟨d, hbytes, hcharge, hheight, rfl⟩ := Nbt.decodeTree_eq_ok_iff.mp htree
        exact .inr ⟨d, hbytes, hcharge, hheight, rfl⟩
  · rintro (⟨rfl, rfl⟩ | ⟨d, rfl, hcharge, hheight, rfl⟩)
    · exact decodes_nbt_none limits rest
    · rw [nbt_root, bind_of_ok ((Nbt.decodeTree_root d _ rest).1 ⟨hcharge, hheight⟩), pure_eq]

/-- What `d` reads stands in front of what it leaves, and `d` reads it from there whatever else
follows. -/
def Delimited (d : Decoder α) : Prop :=
  ∀ s rest a, d s = .ok a rest → ∃ front, s = front ++ rest ∧ Decodes d front a

namespace Delimited

variable {d : Decoder α} {f : α → Decoder β}

theorem of_error (h : ∀ s, ∃ e s', d s = .error e s') : Delimited d := by
  intro s rest a hrun
  obtain ⟨e, s', herr⟩ := h s
  rw [herr] at hrun
  cases hrun

theorem bind (hd : Delimited d) (hf : ∀ a, Delimited (f a)) : Delimited (d >>= f) := by
  intro s rest b hrun
  cases hfirst : d s with
  | error e s' =>
    rw [bind_of_error hfirst] at hrun
    cases hrun
  | ok a s' =>
    rw [bind_of_ok hfirst] at hrun
    obtain ⟨front, rfl, hdecodes⟩ := hd _ _ _ hfirst
    obtain ⟨more, rfl, hdecodes'⟩ := hf a _ _ _ hrun
    exact ⟨front ++ more, (List.append_assoc _ _ _).symm, hdecodes.bind hdecodes'⟩

theorem take (n : Nat) : Delimited (Decoder.take n) := by
  intro s rest bytes hrun
  rcases Nat.lt_or_ge s.length n with hlt | hle
  · rw [Decoder.take_of_lt hlt] at hrun
    cases hrun
  · rw [Decoder.take_of_le hle] at hrun
    cases hrun
    have hlength : (s.take n).length = n := by
      rw [List.length_take, Nat.min_eq_left hle]
    have hdecodes := Decodes.take (s.take n)
    rw [hlength] at hdecodes
    exact ⟨s.take n, (List.take_append_drop n s).symm, hdecodes⟩

theorem byte : Delimited Decoder.byte := by
  rintro (_ | ⟨b, s⟩) rest a hrun
  · cases hrun
  · cases hrun
    exact ⟨[b], rfl, .byte b⟩

end Delimited

theorem delimited_sequential : Sequential Delimited where
  pure a := by
    rintro s _ _ ⟨⟩
    exact ⟨[], rfl, .pure a⟩
  bind := Delimited.bind
  take := Delimited.take
  byte := Delimited.byte
  malformedVarInt := .of_error fun s => ⟨_, s, rfl⟩
  malformedVarLong := .of_error fun s => ⟨_, s, rfl⟩

/-- The number of bytes left only has to be large enough, and stays so when more follow. -/
theorem Delimited.bitSet : Delimited Decode.bitSet := by
  refine delimited_sequential.decode32.bind fun length s rest set hrun => ?_
  rw [bind_of_ok (Decoder.available_eq s)] at hrun
  by_cases hrefused : length < 0 ∨ s.length / 8 < length.toInt.toNat
  · rw [if_pos hrefused] at hrun
    cases hrun
  · rw [if_neg hrefused] at hrun
    obtain ⟨hnonneg, henough⟩ := not_or.mp hrefused
    have htaken := ((TakesUpTo.words length.toInt.toNat [] s).map BitSet.ofWords).eq_drop hrun
    obtain ⟨front, hs, hdecodes⟩ := delimited_sequential.words length.toInt.toNat s rest set hrun
    have hfront : length.toInt.toNat * 8 ≤ front.length := by
      have hlength := congrArg List.length hs
      have hdropped := congrArg List.length htaken
      rw [List.length_append] at hlength
      rw [List.length_drop] at hdropped
      omega
    refine ⟨front, hs, fun rest' => ?_⟩
    have hallowed : ¬ (length < 0 ∨ (front ++ rest').length / 8 < length.toInt.toNat) := by
      rw [not_or, List.length_append]
      exact ⟨hnonneg, by omega⟩
    rw [bind_of_ok (Decoder.available_eq _), if_neg hallowed]
    exact hdecodes rest'

theorem Delimited.nbt (limits : Limits) : Delimited (Decode.nbt limits) := by
  intro bytes rest tree hrun
  rcases nbt_eq_ok_iff.mp hrun with ⟨rfl, rfl⟩ | ⟨d, hbytes, hcharge, hheight, rfl⟩
  · exact ⟨[Nbt.endId], rfl, decodes_nbt_none limits⟩
  · exact ⟨d.bytes, hbytes, fun rest' =>
      nbt_eq_ok_iff.mpr (.inr ⟨d, rfl, hcharge, hheight, rfl⟩)⟩

theorem delimited_inherited : Inherited Delimited where
  toSequential := delimited_sequential
  stringTooLong _ _ := .of_error fun s => ⟨_, s, rfl⟩
  negative := .of_error fun s => ⟨_, s, rfl⟩
  bitSet := .bitSet
  nbt := .nbt

theorem decode_nil (limits : Limits) (t : WireType) : ∃ e s, t.decode limits [] = .error e s := by
  cases t <;> exact ⟨_, _, rfl⟩

theorem skip_nil (limits : Limits) (t : WireType) : ∃ e s, t.skip limits [] = .error e s := by
  cases t <;> exact ⟨_, _, rfl⟩

/-! ### Reads of a buffer -/

namespace Buffer

/-- What `m` takes from a buffer is all that its answer depends on.  In any buffer with the same
limits it answers the same if the unread bytes begin with what it took, and nothing if they end
before that does. -/
def SelfDelimiting (m : Action α) : Prop :=
  ∀ b b' a, b.layout? = none → m b = .ok a b' →
    ∃ s, s ≠ [] ∧ b.unread = s ++ b'.unread ∧ b' = b.advance s.length ∧
      ∀ c : Buffer, c.layout? = none → c.limits = b.limits →
        (s <+: c.unread → m c = .ok a (c.advance s.length)) ∧
        (c.unread <+: s → c.unread ≠ s → ¬ ∃ a' c', m c = .ok a' c')

/-- A read of a buffer without a layout: the run of a decoder that the limits determine, and that
delimits what it reads and takes something. -/
structure Runs (m : Action α) (d : Limits → Decoder α) : Prop where
  run : ∀ b : Buffer, b.layout? = none → m b = Action.ofDecoder (d b.limits) b
  delimited : ∀ limits, Delimited (d limits)
  nil : ∀ limits, ∃ e s, d limits [] = .error e s

namespace Runs

variable {m : Action α} {d : Limits → Decoder α} {b b' c : Buffer} {s : Bytes} {a : α}

theorem ne_nil (h : Runs m d) (hs : Decodes (d limits) s a) : s ≠ [] := by
  rintro rfl
  obtain ⟨e, s, herr⟩ := h.nil limits
  have hok := hs []
  rw [List.append_nil, herr] at hok
  cases hok

/-- What was taken is what the decoder reads. -/
theorem exists_front (h : Runs m d) (hb : b.layout? = none) (hrun : m b = .ok a b') :
    ∃ s, Decodes (d b.limits) s a ∧ b.unread = s ++ b'.unread ∧
      b' = b.advance s.length := by
  rw [h.run b hb, Action.ofDecoder_eq_ok_iff] at hrun
  obtain ⟨rest, hrun, rfl⟩ := hrun
  obtain ⟨s, hs, hdecodes⟩ := h.delimited b.limits _ _ _ hrun
  exact ⟨s, hdecodes, by rw [unread_leaving hs, hs], leaving_of_unread hs⟩

/-- What the decoder reads is taken wherever it is the next to read. -/
theorem run_of_starts (h : Runs m d) (hc : c.layout? = none) (hs : Decodes (d c.limits) s a)
    (hstarts : s <+: c.unread) : m c = .ok a (c.advance s.length) := by
  obtain ⟨rest, hrest⟩ := hstarts
  rw [h.run c hc]
  exact Action.ofDecoder_of_front hrest.symm (hs rest)

/-- What is enough for a read is enough for it anywhere, and no part of it is. -/
theorem delimits (h : Runs m d) : SelfDelimiting m := by
  intro b b' a hb hrun
  obtain ⟨s, hs, hunread, hb'⟩ := h.exists_front hb hrun
  refine ⟨s, h.ne_nil hs, hunread, hb', fun c hc hlimits => ⟨?_, ?_⟩⟩
  · exact h.run_of_starts hc (hlimits ▸ hs)
  · rintro hbegins hproper ⟨a', c', hrun'⟩
    -- the part that was enough for `c` would have been enough for `b`
    obtain ⟨s', hs', hunread', -⟩ := h.exists_front hc hrun'
    have hwithin : s' <+: c.unread := ⟨_, hunread'.symm⟩
    have hrun'' := h.run_of_starts hb (hlimits ▸ hs')
      ((hwithin.trans hbegins).trans ⟨_, hunread.symm⟩)
    rw [hrun, hb'] at hrun''
    injection hrun'' with _ hsame
    have hle := hwithin.length_le
    have hlt : c.unread.length < s.length := Nat.lt_of_le_of_ne hbegins.length_le fun heq =>
      hproper (hbegins.eq_of_length heq)
    have hsize := length_le_unreadSize hunread
    rw [advance_inj hsize (by omega)] at hsame
    omega

end Runs

theorem runs_read (t : WireType) : Runs (read t) fun limits => t.decode limits where
  run _ hb := read_of_checkField (checkField_of_none hb)
  delimited limits := delimited_inherited.decode limits t
  nil limits := decode_nil limits t

theorem runs_skip (t : WireType) : Runs (skip t) fun limits => t.skip limits where
  run _ hb := skip_of_checkField (checkField_of_none hb)
  delimited limits := delimited_inherited.skipType limits t
  nil limits := skip_nil limits t

theorem runs_readText (max : Nat) : Runs (readText max) fun _ => Decode.text max where
  run _ hb := readText_of_checkField max (checkField_of_none hb)
  delimited _ := delimited_inherited.text max
  nil _ := ⟨_, _, rfl⟩

/-- **Every wire type delimits itself**, read or passed over, and so does a text of any length. -/
theorem selfDelimiting : (∀ t, SelfDelimiting (read t)) ∧ (∀ t, SelfDelimiting (skip t)) ∧
    ∀ max, SelfDelimiting (readText max) := by
  refine ⟨fun t => ?_, fun t => ?_, fun max => ?_⟩
  · exact (runs_read t).delimits
  · exact (runs_skip t).delimits
  · exact (runs_readText max).delimits

example : read .varInt (ofBytes [0x80, 0x01, 0x07]) =
    .ok (.int32 128) ((ofBytes [0x80, 0x01, 0x07]).advance 2) := rfl

end Buffer

end Wireform
