import Wireform.Proofs.Frame.RoundTrip
import Wireform.Proofs.Number.AnyBytes

/-!
# Numbers in the shortest form

Three loops take groups off a number: one splits a group off and then looks whether anything is
left, one looks first, and one only counts.  They agree on every number.  Longer forms are read as
well, but whatever bytes a number is read from, it is written in no more of them.
-/

namespace Wireform.Buffer

open VarInt

variable {α β : Type} {m : Action β} {value : α → β} {keep : Nat → α} {whole : α → Nat} {most : Nat}
  {tooBig : Fault}

/-- `m` reads `v` from `bytes v`, which are at most `most`, and from nothing shorter. -/
structure Canonical (m : Action β) (value : α → β) (bytes : α → Bytes) (most : Nat) : Prop where
  length_le : ∀ v, (bytes v).length ≤ most
  /-- A number reads back in front of anything, and what follows stays. -/
  read_back : ∀ v (b : Buffer) (rest : Bytes), b.layout? = none → b.unread = bytes v ++ rest →
    m b = .ok (value v) (b.advance (bytes v).length)
  /-- Whatever it was read from is no shorter. -/
  shortest : ∀ v (b b' : Buffer), b.layout? = none → m b = .ok (value v) b' →
    ∃ s, b.unread = s ++ b'.unread ∧ (bytes v).length ≤ s.length

/-- Reads of numbers of one size are read from numerals, and the shortest numeral is written. -/
theorem canonical_of_run (h : Sized keep whole most) (hvalue : Function.Injective value)
    (hrun : ∀ b : Buffer, b.layout? = none →
      m b = Action.ofDecoder (reader tooBig most fun n => value (keep n)) b) :
    Canonical m value (fun v => VarInt.ofNat (whole v)) most where
  length_le := h.length_le
  read_back v b rest hl hs := by
    have hnumber : Decodes (reader tooBig most keep) (VarInt.ofNat (whole v)) v := h.decodes v
    have hdecodes := hnumber.map (f := value)
    rw [reader_map] at hdecodes
    rw [hrun b hl]
    exact Action.ofDecoder_of_front hs (hdecodes rest)
  shortest v b b' hl hread := by
    rw [hrun b hl, Action.ofDecoder_eq_ok_iff] at hread
    obtain ⟨rest, hread, rfl⟩ := hread
    obtain ⟨d, -, hs, hv⟩ := reader_eq_ok_iff.mp hread
    obtain rfl := hvalue hv
    rw [unread_leaving hs]
    exact ⟨d.bytes, hs, h.length_le_width d⟩

/-- **Numbers are written in one form, the shortest that is read.**  The writer of frames appends
the same bytes as the writer of fields, as many as are counted without writing. -/
theorem numbers_canonical :
    (∀ (v : Int32) (dst : Bytes), Frame.putGroups v.toUInt32.toNat dst = dst ++ encode32 v) ∧
    (∀ (v : Int32) (b : Buffer), write ⟨.varInt, .int32 v, rfl⟩ b =
      .ok () (b.extend (encode32 v))) ∧
    (∀ v : Int32, (encode32 v).length = VarInt.size v) ∧
    Canonical readVarInt32 id encode32 5 ∧
    Canonical (read .varInt) Value.int32 encode32 5 ∧
    (∀ (v : Int64) (b : Buffer), write ⟨.varLong, .int64 v, rfl⟩ b =
      .ok () (b.extend (encode64 v))) ∧
    Canonical (read .varLong) Value.int64 encode64 10 := by
  have hint32 : Function.Injective Value.int32 := fun _ _ => Value.int32.inj
  have hint64 : Function.Injective Value.int64 := fun _ _ => Value.int64.inj
  refine ⟨fun v dst => Frame.putGroups_eq _ dst, fun v b => rfl, length_encode32, ?_, ?_,
    fun v b => rfl, ?_⟩
  · exact canonical_of_run sized32 Function.injective_id fun b => readVarInt32_run
  · exact canonical_of_run sized32 hint32 fun b => read_varInt_run
  · exact canonical_of_run sized64 hint64 fun b => read_varLong_run

/-- A negative number takes all five bytes. -/
example : encode32 (-1) = [0xFF, 0xFF, 0xFF, 0xFF, 0x0F] := by cbv

end Wireform.Buffer
