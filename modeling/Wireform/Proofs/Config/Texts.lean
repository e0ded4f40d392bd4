import Wireform.Config.Settings
import Wireform.Proofs.Codec.Text

/-!
# Texts within settings

A character takes at most three bytes for a unit and settings allow four, so with no problem in the
settings every text they allow has a length that a count can declare.  That holds as well of a text
that was put together from replaced bytes, so whatever was read can be written and read again.
-/

namespace Wireform

/-! ### Texts behind their count -/

namespace Decode

variable {limits : Limits} {t : WireType} {v : Value} {max : Nat} {src rest : Bytes} {s : String}

/-- A text of too many units is refused by the one count or by the other. -/
theorem text_encode_of_lt (hs : (Utf8.encode s).length ≤ maxDeclared) (h : max < Utf16.length s)
    (rest : Bytes) : ∃ (length : Int) (bound : Nat) (tail : Bytes), bound < length ∧
      text max (Encode.text s ++ rest) = .error (.stringTooLong length bound) tail := by
  have hcount : (Int32.ofNat (Utf8.encode s).length).toInt = (Utf8.encode s).length :=
    toInt_ofNat_count hs
  rw [Encode.text, List.append_assoc, text, bind_of_ok (VarInt.decodes_decode32 _ _)]
  simp only [lt_zero_iff, hcount, Int.toNat_natCast]
  by_cases hbytes : satMul max 4 < (Utf8.encode s).length
  · rw [if_pos (.inr hbytes)]
    exact ⟨_, _, _, by omega, rfl⟩
  · rw [if_neg (by omega), bind_of_ok (Decoder.take_append _ _)]
    simp only [Utf8.lossy_encode]
    rw [if_pos h]
    exact ⟨_, _, _, by omega, rfl⟩

theorem length_of_text (h : text max src = .ok s rest) : Utf16.length s ≤ max := by
  obtain ⟨_, _, _, _, _, hunits, rfl⟩ := text_eq_ok_iff.mp h
  exact hunits

/-- What is read as a text or as an identifier is within the limits. -/
theorem within_of_decode (ht : t = .string ∨ t = .identifier)
    (h : t.decode limits src = .ok v rest) : v.Fits t ∧ v.Within limits := by
  rcases ht with rfl | rfl
  · obtain ⟨s, _, htext, ⟨⟩⟩ := bind_eq_ok_iff.mp h
    exact ⟨rfl, length_of_text htext⟩
  · obtain ⟨i, _, hparts, ⟨⟩⟩ := bind_eq_ok_iff.mp h
    obtain ⟨space, _, hspace, hpath⟩ := bind_eq_ok_iff.mp hparts
    obtain ⟨path, _, hpath, ⟨⟩⟩ := bind_eq_ok_iff.mp hpath
    exact ⟨rfl, length_of_text hspace, length_of_text hpath⟩

end Decode

/-! ### Fields of a buffer -/

namespace Buffer

variable {b b' : Buffer} {f : Field}

/-- A field can be appended to `b` and is read back from there, all of it and nothing else. -/
def ReadsBack (b : Buffer) (f : Field) : Prop :=
  ∃ b', write f b = .ok () b' ∧ ∀ after,
    read f.tag (b.behind b' after) = .ok f.value ((b.behind b' after).seek b'.size)

/-- A read of what was written runs the decoder on it. -/
theorem read_behind (hl : b.layout? = none) (hwrite : write f b = .ok () b') (t : WireType)
    (after : Bytes) :
    read t (b.behind b' after) = Action.ofDecoder (t.decode b.limits) (b.behind b' after) ∧
      (b.behind b' after).unread = f.emit.bytes ++ after := by
  obtain ⟨-, rfl⟩ := Action.ofEmission_eq_ok_iff.mp hwrite
  exact ⟨read_of_checkField (checkField_of_none hl), unread_behind b _ after⟩

/-- **A field within the limits of a buffer reads back** from it, if it can be written and its
lengths can be declared. -/
theorem readsBack_of_within (hl : b.layout? = none) (hemit : f.emit.fault? = none)
    (hv : f.value.Declarable) (hwithin : f.value.Within b.limits) : b.ReadsBack f := by
  have hwrite : write f b = _ := Action.ofEmission_of_none hemit
  refine ⟨_, hwrite, fun after => ?_⟩
  obtain ⟨hread, hunread⟩ := read_behind hl hwrite f.tag after
  have hdecode := (WireType.decodesIf_emit b.limits f.fits hv hemit after).1 hwithin
  rw [hread, Action.ofDecoder_of_ok (hunread.symm ▸ hdecode), leaving_behind]

end Buffer

/-! ### Settings -/

namespace Config.CodecSettings

variable {s : CodecSettings} {x : String}

@[simp] theorem outOfRange_eq_nil_iff {low high : Bool} {tooLow tooHigh : Problem} :
    outOfRange low tooLow high tooHigh = [] ↔ low = false ∧ high = false := by
  cases low <;> cases high <;> simp [outOfRange]

/-- Settings have no problem if each of them is in its range. -/
theorem problems_eq_nil_iff :
    s.problems = [] ↔
      (0 < s.stringUnits ∧ s.stringUnits ≤ maxStringUnits) ∧
      (minQuota ≤ s.nbtQuota ∧ s.nbtQuota ≤ maxQuota) ∧
      (0 < s.nbtDepth ∧ s.nbtDepth ≤ maxDepth) ∧
      (0 < s.maxFrame ∧ s.maxFrame ≤ maxFrameBytes) := by
  simp [problems, Nat.pos_iff_ne_zero]

/-- A text within the settings has a length that a count can declare. -/
theorem length_encode_le (h : s.problems = []) (hx : Utf16.length x ≤ s.stringUnits) :
    (Utf8.encode x).length ≤ maxDeclared := by
  have hunits := (problems_eq_nil_iff.mp h).1.2
  have hlen := Utf8.length_encode_le x
  unfold maxStringUnits at hunits
  unfold maxDeclared
  omega

/-- Texts and identifiers within the settings read back. -/
theorem readsBack (h : s.problems = []) {b : Buffer} (hb : b.limits = s.limits)
    (hl : b.layout? = none) {f : Field} (ht : f.tag = .string ∨ f.tag = .identifier)
    (hf : f.value.Within s.limits) : b.ReadsBack f := by
  obtain ⟨t, v, hfits⟩ := f
  rcases ht with rfl | rfl <;> cases v <;> try (cases hfits; done)
  case inl.text x => exact Buffer.readsBack_of_within hl rfl (length_encode_le h hf) (hb ▸ hf)
  case inr.identifier i =>
    have hdeclared : (Value.identifier i).Declarable :=
      ⟨length_encode_le h hf.1, length_encode_le h hf.2⟩
    exact Buffer.readsBack_of_within hl rfl hdeclared (hb ▸ hf)

/-- A text beyond the settings is refused when it is read back. -/
theorem stringTooLong_of_lt {b b' : Buffer} (hb : b.limits = s.limits) (hl : b.layout? = none)
    (hwrite : Buffer.write ⟨.string, .text x, rfl⟩ b = .ok () b')
    (hlong : s.stringUnits < Utf16.length x)
    (hbytes : (Utf8.encode x).length ≤ maxDeclared) (after : Bytes) :
    ∃ (length : Int) (bound : Nat) (b'' : Buffer), bound < length ∧
      Buffer.read .string (b.behind b' after) = .error (.stringTooLong length bound) b'' := by
  obtain ⟨hread, hunread⟩ := Buffer.read_behind hl hwrite .string after
  obtain ⟨length, bound, tail, hlt, hrun⟩ := Decode.text_encode_of_lt hbytes hlong after
  have hdecode : WireType.decode b.limits .string (b.behind b' after).unread =
      .error (.stringTooLong length bound) tail := by
    rw [hunread, hb]
    exact bind_of_error hrun
  exact ⟨length, bound, _, hlt, hread.trans (Buffer.Action.ofDecoder_of_error hdecode)⟩

/-- What was read as a text or as an identifier is within the settings it was read with. -/
theorem within_of_read {r r' : Buffer} {t : WireType} {v : Value} (hr : r.limits = s.limits)
    (ht : t = .string ∨ t = .identifier) (h : Buffer.read t r = .ok v r') :
    v.Fits t ∧ v.Within s.limits := by
  rcases Buffer.checkField_cases t r with hchecked | ⟨m, hrefused⟩
  · rw [Buffer.read_of_checkField hchecked, Buffer.Action.ofDecoder_eq_ok_iff] at h
    obtain ⟨rest, hdecode, -⟩ := h
    exact Decode.within_of_decode ht (hr ▸ hdecode)
  · rw [Buffer.read, bind_of_error hrefused] at h
    cases h

/-- **Settings without problems serve every text.**  A text that they allow has a length that is
written as it is, and reads back, alone or in an identifier.  A longer one is refused.  Whatever was
read as a text or as an identifier reads back, in whatever bytes it stood before. -/
theorem texts_of_no_problems (h : s.problems = []) :
    (∀ x, Utf16.length x ≤ s.stringUnits →
      (Int32.ofNat (Utf8.encode x).length).toInt = (Utf8.encode x).length) ∧
    ∀ b : Buffer, b.limits = s.limits → b.layout? = none →
      (∀ x, Utf16.length x ≤ s.stringUnits → b.ReadsBack ⟨.string, .text x, rfl⟩) ∧
      (∀ i : Identifier, Utf16.length i.space ≤ s.stringUnits →
        Utf16.length i.path ≤ s.stringUnits → b.ReadsBack ⟨.identifier, .identifier i, rfl⟩) ∧
      (∀ x, s.stringUnits < Utf16.length x → (Utf8.encode x).length ≤ maxDeclared →
        ∃ b', Buffer.write ⟨.string, .text x, rfl⟩ b = .ok () b' ∧ ∀ after,
          ∃ (length : Int) (bound : Nat) (b'' : Buffer), bound < length ∧
            Buffer.read .string (b.behind b' after) = .error (.stringTooLong length bound) b'') ∧
      ∀ (r r' : Buffer) (t : WireType) (v : Value), r.limits = s.limits →
        t = .string ∨ t = .identifier → Buffer.read t r = .ok v r' →
        ∃ hfits : v.Fits t, b.ReadsBack ⟨t, v, hfits⟩ := by
  refine ⟨fun x hx => toInt_ofNat_count (length_encode_le h hx), fun b hb hl => ⟨?_, ?_, ?_, ?_⟩⟩
  · exact fun x hx => readsBack h hb hl (.inl rfl) hx
  · exact fun i hspace hpath => readsBack h hb hl (.inr rfl) ⟨hspace, hpath⟩
  · intro x hlong hbytes
    have hwrite : Buffer.write ⟨.string, .text x, rfl⟩ b = _ :=
      Buffer.Action.ofEmission_of_none rfl
    exact ⟨_, hwrite, stringTooLong_of_lt hb hl hwrite hlong hbytes⟩
  · intro r r' t v hr ht hread
    obtain ⟨hfits, hwithin⟩ := within_of_read hr ht hread
    exact ⟨hfits, readsBack h hb hl ht hwithin⟩

/-- One byte that is not UTF-8 is replaced and written again in three, in front of which settings
for one unit allow no more than four. -/
theorem texts_of_no_problems_replaced :
    let s : CodecSettings := { CodecSettings.standard with stringUnits := 1 }
    let r : Buffer := { Buffer.ofBytes [1, 0xFF] with limits := s.limits }
    s.problems = [] ∧ Buffer.read .string r = .ok (.text "\uFFFD") (r.advance 2) ∧
      r.ReadsBack ⟨.string, .text "\uFFFD", rfl⟩ := by
  intro s r
  have hproblems : s.problems = [] := by decide
  have hread : Buffer.read .string r = .ok (.text "\uFFFD") (r.advance 2) := by rfl
  obtain ⟨-, hbuffers⟩ := texts_of_no_problems hproblems
  obtain ⟨-, -, -, hforwards⟩ := hbuffers r rfl rfl
  obtain ⟨_, hback⟩ := hforwards r _ .string _ rfl (.inl rfl) hread
  exact ⟨hproblems, hread, hback⟩

end Config.CodecSettings

end Wireform
