import Wireform.Proofs.Frame.Streams

/-!
# Frames sent on

A frame may arrive with a longer length and a longer number than needed, and the number may have had
bits beyond the 32 that are kept.  It is sent on in the shortest form: no numeral is shorter, so the
frame is within the limit again and takes no more bytes than it came in.
-/

namespace Wireform.Frame

variable {c : Codec} {f : Frame} {src rest : Bytes}

@[simp] theorem length_bytes (f : Frame) :
    f.bytes.length = VarInt.sizeOfNat f.declaredSize + f.declaredSize := by
  rw [bytes, List.length_append, VarInt.length_ofNat, length_content]

/-- A frame that was received is within the limit and takes no more bytes than it came in. -/
theorem fits_of_decode (h : c.decode src = .ok (some f) rest) :
    f.declaredSize ≤ c.limit ∧
      ∃ taken : Bytes, src = taken ++ rest ∧ f.bytes.length ≤ taken.length := by
  cases answer_of_decode h with
  | @frame d id body rest hd hle hid hlen =>
    have hsize :
        declaredSize ⟨id.int32, .split id.bytes body c.limits none⟩ ≤ d.value := by
      rw [declaredSize, ← Buffer.length_unread, Buffer.unread_split, hlen, List.length_append]
      exact Nat.add_le_add_right (VarInt.size_int32_le id) _
    have hwidth := Nat.le_trans (VarInt.sizeOfNat_mono hsize) (VarInt.sizeOfNat_value_le d)
    refine ⟨Nat.le_trans hsize hle, d.bytes ++ (id.bytes ++ body),
      (List.append_assoc _ _ _).symm, ?_⟩
    rw [length_bytes, List.length_append, ← hlen]
    exact Nat.add_le_add hwidth hsize

/-- **What was received can be sent on**: the codec accepts the frame, appends no more bytes than
the frame was received in, and receives from these, whatever follows them, a frame with the same
number and the same bytes left to read. -/
theorem encode_of_decode (max : Nat) (limits : Limits) {f : Frame} {src rest : Bytes}
    (h : (Codec.make max limits).decode src = .ok (some f) rest) :
    let c := Codec.make max limits
    ∃ taken sent : Bytes, src = taken ++ rest ∧ sent.length ≤ taken.length ∧
      (∀ dst, c.encode f dst = .ok () (dst ++ sent)) ∧
      ∀ more, ∃ g, c.decode (sent ++ more) = .ok (some g) more ∧ ArrivesAs limits f g := by
  intro c
  obtain ⟨hfits, taken, hsrc, hlen⟩ := fits_of_decode h
  have hlimit : c.limit ≤ maxFrameBytes := Nat.min_le_right _ _
  refine ⟨taken, f.bytes, hsrc, hlen, encode_of_le hfits, fun more => ?_⟩
  exact ⟨_, decode_bytes hlimit hfits more, arrivesAs_received c f⟩

/-- A length of three bytes in the place of one, and a number of which three bits are dropped. -/
theorem encode_of_decode_overlong :
    let c := Codec.make 6 .standard
    let src : Bytes := [0x86, 0x80, 0x00, 0xFF, 0xFF, 0xFF, 0xFF, 0x7F, 1, 9]
    let f : Frame := ⟨-1, .split [0xFF, 0xFF, 0xFF, 0xFF, 0x7F] [1] .standard none⟩
    c.decode src = .ok (some f) [9] ∧
      ∃ taken sent : Bytes, src = taken ++ [9] ∧ sent.length ≤ taken.length ∧
        (∀ dst, c.encode f dst = .ok () (dst ++ sent)) ∧
        ∀ more, ∃ g, c.decode (sent ++ more) = .ok (some g) more ∧ ArrivesAs .standard f g := by
  intro c src f
  let length : VarInt.Numeral :=
    .more 0x86 (by decide) (.more 0x80 (by decide) (.last 0x00 (by decide)))
  let number : VarInt.Numeral :=
    .more 0xFF (by decide) (.more 0xFF (by decide) (.more 0xFF (by decide)
      (.more 0xFF (by decide) (.last 0x7F (by decide)))))
  have hnumber : number.int32 = -1 := by decide
  have hanswer : c.decode (length.bytes ++ (number.bytes ++ [1] ++ [9])) = _ :=
    (Answer.frame (by decide) (by decide) (by decide) (by decide)).decode_eq
  have h : c.decode src = .ok (some f) [9] := by
    rw [hnumber] at hanswer
    exact hanswer
  exact ⟨h, encode_of_decode 6 .standard h⟩

end Wireform.Frame
