import Wireform.Proofs.Frame.Answers
import Wireform.Proofs.Number

/-!
# Frames read back

A frame on the wire is its length, its number and what was left to read of its body.  The decoder
finds it again in front of whatever follows: the number, and a body with the same bytes left to
read, which stand behind the number there.
-/

namespace Wireform

namespace Frame

open VarInt (Numeral)

variable {c : Codec} {f : Frame}

@[simp] theorem putGroups_eq (n : Nat) (dst : Bytes) : putGroups n dst = dst ++ VarInt.ofNat n := by
  fun_induction putGroups n dst with
  | case1 n dst h => rw [VarInt.ofNat_of_lt h]
  | case2 n dst h ih =>
    rw [ih, VarInt.ofNat_of_le (Nat.le_of_not_lt h), List.append_assoc, List.singleton_append]

/-- What the length of a frame covers. -/
def content (f : Frame) : Bytes := VarInt.encode32 f.id ++ f.body.unread

/-- A frame on the wire. -/
def bytes (f : Frame) : Bytes := VarInt.ofNat f.declaredSize ++ f.content

@[simp, grind =] theorem length_content (f : Frame) : f.content.length = f.declaredSize := by
  rw [content, List.length_append, declaredSize, VarInt.size, VarInt.encode32, VarInt.length_ofNat,
    Buffer.unread, List.length_drop]
  rfl

/-- A frame within the limit is appended. -/
@[simp] theorem encode_eq_ok_iff {dst dst' : Bytes} :
    c.encode f dst = .ok () dst' ↔ f.declaredSize ≤ c.limit ∧ dst' = dst ++ f.bytes := by
  have hbytes : putGroups f.id.toUInt32.toNat (putGroups f.declaredSize dst) ++ f.body.unread =
      dst ++ f.bytes := by
    rw [putGroups_eq, putGroups_eq, bytes, content, VarInt.encode32]
    simp only [List.append_assoc]
  unfold Codec.encode
  by_cases h : c.limit < f.declaredSize
  · rw [if_pos h]
    exact ⟨nofun, fun h' => absurd h'.1 (Nat.not_le_of_lt h)⟩
  · rw [if_neg h, ← hbytes]
    refine ⟨?_, ?_⟩
    · rintro ⟨⟩
      exact ⟨Nat.le_of_not_lt h, rfl⟩
    · rintro ⟨-, rfl⟩
      rfl

/-- The body of a frame as it is received: behind its number, with the limits of the codec. -/
def received (c : Codec) (f : Frame) : Buffer :=
  .split (VarInt.encode32 f.id) f.body.unread c.limits none

@[simp] theorem unread_received (c : Codec) (f : Frame) : (f.received c).unread = f.body.unread :=
  Buffer.unread_split _ _ _ _

/-- **A frame that was encoded is decoded**, whatever follows it, if a length can declare what the
codec allows. -/
theorem decode_bytes (hc : c.limit ≤ maxFrameBytes) (hf : f.declaredSize ≤ c.limit)
    (rest : Bytes) : c.decode (f.bytes ++ rest) = .ok (some ⟨f.id, f.received c⟩) rest := by
  have hlt : f.declaredSize < 128 ^ maxLengthWidth :=
    Nat.lt_of_le_of_lt (Nat.le_trans hf hc) (by decide)
  obtain ⟨d, hd, hbytes, hvalue⟩ := VarInt.exists_numeral_of_lt hlt
  obtain ⟨id, hid, hidbytes, hint⟩ := VarInt.exists_numeral_int32 f.id
  have hlen : d.value = (id.bytes ++ f.body.unread).length := by
    rw [hvalue, hidbytes, ← length_content, content]
  have hdecode : c.decode _ = .ok _ rest := (Answer.frame hd (hvalue ▸ hf) hid hlen).decode_eq
  rw [hbytes, hidbytes, hint, ← List.append_assoc] at hdecode
  exact hdecode

end Frame

end Wireform
