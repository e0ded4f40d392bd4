import Wireform.Frame
import Wireform.Proofs.Buffer
import Wireform.Proofs.Numeral

/-!
# What the decoder answers

The length in front of a frame is a numeral of at most three bytes.  While the bytes received end
within the length or within the frame, the decoder waits; three continued bytes and a length over
the limit are refused.  Bytes and buffer stay as they were in all of these cases.  Otherwise the
frame is taken off, whether its number can be read or not.  `answer_decode` says so of every stream
at once, and `Answer.decode_eq` that there is no other answer.
-/

namespace Wireform.Frame

open VarInt (Numeral Continued continued_cons numeral_cases)

variable {c : Codec} {d : Numeral} {src front rest : Bytes} {most : Nat} {limits : Limits}

/-! ### Lengths -/

theorem lengthGroups_cons (left width scale sum : Nat) (b : UInt8) (rest : Bytes) :
    lengthGroups (left + 1) width scale sum (b :: rest) =
      if b < 128 then .ok (some (width + 1, sum + b.toNat % 128 * scale))
      else lengthGroups left (width + 1) (scale * 128) (sum + b.toNat % 128 * scale) rest := rfl

/-- A numeral is found in front of anything, on top of the groups before it. -/
theorem lengthGroups_numeral (d : Numeral) (rest : Bytes) :
    ∀ {left : Nat} (width scale sum : Nat), d.width ≤ left →
      lengthGroups left width scale sum (d.bytes ++ rest) =
        .ok (some (width + d.width, sum + d.value * scale)) := by
  induction d with
  | last b hb =>
    intro left width scale sum hd
    obtain ⟨left, rfl⟩ := Nat.exists_eq_succ_of_ne_zero (Nat.ne_of_gt hd)
    have hlt : b.toNat < 128 := UInt8.lt_iff_toNat_lt.mp hb
    show lengthGroups (left + 1) width scale sum (b :: rest) =
      .ok (some (width + 1, sum + b.toNat * scale))
    rw [lengthGroups_cons, if_pos hb, Nat.mod_eq_of_lt hlt]
  | more b hb d ih =>
    intro left width scale sum hd
    obtain ⟨left, rfl⟩ := Nat.exists_eq_succ_of_ne_zero (Nat.ne_of_gt (Nat.zero_lt_of_lt hd))
    show lengthGroups (left + 1) width scale sum (b :: (d.bytes ++ rest)) =
      .ok (some (width + (d.width + 1), sum + (b.toNat % 128 + d.value * 128) * scale))
    rw [lengthGroups_cons, if_neg hb, ih _ _ _ (Nat.le_of_succ_le_succ hd), VarInt.sum_group,
      Nat.add_right_comm, Nat.add_assoc]

theorem lengthGroups_of_short : ∀ {left : Nat} {src : Bytes} (width scale sum : Nat),
    src.length < left → Continued src → lengthGroups left width scale sum src = .ok none
  | left + 1, [], _, _, _, _, _ => rfl
  | left + 1, b :: src, width, scale, sum, hlt, hs => by
    obtain ⟨hb, hs⟩ := continued_cons.mp hs
    rw [lengthGroups_cons, if_neg hb]
    exact lengthGroups_of_short _ _ _ (Nat.lt_of_succ_lt_succ hlt) hs

theorem lengthGroups_of_long (rest : Bytes) :
    ∀ {left : Nat} {front : Bytes} (width scale sum : Nat), front.length = left →
      Continued front → lengthGroups left width scale sum (front ++ rest) = .error .malformedVarInt
  | 0, [], _, _, _, _, _ => by rw [lengthGroups]
  | left + 1, b :: front, width, scale, sum, hlen, hs => by
    obtain ⟨hb, hs⟩ := continued_cons.mp hs
    rw [List.cons_append, lengthGroups_cons, if_neg hb]
    exact lengthGroups_of_long rest _ _ _ (Nat.succ.inj hlen) hs

theorem header_numeral (hd : d.width ≤ maxLengthWidth) (rest : Bytes) :
    header (d.bytes ++ rest) = .ok (some (d.width, d.value)) := by
  rw [header, lengthGroups_numeral d rest 0 1 0 hd, Nat.zero_add, Nat.zero_add, Nat.mul_one]

/-! ### One step -/

/-- What a step answers to the bytes received, and what it leaves of them, for frames of at most
`most` bytes that are read with `limits`. -/
inductive Answer (most : Nat) (limits : Limits) :
    Bytes → EStateM.Result Fault Bytes (Option Frame) → Prop where
  /-- The bytes end within the length. -/
  | noLength {src : Bytes} (h : src.length < maxLengthWidth) (hs : Continued src) :
    Answer most limits src (.ok none src)
  /-- The bytes end within the frame. -/
  | part {d : Numeral} {part : Bytes} (hd : d.width ≤ maxLengthWidth) (hle : d.value ≤ most)
    (h : part.length < d.value) : Answer most limits (d.bytes ++ part) (.ok none (d.bytes ++ part))
  /-- The length does not end. -/
  | endless {front rest : Bytes} (h : front.length = maxLengthWidth) (hs : Continued front) :
    Answer most limits (front ++ rest) (.error .malformedVarInt (front ++ rest))
  | oversized {d : Numeral} {rest : Bytes} (hd : d.width ≤ maxLengthWidth) (hlt : most < d.value) :
    Answer most limits (d.bytes ++ rest) (.error (.oversizedPacket d.value) (d.bytes ++ rest))
  /-- The frame is whole, and its number can be read. -/
  | frame {d id : Numeral} {body rest : Bytes} (hd : d.width ≤ maxLengthWidth)
    (hle : d.value ≤ most) (hid : id.width ≤ VarInt.maxWidth32)
    (h : d.value = (id.bytes ++ body).length) :
    Answer most limits (d.bytes ++ (id.bytes ++ body ++ rest))
      (.ok (some ⟨id.int32, .split id.bytes body limits none⟩) rest)
  /-- The frame is whole, and its number cannot be read. -/
  | noId {d : Numeral} {content rest : Bytes} {e : Fault} (hd : d.width ≤ maxLengthWidth)
    (hle : d.value ≤ most) (h : d.value = content.length) (he : VarInt.Unreadable content e) :
    Answer most limits (d.bytes ++ (content ++ rest)) (.error e rest)

/-- Behind a length within the limit. -/
theorem decode_of_numeral (hd : d.width ≤ maxLengthWidth) (hle : d.value ≤ c.limit)
    (rest : Bytes) : c.decode (d.bytes ++ rest) = match Decoder.take d.value rest with
      | .error _ _ => .ok none (d.bytes ++ rest)
      | .ok content rest =>
        match Buffer.readVarInt32 { Buffer.ofBytes content with limits := c.limits } with
        | .ok id body => .ok (some ⟨id, body⟩) rest
        | .error e _ => .error e rest := by
  have hdrop : (d.bytes ++ rest).drop d.width = rest := List.drop_left
  have hfits := Nat.not_lt_of_le hle
  cases htake : Decoder.take d.value rest with
  | error e left => simp only [Codec.decode, header_numeral hd, if_neg hfits, hdrop, htake]
  | ok content rest =>
    cases hid : Buffer.readVarInt32 { Buffer.ofBytes content with limits := c.limits } <;>
      simp only [Codec.decode, header_numeral hd, if_neg hfits, hdrop, htake, hid]

/-- The number in front of the content of a frame. -/
theorem readVarInt32_content {id : Numeral} (hid : id.width ≤ VarInt.maxWidth32) (body : Bytes)
    (limits : Limits) :
    Buffer.readVarInt32 { Buffer.ofBytes (id.bytes ++ body) with limits } =
      .ok id.int32 (.split id.bytes body limits none) := by
  rw [← Buffer.leaving_ofBytes, Buffer.readVarInt32, bind_of_ok (Buffer.checkField_of_none rfl)]
  exact Buffer.Action.ofDecoder_of_ok (VarInt.decodes_int32 hid body)

theorem readVarInt32_unreadable {content : Bytes} {e : Fault} (he : VarInt.Unreadable content e)
    (limits : Limits) :
    ∃ b, Buffer.readVarInt32 { Buffer.ofBytes content with limits } = .error e b := by
  obtain ⟨left, herror⟩ := he.decode32_eq
  rw [Buffer.readVarInt32, bind_of_ok (Buffer.checkField_of_none rfl)]
  exact ⟨_, Buffer.Action.ofDecoder_of_error herror⟩

/-- **Each answer is the decoder's.** -/
theorem Answer.decode_eq {r : EStateM.Result Fault Bytes (Option Frame)}
    (h : Answer c.limit c.limits src r) : c.decode src = r := by
  cases h with
  | noLength hlt hs =>
    have hheader : header src = .ok none := lengthGroups_of_short 0 1 0 hlt hs
    simp only [Codec.decode, hheader]
  | part hd hle hlt =>
    rw [decode_of_numeral hd hle, Decoder.take_of_lt hlt]
  | @endless front rest hlen hs =>
    have hheader : header (front ++ rest) = .error .malformedVarInt :=
      lengthGroups_of_long rest 0 1 0 hlen hs
    simp only [Codec.decode, hheader]
  | oversized hd hlt =>
    simp only [Codec.decode, header_numeral hd, if_pos hlt]
  | @frame d id body rest hd hle hid hlen =>
    rw [decode_of_numeral hd hle, hlen, Decoder.take_append]
    simp only [readVarInt32_content hid]
  | noId hd hle hlen he =>
    obtain ⟨b, herror⟩ := readVarInt32_unreadable he c.limits
    rw [decode_of_numeral hd hle, hlen, Decoder.take_append]
    simp only [herror]

/-- **Every answer of the decoder** is one of these. -/
theorem answer_decode (c : Codec) (src : Bytes) :
    Answer c.limit c.limits src (c.decode src) := by
  have hanswer {r : EStateM.Result Fault Bytes (Option Frame)}
      (h : Answer c.limit c.limits src r) : Answer c.limit c.limits src (c.decode src) := by
    rw [h.decode_eq]
    exact h
  rcases numeral_cases maxLengthWidth src with ⟨d, rest, hd, rfl⟩ | ⟨hlt, hs⟩ |
    ⟨front, rest, hlen, hs, rfl⟩
  · rcases Nat.lt_or_ge c.limit d.value with hlarge | hle
    · exact hanswer (.oversized hd hlarge)
    rcases Nat.lt_or_ge rest.length d.value with hpart | hwhole
    · exact hanswer (.part hd hle hpart)
    obtain ⟨content, rest, hlen, rfl⟩ : ∃ content rest', d.value = content.length ∧
        rest = content ++ rest' := by
      refine ⟨rest.take d.value, rest.drop d.value, ?_, (List.take_append_drop _ _).symm⟩
      rw [List.length_take, Nat.min_eq_left hwhole]
    rcases VarInt.decode32_cases content with ⟨id, body, hid, rfl⟩ | ⟨e, he⟩
    · exact hanswer (.frame hd hle hid hlen)
    · exact hanswer (.noId hd hle hlen he)
  · exact hanswer (.noLength hlt hs)
  · exact hanswer (.endless hlen hs)

theorem answer_of_decode {r : EStateM.Result Fault Bytes (Option Frame)}
    (h : c.decode src = r) : Answer c.limit c.limits src r := h ▸ answer_decode c src

/-! ### What follows the frame -/

/-- **A frame stands**: bytes that arrive behind it change nothing. -/
theorem decode_append_of_frame {f : Frame} (h : c.decode src = .ok (some f) rest) (more : Bytes) :
    c.decode (src ++ more) = .ok (some f) (rest ++ more) := by
  cases answer_of_decode h with
  | frame hd hle hid hlen =>
    rw [List.append_assoc, List.append_assoc]
    exact (Answer.frame hd hle hid hlen).decode_eq

/-- **A fault stands**: bytes that arrive behind it change nothing. -/
theorem decode_append_of_error {e : Fault} (h : c.decode src = .error e rest) (more : Bytes) :
    c.decode (src ++ more) = .error e (rest ++ more) := by
  cases answer_of_decode h with
  | endless hlen hs =>
    rw [List.append_assoc]
    exact (Answer.endless hlen hs).decode_eq
  | oversized hd hlt =>
    rw [List.append_assoc]
    exact (Answer.oversized hd hlt).decode_eq
  | noId hd hle hlen he =>
    rw [List.append_assoc, List.append_assoc]
    exact (Answer.noId hd hle hlen he).decode_eq

/-- A step that waits leaves the stream alone. -/
theorem decode_none (h : c.decode src = .ok none rest) : rest = src := by
  cases answer_of_decode h <;> rfl

/-- What stands behind a length is less than what was received. -/
theorem length_lt_of_numeral (d : Numeral) (content rest : Bytes) :
    rest.length < (d.bytes ++ (content ++ rest)).length := by
  have hpos : 0 < d.bytes.length := d.width_pos
  rw [List.length_append, List.length_append]
  omega

/-- A frame takes bytes off the stream. -/
theorem decode_some {f : Frame} (h : c.decode src = .ok (some f) rest) :
    rest.length < src.length := by
  cases answer_of_decode h with
  | frame => exact length_lt_of_numeral _ _ _

/-! ### Four states -/

/-- A length stands in front, in at most three bytes. -/
def Heads (d : Numeral) (src : Bytes) : Prop := d.width ≤ maxLengthWidth ∧ d.bytes <+: src

/-- The bytes received end within the length, or within a frame of at most `most` bytes. -/
def Waits (most : Nat) (src : Bytes) : Prop :=
  (src.length < maxLengthWidth ∧ Continued src) ∨
    ∃ d : Numeral, Heads d src ∧ d.value ≤ most ∧ src.length < d.width + d.value

theorem decode_eq_none_iff :
    c.decode src = .ok none rest ↔ rest = src ∧ Waits c.limit src := by
  constructor
  · intro h
    cases answer_of_decode h with
    | noLength hlt hs => exact ⟨rfl, .inl ⟨hlt, hs⟩⟩
    | @part d part hd hle hlt =>
      refine ⟨rfl, .inr ⟨d, ⟨hd, List.prefix_append _ _⟩, hle, ?_⟩⟩
      rw [List.length_append]
      exact Nat.add_lt_add_left hlt _
  · rintro ⟨rfl, ⟨hlt, hs⟩ | ⟨d, ⟨hd, part, rfl⟩, hle, hlt⟩⟩
    · exact (Answer.noLength hlt hs).decode_eq
    · rw [List.length_append] at hlt
      exact (Answer.part hd hle (Nat.lt_of_add_lt_add_left hlt)).decode_eq

/-- What waits is shorter than the longest frame with the longest length in front. -/
theorem Waits.length_lt (h : Waits most src) : src.length < most + maxLengthWidth := by
  rcases h with ⟨hlt, -⟩ | ⟨d, ⟨hd, -⟩, hle, hlt⟩ <;> omega

theorem decode_eq_malformed_iff :
    c.decode src = .error .malformedVarInt src ↔
      maxLengthWidth ≤ src.length ∧ Continued (src.take maxLengthWidth) := by
  constructor
  · intro h
    obtain ⟨left, hleft, h⟩ : ∃ left, src = left ∧ c.decode src = .error .malformedVarInt left :=
      ⟨src, rfl, h⟩
    cases answer_of_decode h with
    | @endless front rest hlen hs =>
      rw [List.length_append, List.take_left' hlen]
      exact ⟨hlen ▸ Nat.le_add_right _ _, hs⟩
    | noId =>
      exact absurd (congrArg List.length hleft) (Nat.ne_of_gt (length_lt_of_numeral _ _ _))
  · rintro ⟨hle, hs⟩
    have hlen : (src.take maxLengthWidth).length = maxLengthWidth := by
      rw [List.length_take, Nat.min_eq_left hle]
    rw [← List.take_append_drop maxLengthWidth src]
    exact (Answer.endless hlen hs).decode_eq

theorem decode_eq_oversized_iff {n : Nat} :
    c.decode src = .error (.oversizedPacket n) src ↔
      c.limit < n ∧ ∃ d : Numeral, Heads d src ∧ d.value = n := by
  constructor
  · intro h
    obtain ⟨left, hleft, h⟩ : ∃ left, src = left ∧
        c.decode src = .error (.oversizedPacket n) left := ⟨src, rfl, h⟩
    cases answer_of_decode h with
    | @oversized d rest hd hlt => exact ⟨hlt, d, ⟨hd, List.prefix_append _ _⟩, rfl⟩
    | noId _ _ _ he => cases he
  · rintro ⟨hlt, d, ⟨hd, rest, rfl⟩, rfl⟩
    exact (Answer.oversized hd hlt).decode_eq

/-- **What one step of the decoder does**, whatever bytes were received.  It waits exactly while
they end within the length or the frame, and then there are fewer than the largest frame and a
length take; it refuses exactly a length that does not end in three bytes or is over the limit,
however few bytes follow.  All of this leaves the bytes as they were.  Otherwise it takes off the
length and as many bytes as that declares, and answers the frame if they begin with a number, else
why they do not. -/
theorem decode_states (max : Nat) (limits : Limits) (src : Bytes) :
    let c := Codec.make max limits
    let most := min max (2 ^ 21 - 1)
    (∀ rest, c.decode src = .ok none rest ↔ rest = src ∧ Waits most src) ∧
    (Waits most src → src.length < most + 3) ∧
    (c.decode src = .error .malformedVarInt src ↔ 3 ≤ src.length ∧ Continued (src.take 3)) ∧
    (∀ n, c.decode src = .error (.oversizedPacket n) src ↔
      most < n ∧ ∃ d : Numeral, Heads d src ∧ d.value = n) ∧
    (c.decode src = .ok none src ∨ c.decode src = .error .malformedVarInt src ∨
      (∃ n, c.decode src = .error (.oversizedPacket n) src) ∨
      ∃ (d : Numeral) (content rest : Bytes), d.width ≤ 3 ∧ d.value ≤ most ∧
        d.value = content.length ∧ src = d.bytes ++ (content ++ rest) ∧
        ((∃ (id : Numeral) (body : Bytes), id.width ≤ 5 ∧ content = id.bytes ++ body ∧
            c.decode src = .ok (some ⟨id.int32, .split id.bytes body limits none⟩) rest) ∨
          ∃ e, VarInt.Unreadable content e ∧ c.decode src = .error e rest)) := by
  intro c most
  refine ⟨fun rest => decode_eq_none_iff, Waits.length_lt, decode_eq_malformed_iff,
    fun n => decode_eq_oversized_iff, ?_⟩
  have hanswer := answer_decode c src
  generalize c.decode src = r at hanswer
  cases hanswer with
  | noLength => exact .inl rfl
  | part => exact .inl rfl
  | endless => exact .inr (.inl rfl)
  | oversized => exact .inr (.inr (.inl ⟨_, rfl⟩))
  | @frame d id body rest hd hle hid hlen =>
    exact .inr (.inr (.inr ⟨d, _, rest, hd, hle, hlen, rfl, .inl ⟨id, body, hid, rfl, rfl⟩⟩))
  | @noId d content rest e hd hle hlen he =>
    exact .inr (.inr (.inr ⟨d, content, rest, hd, hle, hlen, rfl, .inr ⟨e, he, rfl⟩⟩))

/-- A length in more bytes than it needs is one all the same. -/
example : (Codec.make 2 .standard).decode [0x82, 0x00, 7, 1, 9] =
    .ok (some ⟨7, .split [7] [1] .standard none⟩) [9] := rfl

end Wireform.Frame
