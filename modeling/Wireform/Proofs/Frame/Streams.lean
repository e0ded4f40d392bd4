import Wireform.Proofs.Frame.RoundTrip
import Mathlib.Data.List.Forall2

/-!
# Streams of frames

A sender appends frames one after another, and a receiver takes frames off the front.  A frame that
is larger than the codec allows is refused and leaves the stream as it was; every other frame is
appended whole.  The receiver finds what was sent: the same numbers in the same order, the same
bytes left to read in each body, and behind the last of them whatever follows.
-/

namespace Wireform.Frame

variable {c : Codec} {f : Frame} {fs : List Frame} {dst rest : Bytes}

/-! ### Sending -/

theorem encode_of_le (h : f.declaredSize ≤ c.limit) (dst : Bytes) :
    c.encode f dst = .ok () (dst ++ f.bytes) := encode_eq_ok_iff.mpr ⟨h, rfl⟩

theorem encode_of_lt (h : c.limit < f.declaredSize) (dst : Bytes) :
    c.encode f dst = .error (.oversizedPacket f.declaredSize) dst := by
  unfold Codec.encode
  rw [if_pos h]
  rfl

/-- Appends frames to a stream one after another, passing over those that are refused. -/
def Codec.send (c : Codec) : List Frame → Bytes → Bytes
  | [], dst => dst
  | f :: fs, dst => c.send fs (finalState (c.encode f) dst)

theorem send_cons_of_le (h : f.declaredSize ≤ c.limit) (fs : List Frame) (dst : Bytes) :
    c.send (f :: fs) dst = c.send fs (dst ++ f.bytes) := by
  rw [Codec.send, finalState_of_ok (encode_of_le h dst)]

theorem send_cons_of_lt (h : c.limit < f.declaredSize) (fs : List Frame) (dst : Bytes) :
    c.send (f :: fs) dst = c.send fs dst := by
  rw [Codec.send, finalState_of_error (encode_of_lt h dst)]

/-- The frames that a codec does not refuse. -/
def Codec.accepted (c : Codec) (fs : List Frame) : List Frame :=
  fs.filter fun f => f.declaredSize ≤ c.limit

theorem declaredSize_le_of_mem_accepted (h : f ∈ c.accepted fs) : f.declaredSize ≤ c.limit :=
  of_decide_eq_true (List.mem_filter.mp h).2

/-- The frames that are not refused stand in the stream in a row. -/
theorem send_eq (c : Codec) (fs : List Frame) :
    ∀ dst : Bytes, c.send fs dst = dst ++ (c.accepted fs).flatMap bytes := by
  induction fs with
  | nil =>
    intro dst
    simp [Codec.send, Codec.accepted]
  | cons f fs ih =>
    intro dst
    by_cases h : f.declaredSize ≤ c.limit
    · have haccepted : c.accepted (f :: fs) = f :: c.accepted fs :=
        List.filter_cons_of_pos (decide_eq_true h)
      rw [send_cons_of_le h, ih, haccepted, List.flatMap_cons, List.append_assoc]
    · have haccepted : c.accepted (f :: fs) = c.accepted fs :=
        List.filter_cons_of_neg (by simpa using h)
      rw [send_cons_of_lt (Nat.lt_of_not_le h), ih, haccepted]

/-! ### Receiving -/

/-- Takes frames off a stream `n` times. -/
def Codec.receive (c : Codec) : Nat → Stream (List (Option Frame))
  | 0 => return []
  | n + 1 => do
    let frame? ← c.decode
    return frame? :: (← c.receive n)

/-- Frames in a row are received one after the other. By induction over the frames: each step takes
the first one off, whatever follows it. -/
theorem receive_bytes (hc : c.limit ≤ maxFrameBytes) (rest : Bytes) :
    ∀ {fs : List Frame}, (∀ f ∈ fs, f.declaredSize ≤ c.limit) →
      c.receive fs.length (fs.flatMap bytes ++ rest) =
        .ok (fs.map fun f => some ⟨f.id, f.received c⟩) rest
  | [], _ => rfl
  | f :: fs, h => by
    obtain ⟨hf, hfs⟩ := List.forall_mem_cons.mp h
    have hfirst := decode_bytes hc hf (fs.flatMap bytes ++ rest)
    have hothers := receive_bytes hc rest hfs
    rw [List.length_cons, List.flatMap_cons, List.append_assoc, Codec.receive, bind_of_ok hfirst,
      bind_of_ok hothers, pure_eq, List.map_cons]

/-- How a frame arrives: with its number, and a body that has the same bytes left to read. -/
structure ArrivesAs (limits : Limits) (f g : Frame) : Prop where
  id : g.id = f.id
  unread : g.body.unread = f.body.unread
  limits : g.body.limits = limits

theorem arrivesAs_received (c : Codec) (f : Frame) :
    ArrivesAs c.limits f ⟨f.id, f.received c⟩ := ⟨rfl, unread_received c f, rfl⟩

/-- **Frames round-trip through a stream.**  A frame is refused, and nothing is written, if and only
if its number and the bytes left to read of its body are more than the codec allows or a length can
declare; otherwise its bytes are appended.  What was appended is received in order, and what follows
it stays in the stream. -/
theorem receive_send (max : Nat) (limits : Limits) (fs : List Frame) (dst trailing : Bytes) :
    let c := Codec.make max limits
    let size (f : Frame) := VarInt.size f.id + f.body.unreadSize
    (∀ (f : Frame) (dst : Bytes), c.encode f dst =
      if min max (2 ^ 21 - 1) < size f then .error (.oversizedPacket (size f)) dst
      else .ok () (dst ++ f.bytes)) ∧
    ∃ (sent : Bytes) (got : List Frame), c.send fs dst = dst ++ sent ∧
      c.receive got.length (sent ++ trailing) = .ok (got.map some) trailing ∧
      List.Forall₂ (ArrivesAs limits) (fs.filter fun f => size f ≤ min max (2 ^ 21 - 1)) got := by
  intro c size
  refine ⟨fun f dst => ?_, ?_⟩
  · by_cases h : min max (2 ^ 21 - 1) < size f
    · rw [if_pos h]
      exact encode_of_lt h dst
    · rw [if_neg h]
      exact encode_of_le (Nat.le_of_not_lt h) dst
  · have hsent := send_eq c fs dst
    have hlimit : c.limit ≤ maxFrameBytes := Nat.min_le_right _ _
    have hfit : ∀ f ∈ c.accepted fs, f.declaredSize ≤ c.limit := by
      intro f hf
      exact declaredSize_le_of_mem_accepted hf
    have hgot := receive_bytes hlimit trailing hfit
    refine ⟨_, (c.accepted fs).map fun f => ⟨f.id, f.received c⟩, hsent, ?_, ?_⟩
    · rw [List.length_map, List.map_map]
      exact hgot
    · exact List.forall₂_map_right_iff.mpr (List.forall₂_same.mpr fun f _ => arrivesAs_received c f)

/-- A frame of five bytes is too large for this codec, those around it are not. -/
example : (Codec.make 4 .standard).send
    [⟨7, .ofBytes [1]⟩, ⟨7, .ofBytes [1, 2, 3, 4]⟩, ⟨0, .ofBytes [2, 3]⟩] [9] =
      [9, 2, 7, 1, 3, 0, 2, 3] := by cbv

end Wireform.Frame
