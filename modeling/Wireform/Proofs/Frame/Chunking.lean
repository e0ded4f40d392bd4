import Wireform.Proofs.Frame.Answers

/-!
# Streams that arrive in pieces

`Codec.drain` takes frames off a stream until none is whole or a fault stops it; `Codec.feed` does
so after every piece that arrives.  A step of the decoder that gave a frame or a fault gives the
same with more bytes behind (`decode_append_of_frame`, `decode_append_of_error`), so draining
`src ++ more` is draining `src` and then what it left with `more` behind (`drain_append`), and where
the stream was cut makes no difference.
-/

namespace Wireform.Frame

variable {c : Codec} {src rest : Bytes}

/-! ### Runs -/

/-- What a run of the decoder gave: frames, the fault that ended it, the number of bytes taken off
the stream, and the bytes left. -/
structure Yield where
  frames : List Frame
  fault? : Option Fault
  consumed : Nat
  rest : Bytes
  deriving DecidableEq

/-- What one run gave and then another. -/
def Yield.andThen (y z : Yield) : Yield :=
  ⟨y.frames ++ z.frames, z.fault?, y.consumed + z.consumed, z.rest⟩

/-- Takes frames off a stream until none is whole or a fault stops it. -/
def Codec.drain (c : Codec) (src : Bytes) : Yield :=
  match h : c.decode src with
  | .ok none rest => ⟨[], none, src.length - rest.length, rest⟩
  | .error e rest => ⟨[], some e, src.length - rest.length, rest⟩
  | .ok (some f) rest =>
    have := decode_some h
    (Yield.mk [f] none (src.length - rest.length) rest).andThen (c.drain rest)
termination_by src.length

/-- Puts pieces behind the bytes left one by one and drains the stream after each, up to the first
fault. -/
def Codec.feed (c : Codec) : List Bytes → Bytes → Yield
  | [], src => ⟨[], none, 0, src⟩
  | piece :: pieces, src =>
    let y := c.drain (src ++ piece)
    if y.fault?.isSome then y else y.andThen (c.feed pieces y.rest)

/-- Bytes behind both sides do not count as taken off. -/
theorem consumed_append (src rest more : Bytes) :
    (src ++ more).length - (rest ++ more).length = src.length - rest.length := by
  simp only [List.length_append]
  omega

theorem drain_of_none (h : c.decode src = .ok none rest) : c.drain src = ⟨[], none, 0, src⟩ := by
  have hrest := decode_none h
  subst hrest
  rw [Codec.drain]
  split
  · next h' =>
    rw [h] at h'
    cases h'
    simp
  · next h' => rw [h] at h'; cases h'
  · next h' => rw [h] at h'; cases h'

theorem drain_of_error {e : Fault} (h : c.decode src = .error e rest) :
    c.drain src = ⟨[], some e, src.length - rest.length, rest⟩ := by
  rw [Codec.drain]
  split
  · next h' => rw [h] at h'; cases h'
  · next h' =>
    rw [h] at h'
    cases h'
    rfl
  · next h' => rw [h] at h'; cases h'

theorem drain_of_some {f : Frame} (h : c.decode src = .ok (some f) rest) :
    c.drain src = (Yield.mk [f] none (src.length - rest.length) rest).andThen (c.drain rest) := by
  rw [Codec.drain]
  split
  · next h' => rw [h] at h'; cases h'
  · next h' => rw [h] at h'; cases h'
  · next h' =>
    rw [h] at h'
    cases h'
    rfl

/-- A run that met no fault ends where the decoder waits. -/
theorem decode_drain_rest (h : (c.drain src).fault? = none) :
    c.decode (c.drain src).rest = .ok none (c.drain src).rest := by
  induction hn : src.length using Nat.strongRecOn generalizing src with
  | _ n ih =>
    cases hd : c.decode src with
    | error e rest => simp [drain_of_error hd] at h
    | ok r rest =>
      cases r with
      | none =>
        have hrest := decode_none hd
        subst hrest
        rw [drain_of_none hd]
        exact hd
      | some f =>
        rw [drain_of_some hd] at h ⊢
        exact ih rest.length (hn ▸ decode_some hd) h rfl

/-- **A stream can be cut**: draining `src ++ more` is draining `src`, and then what it left with
`more` behind, unless a fault has stopped it. -/
theorem drain_append (src more : Bytes) :
    c.drain (src ++ more) =
      if (c.drain src).fault?.isSome then
        { c.drain src with rest := (c.drain src).rest ++ more }
      else (c.drain src).andThen (c.drain ((c.drain src).rest ++ more)) := by
  induction hn : src.length using Nat.strongRecOn generalizing src with
  | _ n ih =>
    cases hd : c.decode src with
    | error e rest =>
      rw [drain_of_error hd, drain_of_error (decode_append_of_error hd more), consumed_append]
      rfl
    | ok r rest =>
      cases r with
      | none =>
        rw [drain_of_none hd]
        simp [Yield.andThen]
      | some f =>
        have hlt := decode_some hd
        rw [drain_of_some hd, drain_of_some (decode_append_of_frame hd more),
          ih rest.length (hn ▸ hlt) rest rfl, consumed_append]
        cases hf : (c.drain rest).fault? with
        | some e => simp [Yield.andThen, hf]
        | none => simp [Yield.andThen, hf, Nat.add_assoc]

/-- Two runs that gave the same frames and the same fault and took as many bytes off, and, if they
met no fault, left the same bytes. -/
def Yield.Agrees (y z : Yield) : Prop :=
  y.frames = z.frames ∧ y.fault? = z.fault? ∧ y.consumed = z.consumed ∧
    (y.fault? = none → y.rest = z.rest)

theorem Yield.Agrees.andThen {x y z : Yield} (h : y.Agrees z) :
    (x.andThen y).Agrees (x.andThen z) := by
  obtain ⟨h₁, h₂, h₃, h₄⟩ := h
  exact ⟨congrArg (x.frames ++ ·) h₁, h₂, congrArg (x.consumed + ·) h₃, h₄⟩

/-- Feeding pieces to a stream that waits agrees with draining all of them at once. -/
theorem feed_agrees_drain (pieces : List Bytes) :
    ∀ {src : Bytes}, c.decode src = .ok none src →
      (c.feed pieces src).Agrees (c.drain (src ++ pieces.flatten)) := by
  induction pieces with
  | nil =>
    intro src h
    rw [List.flatten_nil, List.append_nil, drain_of_none h]
    exact ⟨rfl, rfl, rfl, fun _ => rfl⟩
  | cons piece pieces ih =>
    intro src _
    rw [List.flatten_cons, ← List.append_assoc, drain_append]
    simp only [Codec.feed]
    cases hf : (c.drain (src ++ piece)).fault? with
    | some e =>
      rw [if_pos (by simp), if_pos (by simp)]
      refine ⟨rfl, hf, rfl, fun h => ?_⟩
      rw [hf] at h
      cases h
    | none =>
      rw [if_neg (by simp), if_neg (by simp)]
      exact (ih (decode_drain_rest hf)).andThen

@[simp] theorem decode_nil (c : Codec) : c.decode [] = .ok none [] := rfl

/-- At the end of a stream that waits, bytes left are a fault. -/
theorem decodeEnd_of_none (h : c.decode src = .ok none src) :
    c.decodeEnd src =
      if src = [] then .ok none [] else .error (.io "bytes remaining on stream") src := by
  unfold Codec.decodeEnd
  rw [bind_of_ok h]
  cases src with
  | nil => rfl
  | cons b src => rfl

/-- **Decoding does not depend on how the stream is cut**: the pieces one by one give the frames,
the fault and the number of bytes taken off that all of it at once gives, and without a fault the
end of the stream is answered alike, with a fault exactly if bytes are left. -/
theorem feed_pieces_eq_feed_whole (c : Codec) (pieces : List Bytes) :
    (c.feed pieces []).frames = (c.feed [pieces.flatten] []).frames ∧
      (c.feed pieces []).fault? = (c.feed [pieces.flatten] []).fault? ∧
      (c.feed pieces []).consumed = (c.feed [pieces.flatten] []).consumed ∧
      ((c.feed pieces []).fault? = none →
        c.decodeEnd (c.feed pieces []).rest = c.decodeEnd (c.feed [pieces.flatten] []).rest ∧
          c.decodeEnd (c.feed pieces []).rest =
            if (c.feed pieces []).rest = [] then .ok none []
            else .error (.io "bytes remaining on stream") (c.feed pieces []).rest) := by
  obtain ⟨hframes, hfault, hconsumed, hrest⟩ := feed_agrees_drain pieces (decode_nil c)
  obtain ⟨hframes', hfault', hconsumed', hrest'⟩ :=
    feed_agrees_drain [pieces.flatten] (decode_nil c)
  simp only [List.flatten_cons, List.flatten_nil, List.append_nil, List.nil_append] at *
  refine ⟨hframes.trans hframes'.symm, hfault.trans hfault'.symm,
    hconsumed.trans hconsumed'.symm, fun h => ?_⟩
  have hdrain : (c.drain pieces.flatten).fault? = none := hfault ▸ h
  have hwait := decode_drain_rest hdrain
  rw [hrest' (hfault'.trans hdrain), hrest h]
  exact ⟨rfl, decodeEnd_of_none hwait⟩

end Wireform.Frame
