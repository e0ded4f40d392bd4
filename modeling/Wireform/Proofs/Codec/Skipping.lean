import Wireform.Proofs.Codec.Consumption
import Wireform.Proofs.Codec.Faults
import Wireform.Proofs.Buffer

/-!
# Passing over agrees with reading

Passing over a value goes its own way: it multiplies a count by the width of what is counted, and
takes fixed widths from a table.  It still gets as far as reading does and no farther; only a text
that is too long can be passed over and not be read.
-/

namespace Wireform

variable {α β : Type}

/-! ### Decoders that get equally far -/

/-- What `read` reads, `skip` passes over to the same place.  What `skip` passes over, `read` reads
up to the same place, or it fails with a fault that is `allowed`. -/
structure PassesOver (allowed : Fault → Prop) (read : Decoder α) (skip : Decoder Unit) : Prop where
  skip_of_read : ∀ s a rest, read s = .ok a rest → skip s = .ok () rest
  read_of_skip : ∀ s rest, skip s = .ok () rest →
    (∃ a, read s = .ok a rest) ∨ ∃ e left, allowed e ∧ read s = .error e left

namespace PassesOver

variable {allowed : Fault → Prop} {d : Decoder α} {k k' : Decoder Unit} {f : α → Decoder β}
  {g : α → Decoder Unit} {e : Fault}

theorem pure (a : α) : PassesOver allowed (Pure.pure a : Decoder α) (Pure.pure ()) where
  skip_of_read := by
    rintro s a rest ⟨⟩
    rfl
  read_of_skip := by
    rintro s rest ⟨⟩
    exact .inl ⟨a, rfl⟩

theorem mono (hd : PassesOver allowed d k) {allowed' : Fault → Prop}
    (h : ∀ e, allowed e → allowed' e) : PassesOver allowed' d k where
  skip_of_read := hd.skip_of_read
  read_of_skip s rest hskip := by
    rcases hd.read_of_skip s rest hskip with hread | ⟨e, left, he, hread⟩
    · exact .inl hread
    · exact .inr ⟨e, left, h e he, hread⟩

/-- What is never read is never passed over. -/
theorem of_errors (hd : ∀ s, ∃ e left, d s = .error e left)
    (hk : ∀ s, ∃ e left, k s = .error e left) : PassesOver allowed d k where
  skip_of_read s a rest h := by
    obtain ⟨e, left, herror⟩ := hd s
    rw [herror] at h
    cases h
  read_of_skip s rest h := by
    obtain ⟨e, left, herror⟩ := hk s
    rw [herror] at h
    cases h

/-- Behind the same decoder. -/
theorem behind (d : Decoder α) (h : ∀ a, PassesOver allowed (f a) (g a)) :
    PassesOver allowed (d >>= f) (d >>= g) where
  skip_of_read s b rest hread := by
    obtain ⟨a, t, hrun, hread⟩ := bind_eq_ok_iff.mp hread
    rw [bind_of_ok hrun]
    exact (h a).skip_of_read t b rest hread
  read_of_skip s rest hskip := by
    obtain ⟨a, t, hrun, hskip⟩ := bind_eq_ok_iff.mp hskip
    rw [bind_of_ok hrun]
    exact (h a).read_of_skip t rest hskip

/-- One after the other. -/
theorem bind (hd : PassesOver allowed d k) (hf : ∀ a, PassesOver allowed (f a) k') :
    PassesOver allowed (d >>= f) (do k; k') where
  skip_of_read s b rest hread := by
    obtain ⟨a, t, hrun, hread⟩ := bind_eq_ok_iff.mp hread
    rw [bind_of_ok (hd.skip_of_read s a t hrun)]
    exact (hf a).skip_of_read t b rest hread
  read_of_skip s rest hskip := by
    obtain ⟨⟨⟩, t, hrun, hskip⟩ := bind_eq_ok_iff.mp hskip
    rcases hd.read_of_skip s t hrun with ⟨a, hread⟩ | ⟨e, left, he, hread⟩
    · rw [bind_of_ok hread]
      exact (hf a).read_of_skip t rest hskip
    · exact .inr ⟨e, left, he, bind_of_error hread⟩

/-- What is made of what was read does not matter. -/
theorem map (hd : PassesOver allowed d k) (g : α → β) :
    PassesOver allowed (do return g (← d)) k := by
  have h := hd.bind fun a => pure (g a)
  have hk : (do k; Pure.pure ()) = k := bind_pure k
  rwa [hk] at h

/-- A refusal that is allowed. -/
theorem guard {c : Prop} [Decidable c] (he : allowed e) (hd : PassesOver allowed d k) :
    PassesOver allowed (do
      if c then throw e
      d) k := by
  by_cases hc : c
  · rw [if_pos hc]
    exact ⟨nofun, fun s _ _ => .inr ⟨e, s, he, rfl⟩⟩
  · rw [if_neg hc]
    exact hd

theorem discard (d : Decoder α) (g : α → β) :
    PassesOver allowed (do return g (← d)) (do let _ ← d) := behind d fun a => pure (g a)

/-- A decoder that takes `n` bytes, or fails where there are fewer. -/
theorem of_width {n : Nat} (hok : ∀ s : Bytes, n ≤ s.length → ∃ a, d s = .ok a (s.drop n))
    (herror : ∀ s : Bytes, s.length < n → ∃ e left, d s = .error e left) :
    PassesOver allowed d (Decoder.skip n) where
  skip_of_read s a rest h := by
    rcases Nat.lt_or_ge s.length n with hlt | hle
    · obtain ⟨e, left, hd⟩ := herror s hlt
      rw [hd] at h
      cases h
    · obtain ⟨a', hd⟩ := hok s hle
      rw [hd] at h
      cases h
      exact bind_of_ok (Decoder.take_of_le hle)
  read_of_skip s rest h := by
    obtain ⟨bytes, t, htake, ⟨⟩⟩ := bind_eq_ok_iff.mp h
    rcases Nat.lt_or_ge s.length n with hlt | hle
    · rw [Decoder.take_of_lt hlt] at htake
      cases htake
    · rw [Decoder.take_of_le hle] at htake
      cases htake
      exact .inl (hok s hle)

theorem take (n : Nat) : PassesOver allowed (Decoder.take n) (Decoder.skip n) :=
  of_width (fun _ h => ⟨_, Decoder.take_of_le h⟩) fun _ h => ⟨_, _, Decoder.take_of_lt h⟩

theorem byte : PassesOver allowed Decoder.byte (Decoder.skip 1) :=
  of_width (fun | b :: _, _ => ⟨b, rfl⟩) fun | [], _ => ⟨_, _, rfl⟩

theorem fixed (width : Nat) (g : Nat → α) :
    PassesOver allowed (do return g (← Decoder.number width)) (Decoder.skip width) :=
  ((take width).map Bytes.value).map g

end PassesOver

/-! ### Counted encodings -/

/-- The fault of a text that is too long. -/
def Fault.IsTooLong (e : Fault) : Prop := ∃ length max, e = .stringTooLong length max

variable {allowed : Fault → Prop}

/-- Behind a count.  A negative one is neither read nor passed over. -/
theorem passesOver_counted {unit : Nat} (hunit : unit ≤ 8) {body : Int32 → Decoder α}
    (hneg : ∀ v : Int32, v < 0 → ∀ s, ∃ e left, body v s = .error e left)
    (hbody : ∀ v : Int32, ¬ v < 0 →
      PassesOver allowed (body v) (Decoder.skip (v.toInt.toNat * unit))) :
    PassesOver allowed (VarInt.decode32 >>= body) (Decode.skipCounted unit) := by
  refine .behind _ fun v => ?_
  by_cases hv : v < 0
  · exact .of_errors (hneg v hv) fun s => ⟨_, s, by rw [if_pos hv]; rfl⟩
  · rw [if_neg hv, satMul_of_count (toNat_toInt_le v) hunit]
    exact hbody v hv

theorem passesOver_text (max : Nat) :
    PassesOver Fault.IsTooLong (Decode.text max) (Decode.skipCounted 1) := by
  refine passesOver_counted (by decide) (fun v hv s => ⟨_, s, by rw [if_pos (Or.inl hv)]; rfl⟩)
    fun v _ => ?_
  rw [Nat.mul_one]
  refine .guard ⟨_, _, rfl⟩ (.behind _ fun bytes => ?_)
  exact .guard ⟨_, _, rfl⟩ (.pure _)

theorem passesOver_bitSet : PassesOver allowed Decode.bitSet (Decode.skipCounted 8) := by
  refine passesOver_counted (Nat.le_refl 8) (fun v hv s => ?_) fun v hv => .of_width (fun s h => ?_)
    fun s h => ?_
  · rw [bind_of_ok (Decoder.available_eq s), if_pos (Or.inl hv)]
    exact ⟨_, _, rfl⟩
  · obtain ⟨words, hlen, hs⟩ := Bytes.exists_ofWords h
    have hwords := decodes_words words [] (s.drop (v.toInt.toNat * 8))
    rw [← hs, hlen] at hwords
    rw [bind_of_ok (Decoder.available_eq s), if_neg (not_or.mpr ⟨hv, by omega⟩)]
    exact ⟨_, bind_of_ok hwords⟩
  · rw [bind_of_ok (Decoder.available_eq s), if_pos (Or.inr (by omega))]
    exact ⟨_, _, rfl⟩

/-! ### All wire types -/

/-- The types that hold texts. -/
def WireType.HoldsText (t : WireType) : Prop := t = .string ∨ t = .identifier

/-- **Every wire type** is passed over as it is read, and only a text can be too long to be read. -/
theorem WireType.passesOver (limits : Limits) (t : WireType) :
    PassesOver (fun e => t.HoldsText ∧ e.IsTooLong) (t.decode limits) (t.skip limits) := by
  have htext {t : WireType} (ht : t.HoldsText) (max : Nat) :
      PassesOver (fun e => t.HoldsText ∧ e.IsTooLong) (Decode.text max) (Decode.skipCounted 1) :=
    (passesOver_text max).mono fun e he => ⟨ht, he⟩
  cases t
  case varInt => exact .discard _ _
  case varLong => exact .discard _ _
  case nbt => exact .discard _ _
  case string => exact (htext (.inl rfl) _).map _
  case identifier =>
    exact ((htext (.inr rfl) _).bind fun space => (htext (.inr rfl) _).map _).map _
  case bitSet => exact passesOver_bitSet.map _
  case unsignedByte => exact PassesOver.byte.map _
  case byte => exact PassesOver.byte.map _
  case boolean => exact PassesOver.byte.map _
  case uuid => exact (PassesOver.take 16).map _
  all_goals exact .fixed _ _

/-! ### Reads and skips of a buffer -/

namespace Buffer

variable {b : Buffer} {read : Action α} {skip : Action Unit} {d : Decoder α} {k : Decoder Unit}
  {ofText : Prop}

/-- On `b`, `skip` is refused as `read` is.  It passes over what `read` reads and ends in the same
state, and what it passes over `read` reads, or it is a text that is too long. -/
structure Follows (ofText : Prop) (read : Action α) (skip : Action Unit) (b : Buffer) : Prop where
  refused_iff : ∀ why b', read b = .error (.typeMismatch why) b' ↔
    skip b = .error (.typeMismatch why) b'
  skip_of_read : ∀ a b', read b = .ok a b' → skip b = .ok () b'
  read_of_skip : ∀ b', skip b = .ok () b' →
    (∃ a, read b = .ok a b') ∨
      ofText ∧ ∃ length max b'', read b = .error (.stringTooLong length max) b''

/-- What a check let pass no decoder refuses. -/
theorem Follows.of_decoders (hread : read b = Action.ofDecoder d b)
    (hskip : skip b = Action.ofDecoder k b) (hd : Stops d) (hk : Stops k)
    (h : PassesOver (fun e => ofText ∧ e.IsTooLong) d k) : Follows ofText read skip b where
  refused_iff why b' := by
    rw [hread, hskip]
    refine iff_of_false (fun hrefused => ?_) fun hrefused => ?_
    · obtain ⟨rest, hrun, -⟩ := Action.ofDecoder_eq_error_iff.mp hrefused
      exact nomatch hd _ _ _ hrun
    · obtain ⟨rest, hrun, -⟩ := Action.ofDecoder_eq_error_iff.mp hrefused
      exact nomatch hk _ _ _ hrun
  skip_of_read a b' hok := by
    rw [hread] at hok
    obtain ⟨rest, hrun, rfl⟩ := Action.ofDecoder_eq_ok_iff.mp hok
    exact hskip.trans (Action.ofDecoder_of_ok (h.skip_of_read _ _ _ hrun))
  read_of_skip b' hok := by
    rw [hskip] at hok
    obtain ⟨rest, hrun, rfl⟩ := Action.ofDecoder_eq_ok_iff.mp hok
    rw [hread]
    rcases h.read_of_skip _ _ hrun with ⟨a, hok⟩ | ⟨e, left, ⟨ht, length, max, rfl⟩, herror⟩
    · exact .inl ⟨a, Action.ofDecoder_of_ok hok⟩
    · exact .inr ⟨ht, length, max, _, Action.ofDecoder_of_error herror⟩

/-- A refusal by the layout is the same for both. -/
theorem Follows.of_refused {why : Mismatch} (hread : read b = .error (.typeMismatch why) b)
    (hskip : skip b = .error (.typeMismatch why) b) : Follows ofText read skip b where
  refused_iff why' b' := by
    rw [hread, hskip]
    constructor <;> rintro ⟨⟩ <;> rfl
  skip_of_read a b' hok := by
    rw [hread] at hok
    cases hok
  read_of_skip b' hok := by
    rw [hskip] at hok
    cases hok

/-- **Passing over agrees with reading**, on every buffer and for every wire type: both are refused
by the layout alike, and both end in the same place, unless a text is too long to be read. -/
theorem skip_follows_read (b : Buffer) :
    (∀ t : WireType, Follows (t = .string ∨ t = .identifier) (Buffer.read t) (Buffer.skip t) b) ∧
    ∀ max, Follows True (Buffer.readText max) (Buffer.skip .string) b := by
  refine ⟨fun t => ?_, fun max => ?_⟩
  · rcases checkField_cases t b with hok | ⟨why, herror⟩
    · exact .of_decoders (read_of_checkField hok) (skip_of_checkField hok)
        (stops_inherited.decode b.limits t) (stops_inherited.skipType b.limits t)
        (t.passesOver b.limits)
    · exact .of_refused (bind_of_error herror) (bind_of_error herror)
  · rcases checkField_cases .string b with hok | ⟨why, herror⟩
    · exact .of_decoders (readText_of_checkField max hok) (skip_of_checkField hok)
        (stops_inherited.text max) (stops_inherited.skipType b.limits .string)
        ((passesOver_text max).mono fun e he => ⟨trivial, he⟩)
    · exact .of_refused (bind_of_error herror) (bind_of_error herror)

/-- Two units where one is allowed are passed over, and refused. -/
example : let b := { ofBytes [2, 97, 98] with limits := ⟨1, 0, 0⟩ }
    Buffer.skip .string b = .ok () (b.advance 3) ∧
      Buffer.read .string b = .error (.stringTooLong 2 1) (b.advance 3) := ⟨rfl, rfl⟩

end Buffer

end Wireform
