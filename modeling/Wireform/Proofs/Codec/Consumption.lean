import Wireform.Proofs.Codec.RoundTrip

/-!
# How far decoders get

Where a decoder stops, whether it succeeds or fails, and without a bound on lengths: a length that
does not fit a count is cut down to 32 bits when it is written, and the reader then takes what it
finds for shorter than it is.  On a field, a decoder of its type passes over one byte at least and
never over the end.
-/

namespace Wireform

variable {α β : Type} {d : Decoder α} {f : α → Decoder β} {least most least' most' n m : Nat}
  {a : α} {s s' bytes rest : Bytes}

/-- On `s`, `d` passes over at least `least` and at most `most` bytes. -/
def Consumes (d : Decoder α) (least most : Nat) (s : Bytes) : Prop :=
  (finalState d s).length + least ≤ s.length ∧ s.length ≤ (finalState d s).length + most

namespace Consumes

theorem mono (h : Consumes d least most s) (hl : least' ≤ least) (hm : most ≤ most') :
    Consumes d least' most' s := by
  unfold Consumes at *
  omega

theorem of_ok (h : d (bytes ++ rest) = .ok a rest) :
    Consumes d bytes.length bytes.length (bytes ++ rest) := by
  unfold Consumes
  rw [finalState_of_ok h, List.length_append]
  omega

theorem of_error {e : Fault} (h : d s = .error e s) : Consumes d 0 0 s := by
  unfold Consumes
  rw [finalState_of_error h]
  omega

/-- Two decoders in a row.  Only what the first leaves when it succeeds matters for the second. -/
theorem bind (hd : Consumes d least most s)
    (hf : ∀ a s', d s = .ok a s' → Consumes (f a) 0 most' s') :
    Consumes (d >>= f) least (most + most') s := by
  cases h : d s with
  | ok a s' =>
    have hf' := hf a s' h
    unfold Consumes at *
    rw [finalState_of_ok h] at hd
    rw [finalState_bind_of_ok h]
    omega
  | error e s' =>
    unfold Consumes at *
    rw [finalState_of_error h] at hd
    rw [finalState_bind_of_error h]
    omega

/-- Behind a decoder that reads what it finds. -/
theorem after (hd : Decodes d bytes a) (hf : Consumes (f a) least most rest) :
    Consumes (d >>= f) (bytes.length + least) (bytes.length + most) (bytes ++ rest) := by
  unfold Consumes at *
  rw [finalState_bind_of_ok (hd rest), List.length_append]
  omega

theorem map (h : Consumes d least most s) (g : α → β) :
    Consumes (do return g (← d)) least most s := by
  unfold Consumes at *
  rwa [finalState_map]

end Consumes

/-! ### Taking what was declared -/

/-- On `s`, `d` takes `n` bytes and succeeds, or fails within them. -/
def TakesUpTo (d : Decoder α) (n : Nat) (s : Bytes) : Prop :=
  (∃ a, d s = .ok a (s.drop n)) ∨ ∃ e k, k ≤ n ∧ d s = .error e (s.drop k)

namespace TakesUpTo

theorem consumes (h : TakesUpTo d n s) : Consumes d 0 n s := by
  rcases h with ⟨a, h⟩ | ⟨e, k, hk, h⟩
  · unfold Consumes
    rw [finalState_of_ok h, List.length_drop]
    omega
  · unfold Consumes
    rw [finalState_of_error h, List.length_drop]
    omega

theorem eq_drop (h : TakesUpTo d n s) (hrun : d s = .ok a s') : s' = s.drop n := by
  rcases h with ⟨b, h⟩ | ⟨e, k, _, h⟩
  · rw [h] at hrun
    cases hrun
    rfl
  · rw [h] at hrun
    cases hrun

theorem pure (a : α) : TakesUpTo (Pure.pure a : Decoder α) 0 s := .inl ⟨a, rfl⟩

theorem of_error {e : Fault} (h : d s = .error e s) : TakesUpTo d n s :=
  .inr ⟨e, 0, Nat.zero_le n, h⟩

theorem take (n : Nat) (s : Bytes) : TakesUpTo (Decoder.take n) n s := by
  rcases Nat.lt_or_ge s.length n with hlt | hle
  · exact of_error (Decoder.take_of_lt hlt)
  · exact .inl ⟨_, Decoder.take_of_le hle⟩

theorem bind (hd : TakesUpTo d n s) (hf : ∀ a, TakesUpTo (f a) m (s.drop n)) :
    TakesUpTo (d >>= f) (n + m) s := by
  rcases hd with ⟨a, h⟩ | ⟨e, k, hk, h⟩
  · rcases hf a with ⟨b, h'⟩ | ⟨e, k, hk, h'⟩
    · rw [List.drop_drop] at h'
      exact .inl ⟨b, by rw [bind_of_ok h, h']⟩
    · rw [List.drop_drop] at h'
      exact .inr ⟨e, n + k, Nat.add_le_add_left hk n, by rw [bind_of_ok h, h']⟩
  · exact .inr ⟨e, k, Nat.le_add_right_of_le hk, bind_of_error h⟩

theorem map (hd : TakesUpTo d n s) (g : α → β) : TakesUpTo (do return g (← d)) n s :=
  hd.bind fun a => .pure (g a)

/-- A check in front of a decoder. -/
theorem guard (c : Prop) [Decidable c] (e : Fault) (hd : TakesUpTo d n s) :
    TakesUpTo (do
      if c then throw e
      d) n s := by
  by_cases hc : c
  · rw [if_pos hc]
    exact of_error rfl
  · rw [if_neg hc]
    exact hd

theorem skip (n : Nat) (s : Bytes) : TakesUpTo (Decoder.skip n) n s := (take n s).map _

theorem words : ∀ (n : Nat) (acc : List UInt64) (s : Bytes),
    TakesUpTo (Decoder.replicate.go (do return UInt64.ofNat (← Decoder.number 8)) n acc) (n * 8) s
  | 0, acc, s => .pure _
  | n + 1, acc, s => by
    have hword : TakesUpTo (do return UInt64.ofNat (← Decoder.number 8)) 8 s :=
      ((take 8 s).map Bytes.value).map UInt64.ofNat
    rw [Nat.succ_mul, Nat.add_comm (n * 8)]
    exact hword.bind fun w => words n (w :: acc) _

end TakesUpTo

/-! ### Counted encodings -/

/-- The largest length of a text on the wire, with the count in front. -/
def maxCounted : Nat := VarInt.maxWidth32 + maxDeclared

theorem consumes_groups (tooBig : Fault) : ∀ (width scale sum : Nat) (s : Bytes),
    Consumes (VarInt.groups tooBig width scale sum) 0 width s
  | 0, _, _, s => .of_error rfl
  | width + 1, scale, sum, [] =>
    (Consumes.of_error (VarInt.groups_nil tooBig width scale sum)).mono (Nat.le_refl 0)
      (Nat.zero_le _)
  | width + 1, scale, sum, b :: rest => by
    have ih := consumes_groups tooBig width (scale * 128) (sum + b.toNat % 128 * scale) rest
    unfold Consumes finalState at *
    rw [VarInt.groups_cons, List.length_cons]
    split_ifs
    · simp only
      omega
    · omega

theorem consumes_decode32 (s : Bytes) : Consumes VarInt.decode32 0 VarInt.maxWidth32 s :=
  (consumes_groups .malformedVarInt VarInt.maxWidth32 1 0 s).map Int32.ofNat

theorem toNat_toInt_le (v : Int32) : v.toInt.toNat ≤ maxDeclared := by
  have hlt := v.toInt_lt
  unfold maxDeclared
  omega

/-- `d` reads a count, refuses a negative one, and takes as many units of `unit` bytes. -/
def Counted (unit : Nat) (d : Decoder α) : Prop :=
  ∃ body : Int32 → Decoder α, d = (VarInt.decode32 >>= body) ∧
    (∀ v, v < 0 → ∀ s, ∃ e, body v s = .error e s) ∧
    ∀ v s, TakesUpTo (body v) (v.toInt.toNat * unit) s

theorem Counted.map {unit : Nat} (hd : Counted unit d) (g : α → β) :
    Counted unit (do return g (← d)) := by
  obtain ⟨body, rfl, hneg, htake⟩ := hd
  refine ⟨fun v => do return g (← body v), by rw [bind_assoc], fun v hv s => ?_, fun v s => ?_⟩
  · obtain ⟨e, hrun⟩ := hneg v hv s
    exact ⟨e, bind_of_error hrun⟩
  · exact (htake v s).map g

theorem counted_text (max : Nat) : Counted 1 (Decode.text max) := by
  refine ⟨_, rfl, fun v hv s => ?_, fun v s => ?_⟩
  · exact ⟨_, by rw [if_pos (Or.inl hv)]; rfl⟩
  · rw [Nat.mul_one]
    exact .guard _ _ ((TakesUpTo.take _ s).bind fun bytes => .guard _ _ (.pure _))

theorem satMul_of_count {k unit : Nat} (hk : k ≤ maxDeclared) (hunit : unit ≤ 8) :
    satMul k unit = k * unit := by
  have hle : k * unit ≤ maxDeclared * 8 := Nat.mul_le_mul hk hunit
  exact Nat.min_eq_left (Nat.le_trans hle (by decide))

theorem counted_skip {unit : Nat} (hunit : unit ≤ 8) : Counted unit (Decode.skipCounted unit) := by
  refine ⟨_, rfl, fun v hv s => ?_, fun v s => ?_⟩
  · exact ⟨_, by rw [if_pos hv]; rfl⟩
  · by_cases hv : v < 0
    · exact .of_error (by rw [if_pos hv]; rfl)
    · rw [if_neg hv, satMul_of_count (toNat_toInt_le v) hunit]
      exact .skip _ s

theorem counted_bitSet : Counted 8 Decode.bitSet := by
  refine ⟨_, rfl, fun v hv s => ?_, fun v s => ?_⟩
  · rw [bind_of_ok (Decoder.available_eq s)]
    exact ⟨_, by rw [if_pos (Or.inl hv)]; rfl⟩
  · have h : TakesUpTo _ _ s := ((TakesUpTo.words v.toInt.toNat [] s).map BitSet.ofWords).guard
      (v < 0 ∨ s.length / 8 < v.toInt.toNat) (.bitSetTooLong v.toInt (s.length / 8))
    unfold TakesUpTo at h ⊢
    rw [bind_of_ok (Decoder.available_eq s)]
    exact h

theorem length_encode32_pos (v : Int32) : 0 < (VarInt.encode32 v).length :=
  List.length_pos_of_ne_nil (VarInt.ofNat_ne_nil _)

theorem toNat_toInt_ofNat_le (n : Nat) : (Int32.ofNat n).toInt.toNat ≤ n := by
  rcases toInt_ofNat_cases n with hneg | heq
  · omega
  · rw [heq]
    exact Nat.mod_le _ _

namespace Counted

variable {unit : Nat}

/-- Behind a count, whatever stands there, no more is taken than the count declares. -/
theorem consumes_declared (hd : Counted unit d) (v : Int32) (s : Bytes) :
    Consumes d 1 ((VarInt.encode32 v).length + v.toInt.toNat * unit) (VarInt.encode32 v ++ s) := by
  obtain ⟨body, rfl, -, htake⟩ := hd
  exact (Consumes.after (VarInt.decodes_decode32 v) (htake v s).consumes).mono
    (length_encode32_pos v) (Nat.le_refl _)

/-- On what a counted encoding wrote. -/
theorem consumes_own (hd : Counted unit d) {n : Nat} {content : Bytes}
    (hc : content.length = n * unit) (rest : Bytes) :
    Consumes d 1 ((VarInt.encode32 (Int32.ofNat n)).length + content.length)
      (VarInt.encode32 (Int32.ofNat n) ++ (content ++ rest)) := by
  have hle := Nat.mul_le_mul_right unit (toNat_toInt_ofNat_le n)
  exact (hd.consumes_declared _ _).mono (Nat.le_refl 1) (by omega)

theorem consumes_text (hd : Counted 1 d) (x : String) (rest : Bytes) :
    Consumes d 1 (Encode.text x).length (Encode.text x ++ rest) := by
  rw [Encode.text, List.append_assoc, List.length_append]
  exact hd.consumes_own (Nat.mul_one _).symm rest

theorem consumes_bitSet (hd : Counted 8 d) (x : BitSet) (rest : Bytes) :
    Consumes d 1 (Encode.bitSet x).length (Encode.bitSet x ++ rest) := by
  rw [Encode.bitSet, List.append_assoc, List.length_append]
  exact hd.consumes_own (by rw [Bytes.length_flatMap_ofNat]) rest

/-- On anything. -/
theorem consumes_any (hd : Counted 1 d) (s : Bytes) : Consumes d 0 maxCounted s := by
  obtain ⟨body, rfl, -, htake⟩ := hd
  refine (consumes_decode32 s).bind fun v s' _ => (htake v s').consumes.mono (Nat.le_refl 0) ?_
  rw [Nat.mul_one]
  exact toNat_toInt_le v

/-- Behind the count of a text: either the next text is found where it starts, or the length was cut
down, and what two counts can declare is less than what was cut off. -/
theorem consumes_content {body : Int32 → Decoder α}
    (hneg : ∀ v, v < 0 → ∀ s, ∃ e, body v s = .error e s)
    (htake : ∀ v s, TakesUpTo (body v) (v.toInt.toNat * 1) s) (hf : ∀ a, Counted 1 (f a))
    (content next rest : Bytes)
    (hnext : ∀ a, Consumes (f a) 0 next.length (next ++ rest)) :
    Consumes (body (Int32.ofNat content.length) >>= f) 0 (content.length + next.length)
      (content ++ (next ++ rest)) := by
  have hle := toNat_toInt_ofNat_le content.length
  have hbody := htake (Int32.ofNat content.length) (content ++ (next ++ rest))
  rw [Nat.mul_one] at hbody
  by_cases hv : Int32.ofNat content.length < 0
  · obtain ⟨e, hrun⟩ := hneg _ hv (content ++ (next ++ rest))
    unfold Consumes
    rw [finalState_bind_of_error hrun]
    omega
  · rcases toInt_ofNat_cases content.length with hlt | heq
    · exact absurd ((lt_zero_iff _).mpr hlt) hv
    rcases Nat.lt_or_ge content.length (2 ^ 32) with hsmall | hlarge
    · rw [heq, Nat.mod_eq_of_lt hsmall] at hbody
      refine hbody.consumes.bind fun a s' hrun => ?_
      rw [hbody.eq_drop hrun, List.drop_left]
      exact hnext a
    · have hbound := toNat_toInt_le (Int32.ofNat content.length)
      refine (hbody.consumes.bind fun a s' _ => (hf a).consumes_any s').mono (Nat.le_refl 0) ?_
      unfold maxCounted VarInt.maxWidth32
      unfold maxDeclared at *
      omega

/-- On two texts. -/
theorem consumes_texts (hd : Counted 1 d) (hf : ∀ a, Counted 1 (f a)) (x y : String)
    (rest : Bytes) :
    Consumes (d >>= f) 1 (Encode.text x ++ Encode.text y).length
      (Encode.text x ++ Encode.text y ++ rest) := by
  obtain ⟨body, rfl, hneg, htake⟩ := hd
  have hnext (a : α) : Consumes (f a) 0 (Encode.text y).length (Encode.text y ++ rest) :=
    ((hf a).consumes_text y rest).mono (Nat.zero_le 1) (Nat.le_refl _)
  have hcontent := consumes_content hneg htake hf (Utf8.encode x) (Encode.text y) rest hnext
  have hpos := length_encode32_pos (Int32.ofNat (Utf8.encode x).length)
  have hrun := Consumes.after (f := fun v => body v >>= f) (VarInt.decodes_decode32 _) hcontent
  rw [bind_assoc, Encode.text, List.append_assoc, List.append_assoc, List.append_assoc,
    List.length_append, List.length_append]
  exact hrun.mono hpos (Nat.le_refl _)

end Counted

/-- Of a set that has more words than a count can declare a part is read, or nothing. -/
theorem consumes_oversized {x : BitSet} (hx : maxDeclared < x.words.length) (rest : Bytes) :
    Consumes Decode.bitSet 1 ((Encode.bitSet x).length - 1) (Encode.bitSet x ++ rest) := by
  have hdeclared := toNat_toInt_le (Int32.ofNat x.words.length)
  have hwords := Bytes.length_flatMap_ofNat 8 UInt64.toNat x.words
  have h := counted_bitSet.consumes_declared (Int32.ofNat x.words.length)
    (x.words.flatMap (fun w => Bytes.ofNat 8 w.toNat) ++ rest)
  rw [← List.append_assoc] at h
  refine h.mono (Nat.le_refl 1) ?_
  rw [Encode.bitSet, List.length_append]
  omega

/-! ### Fields -/

theorem consumes_nbt (limits : Limits) {tree : Option Nbt.Tree}
    (hemit : (Encode.nbt tree).fault? = none) (rest : Bytes) :
    Consumes (Decode.nbt limits) 1 (Encode.nbt tree).bytes.length
      ((Encode.nbt tree).bytes ++ rest) := by
  cases tree with
  | none => exact .of_ok ((decodesIf_nbt limits hemit rest).1 trivial)
  | some t =>
    obtain ⟨hok, herr⟩ := Nbt.decodeTree_treeEncoding (Nbt.emit_fault?_eq_none_iff.mp hemit)
      ⟨limits.nbtQuota, limits.nbtDepth⟩ rest
    have hrun := nbt_treeEncoding limits t rest
    have hfinal := finalState_map (Nbt.decodeTree ⟨limits.nbtQuota, limits.nbtDepth⟩)
      (some : Nbt.Tree → _) (Nbt.treeEncoding t ++ rest)
    rw [bytes_nbt hemit]
    unfold Consumes
    rw [finalState, hrun, ← finalState, hfinal]
    by_cases hfits : Nbt.Budget.Allows ⟨limits.nbtQuota, limits.nbtDepth⟩ t
    · rw [finalState_of_ok (hok hfits), Nbt.treeEncoding]
      simp only [List.length_append, List.length_cons]
      omega
    · obtain ⟨e, tail, herr, back, hback, rfl⟩ := herr hfits
      have hle := hback.length_le
      rw [finalState_of_error herr, Nbt.treeEncoding]
      simp only [List.length_append, List.length_cons] at *
      omega

theorem consumes_decode (limits : Limits) {f : Field} (hemit : f.emit.fault? = none)
    (rest : Bytes) :
    Consumes (f.tag.decode limits) 1 f.emit.bytes.length (f.emit.bytes ++ rest) := by
  have hpos := List.length_pos_of_ne_nil (f.emit_bytes_ne_nil hemit)
  obtain ⟨t, v, hfits⟩ := f
  have hexact (hv : v.Declarable) (hlimits : v.Within limits) :
      Consumes (t.decode limits) 1 (t.emit v).bytes.length ((t.emit v).bytes ++ rest) :=
    (Consumes.of_ok ((WireType.decodesIf_emit limits hfits hv hemit rest).1 hlimits)).mono hpos
      (Nat.le_refl _)
  cases t <;> cases v <;> try (cases hfits; done)
  case string.text s => exact ((counted_text _).consumes_text s rest).map _
  case nbt.nbt tree => exact (consumes_nbt limits hemit rest).map _
  case bitSet.bitSet s => exact (counted_bitSet.consumes_bitSet s rest).map _
  case identifier.identifier i =>
    exact ((counted_text _).consumes_texts (fun space => (counted_text _).map (Identifier.mk space))
      i.space i.path rest).map _
  all_goals exact hexact trivial trivial

theorem consumes_skip (limits : Limits) {f : Field} (hemit : f.emit.fault? = none)
    (rest : Bytes) :
    Consumes (f.tag.skip limits) 1 f.emit.bytes.length (f.emit.bytes ++ rest) := by
  have hpos := List.length_pos_of_ne_nil (f.emit_bytes_ne_nil hemit)
  obtain ⟨t, v, hfits⟩ := f
  have hexact {n : Nat} (hn : (t.emit v).bytes.length = n) :
      Consumes (Decoder.skip n) 1 (t.emit v).bytes.length ((t.emit v).bytes ++ rest) := by
    rw [← hn]
    exact (Consumes.of_ok (Decoder.skip_append _ rest)).mono hpos (Nat.le_refl _)
  cases t <;> cases v <;> try (cases hfits; done)
  case varInt.int32 v =>
    exact ((Consumes.of_ok (VarInt.decodes_decode32 v rest)).mono hpos (Nat.le_refl _)).map _
  case varLong.int64 v =>
    exact ((Consumes.of_ok (VarInt.decodes_decode64 v rest)).mono hpos (Nat.le_refl _)).map _
  case string.text s => exact (counted_skip (by omega)).consumes_text s rest
  case nbt.nbt tree => exact (consumes_nbt limits hemit rest).map _
  case bitSet.bitSet s => exact (counted_skip (by omega)).consumes_bitSet s rest
  case identifier.identifier i =>
    exact (counted_skip (by omega)).consumes_texts (fun _ => counted_skip (by omega)) i.space
      i.path rest
  all_goals exact hexact rfl

theorem consumes_text (max : Nat) {f : Field} (ht : f.tag = .string) (rest : Bytes) :
    Consumes (Decode.text max) 1 f.emit.bytes.length (f.emit.bytes ++ rest) := by
  obtain ⟨t, v, hfits⟩ := f
  cases ht
  cases v <;> try (cases hfits; done)
  exact (counted_text max).consumes_text _ rest

end Wireform
