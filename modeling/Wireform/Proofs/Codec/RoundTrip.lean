import Wireform.Codec
import Wireform.Pending
import Wireform.Proofs.Number
import Wireform.Proofs.Text.Lossy
import Wireform.Proofs.Nbt.RoundTrip

/-!
# Fields read back

Each decoder on what the encoder of its wire type wrote.  A field reads back within the limits and
is refused beyond them, if the lengths in it are 32-bit counts.
-/

namespace Wireform

/-- The largest length that a count can declare. -/
def maxDeclared : Nat := 0x7FFFFFFF

namespace Value

/-- Texts and sets whose lengths a count can declare. -/
def Declarable : Value → Prop
  | text s => (Utf8.encode s).length ≤ maxDeclared
  | identifier i =>
    (Utf8.encode i.space).length ≤ maxDeclared ∧ (Utf8.encode i.path).length ≤ maxDeclared
  | bitSet s => s.words.length ≤ maxDeclared
  | _ => True

/-- What limits accept: texts by their UTF-16 units, trees by their charge and their height. -/
def Within (limits : Limits) : Value → Prop
  | text s => Utf16.length s ≤ limits.stringUnits
  | identifier i =>
    Utf16.length i.space ≤ limits.stringUnits ∧ Utf16.length i.path ≤ limits.stringUnits
  | nbt (some t) => Nbt.Budget.Allows ⟨limits.nbtQuota, limits.nbtDepth⟩ t
  | _ => True

end Value

/-! ### Counted encodings -/

/-- A text reads back if its units are allowed: the check of its bytes refuses no more. -/
theorem decodesIf_text (max : Nat) {s : String} (hs : (Utf8.encode s).length ≤ maxDeclared) :
    DecodesIf (Decode.text max) (Utf16.length s ≤ max) (Encode.text s) s := by
  unfold maxDeclared at hs
  have hint := toInt_ofNat_count hs
  have hlen := Utf8.length_encode_le s
  have hcontent : DecodesIf (do
      let s := Utf8.lossy (← Decoder.take (Utf8.encode s).length)
      let units := Utf16.length s
      if max < units then throw (.stringTooLong units max)
      return s) (Utf16.length s ≤ max) (Utf8.encode s) s := by
    refine (DecodesIf.after (.take _) (?_ : DecodesIf _ _ [] s)).congr .rfl (List.append_nil _)
    simp only [Utf8.lossy_encode]
    exact ((DecodesIf.of_decodes (.pure s)).guard _ _).congr (by simp) rfl
  refine .after (VarInt.decodes_decode32 _) ?_
  simp only [lt_zero_iff, hint, Int.toNat_natCast]
  refine (hcontent.guard _ _).congr ⟨fun h => h.2, fun h => ⟨?_, h⟩⟩ rfl
  unfold satMul sizeMax
  omega

theorem decodes_word (w : UInt64) :
    Decodes (do return UInt64.ofNat (← Decoder.number 8)) (Bytes.ofNat 8 w.toNat) w :=
  decodes_fixed w.toNat_lt UInt64.ofNat_toNat

/-- Bytes of words in a row. -/
def Bytes.ofWords (words : List UInt64) : Bytes := words.flatMap fun w => ofNat 8 w.toNat

@[simp, grind =]
theorem Bytes.length_ofWords (words : List UInt64) : (ofWords words).length = words.length * 8 :=
  length_flatMap_ofNat 8 UInt64.toNat words

/-- As many bytes as words take are the bytes of words. -/
theorem Bytes.exists_ofWords : ∀ {n : Nat} {s : Bytes}, n * 8 ≤ s.length →
    ∃ words : List UInt64, words.length = n ∧ s = ofWords words ++ s.drop (n * 8)
  | 0, s, _ => ⟨[], rfl, by rw [Nat.zero_mul]; rfl⟩
  | n + 1, s, h => by
    have hlen : (s.take 8).length = 8 := List.length_take_of_le (by omega)
    have hword : Bytes.ofNat 8 (UInt64.ofNat (Bytes.value (s.take 8))).toNat = s.take 8 := by
      have hlt := Bytes.value_lt (s.take 8)
      have hdigits := Bytes.ofNat_value (s.take 8)
      rw [hlen] at hlt hdigits
      rwa [UInt64.toNat_ofNat_of_lt' hlt]
    obtain ⟨words, rfl, hwords⟩ := Bytes.exists_ofWords (n := n) (s := s.drop 8) (by
      rw [List.length_drop]
      omega)
    refine ⟨UInt64.ofNat (Bytes.value (s.take 8)) :: words, rfl, ?_⟩
    rw [Bytes.ofWords, List.flatMap_cons, hword, List.append_assoc, Nat.succ_mul, Nat.add_comm,
      ← List.drop_drop, ← Bytes.ofWords, ← hwords, List.take_append_drop]

/-- Words in a row, on top of those read so far. -/
theorem decodes_words : ∀ words acc : List UInt64,
    Decodes (Decoder.replicate.go (do return UInt64.ofNat (← Decoder.number 8)) words.length acc)
      (Bytes.ofWords words) (acc.reverse ++ words)
  | [], acc => by
    rw [List.append_nil]
    exact .pure _
  | w :: words, acc => by
    have hrest := decodes_words words (w :: acc)
    rw [List.reverse_cons, List.append_assoc, List.singleton_append] at hrest
    exact (decodes_word w).bind hrest

/-- A count that is in range, and the words it declares, are a set. -/
theorem Decode.bitSet_of_words {src rest : Bytes} {count : Int32} {words : List UInt64}
    (h : VarInt.decode32 src = .ok count (Bytes.ofWords words ++ rest))
    (hcount : count.toInt = words.length) : Decode.bitSet src = .ok (.ofWords words) rest := by
  have hwords := (decodes_words words []).map (f := BitSet.ofWords) rest
  have hlen := Bytes.length_ofWords words
  rw [Decode.bitSet, bind_of_ok h, bind_of_ok (Decoder.available_eq _), if_neg, hcount,
    Int.toNat_natCast]
  · exact hwords
  · rw [lt_zero_iff, List.length_append]
    omega

/-- A set reads back: it is that of its words. -/
theorem decodes_bitSet {s : BitSet} (hs : s.words.length ≤ maxDeclared) :
    Decodes Decode.bitSet (Encode.bitSet s) s := by
  intro rest
  have hcount := VarInt.decodes_decode32 (Int32.ofNat s.words.length)
    (Bytes.ofWords s.words ++ rest)
  rw [← List.append_assoc] at hcount
  have hset := Decode.bitSet_of_words hcount (toInt_ofNat_count hs)
  rwa [BitSet.ofWords_words] at hset

/-- What does not begin with the end mark is a tree. -/
theorem nbt_cons_of_ne (limits : Limits) {b : UInt8} (h : b ≠ Nbt.endId) (bytes : Bytes) :
    Decode.nbt limits (b :: bytes) = (do
      return some (← Nbt.decodeTree ⟨limits.nbtQuota, limits.nbtDepth⟩) : Decoder _)
        (b :: bytes) := by
  have hpeek : Decoder.peek (b :: bytes) = .ok b (b :: bytes) := rfl
  rw [Decode.nbt, bind_of_ok hpeek, if_neg h]

theorem nbt_root (limits : Limits) (d : Nbt.Grammar.Root) (rest : Bytes) :
    Decode.nbt limits (d.bytes ++ rest) = (do
      return some (← Nbt.decodeTree ⟨limits.nbtQuota, limits.nbtDepth⟩) : Decoder _)
        (d.bytes ++ rest) := nbt_cons_of_ne limits (by decide) _

theorem nbt_treeEncoding (limits : Limits) (t : Nbt.Tree) (rest : Bytes) :
    Decode.nbt limits (Nbt.treeEncoding t ++ rest) = (do
      return some (← Nbt.decodeTree ⟨limits.nbtQuota, limits.nbtDepth⟩) : Decoder _)
        (Nbt.treeEncoding t ++ rest) := nbt_cons_of_ne limits (by decide) _

theorem decodes_nbt_none (limits : Limits) : Decodes (Decode.nbt limits) [Nbt.endId] none := by
  intro rest
  have hpeek : Decoder.peek (Nbt.endId :: rest) = .ok Nbt.endId (Nbt.endId :: rest) := rfl
  have hskip : Decoder.skip 1 (Nbt.endId :: rest) = .ok () rest := Decoder.skip_append [_] rest
  show Decode.nbt limits (Nbt.endId :: rest) = .ok none rest
  rw [Decode.nbt, bind_of_ok hpeek, if_pos rfl, bind_of_ok hskip, pure_eq]

theorem bytes_nbt {t : Nbt.Tree} (h : (Encode.nbt (some t)).fault? = none) :
    (Encode.nbt (some t)).bytes = Nbt.treeEncoding t :=
  congrArg Emission.bytes (Nbt.emit_of_writable (Nbt.emit_fault?_eq_none_iff.mp h))

/-- A tree, or none. -/
theorem decodesIf_nbt (limits : Limits) {tree : Option Nbt.Tree}
    (hemit : (Encode.nbt tree).fault? = none) :
    DecodesIf (Decode.nbt limits) ((Value.nbt tree).Within limits) (Encode.nbt tree).bytes
      tree := by
  cases tree with
  | none => exact .of_decodes (decodes_nbt_none limits)
  | some t =>
    intro rest
    obtain ⟨hok, herr⟩ := Nbt.decodeTree_treeEncoding (Nbt.emit_fault?_eq_none_iff.mp hemit)
      ⟨limits.nbtQuota, limits.nbtDepth⟩ rest
    rw [bytes_nbt hemit, nbt_treeEncoding]
    refine ⟨fun h => ?_, fun h => ?_⟩
    · rw [bind_of_ok (hok h), pure_eq]
    · obtain ⟨e, tail, hrun, _⟩ := herr h
      exact ⟨_, _, bind_of_error hrun⟩

theorem decodesIf_identifier (max : Nat) {i : Identifier}
    (hi : (Value.identifier i).Declarable) :
    DecodesIf (Decode.identifier max) (Utf16.length i.space ≤ max ∧ Utf16.length i.path ≤ max)
      (Encode.text i.space ++ Encode.text i.path) i :=
  (decodesIf_text max hi.1).bind ((decodesIf_text max hi.2).map (Identifier.mk i.space))

/-! ### All wire types -/

theorem decodes_bool (v : Bool) :
    Decodes (do return Value.bool ((← Decoder.byte) != 0)) [if v then 1 else 0] (.bool v) := by
  cases v <;> exact (Decodes.byte _).map

theorem decodes_uuid (u : Uuid) :
    Decodes (do
      let bytes ← Decoder.take 16
      let half (part : Bytes) : UInt64 := UInt64.ofNat part.value
      return Value.uuid ⟨half (bytes.take 8), half (bytes.drop 8)⟩)
      (Bytes.ofNat 8 u.high.toNat ++ Bytes.ofNat 8 u.low.toNat) (.uuid u) := by
  have hhalf (w : UInt64) : UInt64.ofNat (Bytes.ofNat 8 w.toNat).value = w := by
    rw [Bytes.value_ofNat_of_lt (show w.toNat < 256 ^ 8 from w.toNat_lt), UInt64.ofNat_toNat]
  have hlen (w : UInt64) : (Bytes.ofNat 8 w.toNat).length = 8 := Bytes.length_ofNat _ _
  have htake := Decodes.take (Bytes.ofNat 8 u.high.toNat ++ Bytes.ofNat 8 u.low.toNat)
  rw [List.length_append, hlen, hlen] at htake
  intro rest
  rw [bind_of_ok (htake rest)]
  simp only [List.take_left' (hlen _), List.drop_left' (hlen _), hhalf, pure_eq]

/-- **A field reads back within the limits and is refused beyond them.** -/
theorem WireType.decodesIf_emit (limits : Limits) {t : WireType} {v : Value} (hfits : v.Fits t)
    (hv : v.Declarable) (hemit : (t.emit v).fault? = none) :
    DecodesIf (t.decode limits) (v.Within limits) (t.emit v).bytes v := by
  cases t <;> cases v <;> try (cases hfits; done)
  case varInt.int32 v => exact .of_decodes (VarInt.decodes_decode32 v).map
  case varLong.int64 v => exact .of_decodes (VarInt.decodes_decode64 v).map
  case unsignedByte.uint8 v => exact .of_decodes (Decodes.byte v).map
  case byte.int8 v => exact .of_decodes (Decodes.byte v.toUInt8).map
  case string.text s => exact (decodesIf_text _ hv).map Value.text
  case nbt.nbt tree => exact (decodesIf_nbt limits hemit).map Value.nbt
  case bitSet.bitSet s => exact .of_decodes (decodes_bitSet hv).map
  case boolean.bool v => exact .of_decodes (decodes_bool v)
  case short.int16 v =>
    have hv := congrArg Value.int16 (int16_ofNat_toNat v)
    exact .of_decodes (decodes_fixed v.toUInt16.toNat_lt hv)
  case int.int32 v =>
    have hv := congrArg Value.int32 (int32_ofNat_toNat v)
    exact .of_decodes (decodes_fixed v.toUInt32.toNat_lt hv)
  case long.int64 v =>
    have hv := congrArg Value.int64 (int64_ofNat_toNat v)
    exact .of_decodes (decodes_fixed v.toUInt64.toNat_lt hv)
  case float.float32 v =>
    exact .of_decodes (decodes_fixed v.bits.toNat_lt (by rw [UInt32.ofNat_toNat]))
  case double.float64 v =>
    exact .of_decodes (decodes_fixed v.bits.toNat_lt (by rw [UInt64.ofNat_toNat]))
  case identifier.identifier i => exact (decodesIf_identifier _ hv).map Value.identifier
  case uuid.uuid u => exact .of_decodes (decodes_uuid u)

/-! ### Fields -/

/-- A tree is all that can be beyond writing. -/
theorem Field.emit_fault?_eq_none_iff (f : Field) :
    f.emit.fault? = none ↔ ∀ t, f.value = .nbt (some t) → t.emit.fault? = none := by
  obtain ⟨t, v, hfits⟩ := f
  cases t <;> cases v <;> try (cases hfits; done)
  case nbt.nbt tree =>
    cases tree with
    | none => exact ⟨fun _ => nofun, fun _ => rfl⟩
    | some t => exact ⟨fun h t' ht => by cases ht; exact h, fun h => h t rfl⟩
  all_goals exact ⟨fun _ => nofun, fun _ => rfl⟩

/-- A field that holds a tree is written as the tree. -/
theorem Field.emit_of_tree {f : Field} {t : Nbt.Tree} (h : f.value = .nbt (some t)) :
    f.emit = t.emit := by
  obtain ⟨tag, v, hfits⟩ := f
  subst h
  cases tag <;> cases hfits
  rfl

theorem Field.emit_bytes_ne_nil (f : Field) (h : f.emit.fault? = none) : f.emit.bytes ≠ [] := by
  have hvar (n : Nat) (more : Bytes) : VarInt.ofNat n ++ more ≠ [] :=
    List.append_ne_nil_of_left_ne_nil (VarInt.ofNat_ne_nil n) _
  have hfixed (width n : Nat) : Bytes.ofNat (width + 1) n ≠ [] := by
    simp [Bytes.ofNat]
  obtain ⟨t, v, hfits⟩ := f
  cases t <;> cases v <;> try (cases hfits; done)
  case nbt.nbt tree =>
    cases tree with
    | none => exact List.cons_ne_nil _ _
    | some t =>
      show (Encode.nbt (some t)).bytes ≠ []
      rw [bytes_nbt h]
      exact List.cons_ne_nil _ _
  case varInt.int32 v => exact VarInt.ofNat_ne_nil _
  case varLong.int64 v => exact VarInt.ofNat_ne_nil _
  case string.text s => exact hvar _ _
  case bitSet.bitSet s => exact hvar _ _
  case identifier.identifier i => exact List.append_ne_nil_of_left_ne_nil (hvar _ _) _
  case uuid.uuid u => exact List.append_ne_nil_of_left_ne_nil (hfixed 7 _) _
  case short.int16 v => exact hfixed 1 _
  case int.int32 v => exact hfixed 3 _
  case long.int64 v => exact hfixed 7 _
  case float.float32 v => exact hfixed 3 _
  case double.float64 v => exact hfixed 7 _
  all_goals exact List.cons_ne_nil _ _

end Wireform
