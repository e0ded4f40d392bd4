import Wireform.Proofs.BitSet
import Wireform.Proofs.Codec.Consumption
import Wireform.Proofs.Codec.RoundTrip
import Wireform.Proofs.Number.AnyBytes

/-!
# Sets of indices on the wire

A set is read behind a count of words, if that many can be there, and has the bits of these words,
also where the last of them are zero.  A written set has no such words, and neither its count nor
its words can be fewer: so it is the shortest form that is read as the set.
-/

namespace Wireform

/-! ### Words in bytes -/

namespace Bytes

/-- The number of bytes is the sum of its digits. -/
theorem value_eq_sum (s : Bytes) :
    value s = ∑ j ∈ Finset.range s.length, (s.getD j 0).toNat * 256 ^ (s.length - 1 - j) := by
  induction s using List.reverseRecOn with
  | nil => rfl
  | append_singleton s b ih =>
    have hdigit : ∀ j ∈ Finset.range s.length,
        ((s ++ [b]).getD j 0).toNat * 256 ^ (s.length - j) =
          (s.getD j 0).toNat * 256 ^ (s.length - 1 - j) * 256 := by
      intro j hj
      have hlt : j < s.length := Finset.mem_range.mp hj
      have hpow : s.length - j = s.length - 1 - j + 1 := by omega
      rw [List.getD_append _ _ _ _ hlt, hpow, Nat.pow_succ, Nat.mul_assoc]
    have hlast : (s ++ [b]).getD s.length 0 = b := by
      simp
    rw [value_concat, List.length_append, List.length_singleton, Finset.sum_range_succ,
      Nat.add_sub_cancel, Finset.sum_congr rfl hdigit, ← Finset.sum_mul, ← ih, hlast, Nat.sub_self,
      Nat.pow_zero, Nat.mul_one]

/-- Word number `k` of bytes: eight of them, the most significant first. -/
def wordAt (s : Bytes) (k : Nat) : Nat :=
  ∑ j ∈ Finset.range 8, (s.getD (8 * k + j) 0).toNat * 256 ^ (7 - j)

@[simp]
theorem wordAt_zero (w : UInt64) (more : Bytes) : wordAt (ofNat 8 w.toNat ++ more) 0 = w.toNat := by
  have hlen := length_ofNat 8 w.toNat
  have hvalue := value_eq_sum (ofNat 8 w.toNat)
  rw [value_ofNat_of_lt (show w.toNat < 256 ^ 8 from w.toNat_lt), hlen] at hvalue
  rw [wordAt]
  refine Eq.trans ?_ hvalue.symm
  apply Finset.sum_congr rfl
  intro j hj
  have hlt : 8 * 0 + j < (ofNat 8 w.toNat).length := by
    rw [hlen, Nat.mul_zero, Nat.zero_add]
    exact Finset.mem_range.mp hj
  rw [List.getD_append _ _ _ _ hlt, Nat.mul_zero, Nat.zero_add]

theorem wordAt_succ {front : Bytes} (h : front.length = 8) (more : Bytes) (k : Nat) :
    wordAt (front ++ more) (k + 1) = wordAt more k := by
  apply Finset.sum_congr rfl
  intro j _
  have hle : front.length ≤ 8 * (k + 1) + j := by omega
  have hsub : 8 * (k + 1) + j - front.length = 8 * k + j := by omega
  rw [List.getD_append_right _ _ _ _ hle, hsub]

/-- The words are where they stand. -/
theorem wordAt_ofWords (words : List UInt64) (rest : Bytes) {k : Nat} (h : k < words.length) :
    wordAt (ofWords words ++ rest) k = words[k].toNat := by
  induction words generalizing k with
  | nil => exact absurd h (Nat.not_lt_zero k)
  | cons w words ih =>
    rw [ofWords, List.flatMap_cons, List.append_assoc]
    cases k with
    | zero => exact wordAt_zero w _
    | succ k =>
      rw [wordAt_succ (length_ofNat 8 _)]
      exact ih (Nat.lt_of_succ_lt_succ h)

end Bytes

/-! ### The decoder of sets -/

namespace Decode

variable {src rest : Bytes} {count : Int32}

/-- A count that is out of range is reported behind it. -/
theorem bitSet_of_out_of_range (h : VarInt.decode32 src = .ok count rest)
    (hcount : ¬ (0 ≤ count.toInt ∧ count.toInt.toNat ≤ rest.length / 8)) :
    bitSet src = .error (.bitSetTooLong count.toInt (rest.length / 8)) rest := by
  rw [bitSet, bind_of_ok h, bind_of_ok (Decoder.available_eq _), if_pos]
  · rfl
  · rw [lt_zero_iff]
    omega

/-- **What sets are read from**: a count, and as many words. -/
theorem bitSet_eq_ok_iff {s : BitSet} :
    bitSet src = .ok s rest ↔ ∃ count : Int32, ∃ words : List UInt64,
      VarInt.decode32 src = .ok count (Bytes.ofWords words ++ rest) ∧
        count.toInt = words.length ∧ s = .ofWords words := by
  constructor
  · intro h
    cases hcount : VarInt.decode32 src with
    | error e left =>
      rw [bitSet, bind_of_error hcount] at h
      cases h
    | ok count left =>
      by_cases hrange : 0 ≤ count.toInt ∧ count.toInt.toNat ≤ left.length / 8
      · obtain ⟨words, hlen, hleft⟩ := Bytes.exists_ofWords (n := count.toInt.toNat) (s := left)
          (by omega)
        have hint : count.toInt = words.length := by omega
        rw [hleft] at hcount
        rw [bitSet_of_words hcount hint] at h
        cases h
        exact ⟨count, words, by rw [← hleft], hint, rfl⟩
      · rw [bitSet_of_out_of_range hcount hrange] at h
        cases h
  · rintro ⟨count, words, h, hcount, rfl⟩
    exact bitSet_of_words h hcount

/-- A set has no more words than it was made from. -/
theorem length_words_ofWords_le (words : List UInt64) :
    (BitSet.ofWords words).words.length ≤ words.length := by
  obtain ⟨n, hn⟩ := BitSet.exists_trim_append words
  have hlen := congrArg List.length hn
  rw [List.length_append] at hlen
  exact Nat.le.intro hlen

theorem length_bitSet (s : BitSet) (hs : s.words.length ≤ maxDeclared) :
    (Encode.bitSet s).length = VarInt.sizeOfNat s.words.length + s.words.length * 8 := by
  have hcount : (Int32.ofNat s.words.length).toUInt32.toNat = s.words.length :=
    toNat_int32_ofNat (Nat.lt_of_le_of_lt hs (by decide))
  rw [Encode.bitSet, List.length_append, VarInt.length_encode32, VarInt.size, hcount,
    Bytes.length_flatMap_ofNat]

/-- **A set is written in no more bytes than it can be read from.** -/
theorem length_bitSet_le {s : BitSet} (h : bitSet src = .ok s rest) :
    ∃ t, src = t ++ rest ∧ (Encode.bitSet s).length ≤ t.length := by
  obtain ⟨count, words, hcount, hint, rfl⟩ := bitSet_eq_ok_iff.mp h
  obtain ⟨d, -, rfl, rfl⟩ := VarInt.decode32_eq_ok_iff.mp hcount
  refine ⟨d.bytes ++ Bytes.ofWords words, by rw [List.append_assoc], ?_⟩
  have hfewer := length_words_ofWords_le words
  have hdeclared : words.length ≤ maxDeclared := by
    have hle := toNat_toInt_le d.int32
    rwa [hint] at hle
  -- the numeral of the count is no narrower than a smaller number is written
  have hnumeral : VarInt.sizeOfNat words.length ≤ d.width := by
    have hsize := VarInt.size_int32_le d
    have hcount : d.int32 = Int32.ofNat words.length := by
      rw [← Int32.toInt_inj, hint, toInt_ofNat_count hdeclared]
    rwa [hcount, VarInt.size, toNat_int32_ofNat (Nat.lt_of_le_of_lt hdeclared (by decide))] at hsize
  rw [length_bitSet _ (Nat.le_trans hfewer hdeclared), List.length_append, Bytes.length_ofWords]
  exact Nat.add_le_add (Nat.le_trans (VarInt.sizeOfNat_mono hfewer) hnumeral)
    (Nat.mul_le_mul_right 8 hfewer)

end Decode

/-! ### Sets of a buffer -/

namespace Buffer

variable {b b' : Buffer}

/-- A count of words that can be there: it is not negative, and the bytes are enough for them. -/
def InRange (count : Int32) (b : Buffer) : Prop :=
  0 ≤ count.toInt ∧ count.toInt.toNat ≤ b.unreadSize / 8

instance (count : Int32) (b : Buffer) : Decidable (InRange count b) :=
  inferInstanceAs (Decidable (_ ∧ _))

/-- What reading a set does with the bytes left in `b`, whatever they are. -/
structure ReadsBitSet (b : Buffer) : Prop where
  /-- A set is read if and only if a count is that is in range. -/
  ok_iff : (∃ v b', read .bitSet b = .ok v b') ↔
    ∃ count b₁, readVarInt32 b = .ok count b₁ ∧ InRange count b₁
  /-- Behind the count it takes the words, and the bits of these are the members. -/
  members : ∀ count b₁, readVarInt32 b = .ok count b₁ → InRange count b₁ →
    ∃ s : BitSet, read .bitSet b =
        .ok (.bitSet s) (b₁.advance (8 * count.toInt.toNat)) ∧
      ∀ i, s.contains i = true ↔ i < 64 * count.toInt.toNat ∧
        (Bytes.wordAt b₁.unread (i / 64)).testBit (i % 64) = true
  /-- A count that is out of range is consumed, and nothing else. -/
  tooLong : ∀ count b₁, readVarInt32 b = .ok count b₁ → ¬ InRange count b₁ →
    read .bitSet b = .error (.bitSetTooLong count.toInt (b₁.unreadSize / 8)) b₁
  /-- Without a count there is no set. -/
  noCount : ∀ e b₁, readVarInt32 b = .error e b₁ → read .bitSet b = .error e b₁

/-- A written set reads back, and there is nothing shorter that reads as the set. -/
structure WritesBitSet (s : BitSet) : Prop where
  appended : ∀ b : Buffer, write ⟨.bitSet, .bitSet s, rfl⟩ b =
    .ok () (b.extend (Encode.bitSet s))
  read_back : ∀ (b : Buffer) (rest : Bytes), b.layout? = none →
    b.unread = Encode.bitSet s ++ rest → read .bitSet b =
      .ok (.bitSet s) (b.advance (Encode.bitSet s).length)
  shortest : ∀ b b' : Buffer, b.layout? = none → read .bitSet b = .ok (.bitSet s) b' →
    ∃ t, b.unread = t ++ b'.unread ∧ (Encode.bitSet s).length ≤ t.length

theorem read_bitSet_run (hl : b.layout? = none) :
    read .bitSet b = Action.ofDecoder (do return .bitSet (← Decode.bitSet)) b := by
  rw [read_of_checkField (checkField_of_none hl), WireType.decode]

theorem read_bitSet_of_ok (hl : b.layout? = none) {s : BitSet} {rest : Bytes}
    (h : Decode.bitSet b.unread = .ok s rest) :
    read .bitSet b = .ok (.bitSet s) (b.leaving rest.length) := by
  rw [read_bitSet_run hl]
  exact Action.ofDecoder_of_ok (bind_of_ok h)

theorem read_bitSet_of_error (hl : b.layout? = none) {e : Fault} {rest : Bytes}
    (h : Decode.bitSet b.unread = .error e rest) :
    read .bitSet b = .error e (b.leaving rest.length) := by
  rw [read_bitSet_run hl]
  exact Action.ofDecoder_of_error (bind_of_error h)

/-- A count is read where the decoder reads one, and the cursor ends up behind it. -/
theorem decode32_of_readVarInt32 (hl : b.layout? = none) {count : Int32}
    (h : readVarInt32 b = .ok count b') : ∃ left, VarInt.decode32 b.unread = .ok count left ∧
      b' = b.leaving left.length ∧ b'.unread = left := by
  rw [readVarInt32, bind_of_ok (checkField_of_none hl), Action.ofDecoder_eq_ok_iff] at h
  obtain ⟨left, hrun, rfl⟩ := h
  obtain ⟨d, -, hs, -⟩ := VarInt.decode32_eq_ok_iff.mp hrun
  exact ⟨left, hrun, rfl, unread_leaving hs⟩

/-- The bits of the words that stand at the front of bytes. -/
theorem hasBit_iff_wordAt (words : List UInt64) (rest : Bytes) (i : Nat) :
    BitSet.hasBit words i = true ↔ i < 64 * words.length ∧
      (Bytes.wordAt (Bytes.ofWords words ++ rest) (i / 64)).testBit (i % 64) = true := by
  by_cases hi : i < 64 * words.length
  · have hlt : i / 64 < words.length := by omega
    rw [Bytes.wordAt_ofWords words rest hlt, BitSet.hasBit, List.getD_eq_getElem _ _ hlt,
      and_iff_right hi]
  · rw [BitSet.hasBit_of_le (by omega)]
    exact iff_of_false Bool.false_ne_true fun h => hi h.1

/-- **What reading a set does**: by the count, and whether that is in range. -/
theorem readsBitSet (hl : b.layout? = none) : ReadsBitSet b := by
  have hmembers : ∀ count b₁, readVarInt32 b = .ok count b₁ → InRange count b₁ →
      ∃ s : BitSet, read .bitSet b =
          .ok (.bitSet s) (b₁.advance (8 * count.toInt.toNat)) ∧
        ∀ i, s.contains i = true ↔ i < 64 * count.toInt.toNat ∧
          (Bytes.wordAt b₁.unread (i / 64)).testBit (i % 64) = true := by
    rintro count b₁ h ⟨hpos, hle⟩
    obtain ⟨left, hrun, rfl, hleft⟩ := decode32_of_readVarInt32 hl h
    rw [← length_unread, hleft] at hle
    obtain ⟨words, hwords, hfront⟩ := Bytes.exists_ofWords (n := count.toInt.toNat) (s := left)
      (by omega)
    have hset := Decode.bitSet_of_words (hfront ▸ hrun) (by omega)
    refine ⟨.ofWords words, ?_, fun i => ?_⟩
    · have hcursor := leaving_of_unread (hleft.trans hfront)
      have hlen : (Bytes.ofWords words).length = 8 * count.toInt.toNat := by
        rw [Bytes.length_ofWords, hwords, Nat.mul_comm]
      rw [leaving_leaving, hlen] at hcursor
      rw [read_bitSet_of_ok hl hset, hcursor]
    · rw [BitSet.contains_ofWords, hleft, hfront, ← hwords]
      exact hasBit_iff_wordAt words _ i
  have htooLong : ∀ count b₁, readVarInt32 b = .ok count b₁ → ¬ InRange count b₁ →
      read .bitSet b = .error (.bitSetTooLong count.toInt (b₁.unreadSize / 8)) b₁ := by
    intro count b₁ h hrange
    obtain ⟨left, hrun, rfl, hleft⟩ := decode32_of_readVarInt32 hl h
    rw [InRange, ← length_unread, hleft] at hrange
    rw [read_bitSet_of_error hl (Decode.bitSet_of_out_of_range hrun hrange), ← length_unread, hleft]
  have hnoCount : ∀ e b₁, readVarInt32 b = .error e b₁ → read .bitSet b = .error e b₁ := by
    intro e b₁ h
    rw [readVarInt32, bind_of_ok (checkField_of_none hl), Action.ofDecoder_eq_error_iff] at h
    obtain ⟨rest, hrun, rfl⟩ := h
    exact read_bitSet_of_error hl (bind_of_error hrun)
  refine ⟨⟨?_, ?_⟩, hmembers, htooLong, hnoCount⟩
  · rintro ⟨v, b', hread⟩
    cases h : readVarInt32 b with
    | error e b₁ =>
      rw [hnoCount e b₁ h] at hread
      cases hread
    | ok count b₁ =>
      by_cases hrange : InRange count b₁
      · exact ⟨count, b₁, rfl, hrange⟩
      · rw [htooLong count b₁ h hrange] at hread
        cases hread
  · rintro ⟨count, b₁, h, hrange⟩
    obtain ⟨s, hread, -⟩ := hmembers count b₁ h hrange
    exact ⟨_, _, hread⟩

theorem writesBitSet {s : BitSet} (hs : s.words.length ≤ maxDeclared) : WritesBitSet s where
  appended _ := rfl
  read_back b rest hl h := by
    rw [read_bitSet_of_ok hl (h ▸ decodes_bitSet hs rest), leaving_of_unread h]
  shortest b b' hl h := by
    rw [read_bitSet_run hl, Action.ofDecoder_eq_ok_iff] at h
    obtain ⟨rest, hrun, rfl⟩ := h
    obtain ⟨set, left, hset, hpure⟩ := bind_eq_ok_iff.mp hrun
    cases hpure
    obtain ⟨t, ht, hle⟩ := Decode.length_bitSet_le hset
    rw [unread_leaving ht]
    exact ⟨t, ht, hle⟩

/-- **Sets on the wire.**  A set is read from any bytes that begin with a count in range, and is the
set of the bits of the words that follow, big-endian, whatever the last of them are; any other count
is refused.  What is written for a set of no more words than a count can declare reads back, and no
bytes that read as the set are fewer. -/
theorem bitSets_on_the_wire :
    (∀ b : Buffer, b.layout? = none → ReadsBitSet b) ∧
      ∀ s : BitSet, s.words.length ≤ 0x7FFFFFFF → WritesBitSet s := by
  refine ⟨fun b hl => ?_, fun s hs => ?_⟩
  · exact readsBitSet hl
  · exact writesBitSet hs

/-- Two words are read, the second of them zero, as a set of one word; the set is written in fewer
bytes. -/
theorem bitSets_on_the_wire_zeros :
    let b := ofBytes [0x82, 0x00, 0, 0, 0, 0, 0, 0, 0, 5, 0, 0, 0, 0, 0, 0, 0, 0, 7]
    (∃ s : BitSet, read .bitSet b = .ok (.bitSet s) (b.advance 18) ∧
      s.contains 2 = true ∧ ¬ s.contains 64 = true) ∧
    ∃ t, b.unread = t ++ unread (b.advance 18) ∧
      (Encode.bitSet (.ofWords [5])).length ≤ t.length := by
  intro b
  have hcount : readVarInt32 b = .ok 2 (b.advance 2) := rfl
  obtain ⟨hreads, hwrites⟩ := bitSets_on_the_wire
  obtain ⟨s, hread, hs⟩ := (hreads b rfl).members _ _ hcount (by decide)
  refine ⟨⟨s, hread, (hs 2).mpr (by decide), ?_⟩, ?_⟩
  · rw [hs 64]
    decide
  · exact (hwrites (.ofWords [5]) (by decide)).shortest _ _ rfl rfl

end Buffer

end Wireform
