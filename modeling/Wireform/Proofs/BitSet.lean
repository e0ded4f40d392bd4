import Wireform.BitSet
import Mathlib.Algebra.Group.Nat.Defs
import Mathlib.Data.List.DropRight
import Mathlib.Data.List.GetD
import Mathlib.Data.List.Induction

/-!
# Bits and members

The members of a set of indices are the bits of its words (`contains_eq`), whatever zero words
follow these.  Two sets with the same members have the same words, because the last word of each has
a bit.  The list of the members, and their number, are those of the bits.
-/

namespace Wireform.BitSet

variable {s t : BitSet} {words : List UInt64} {index i j k : Nat}

/-! ### Bits of a word -/

@[simp] theorem toNat_bit (index : Nat) : (bit index).toNat = 2 ^ (index % 64) := by
  have hlt : index % 64 < 64 := Nat.mod_lt _ (by decide)
  have hpow : 2 ^ (index % 64) < 2 ^ 64 := Nat.pow_lt_pow_right (by decide) hlt
  have hshift : (UInt64.ofNat (index % 64)).toNat = index % 64 :=
    UInt64.toNat_ofNat_of_lt' (Nat.lt_trans hlt (by decide))
  rw [bit, UInt64.toNat_shiftLeft, hshift, Nat.mod_mod, UInt64.toNat_one, Nat.one_shiftLeft,
    Nat.mod_eq_of_lt hpow]

theorem testBit_or_bit (word : UInt64) (index k : Nat) :
    (word ||| bit index).toNat.testBit k = (word.toNat.testBit k || decide (index % 64 = k)) := by
  rw [UInt64.toNat_or, Nat.testBit_or, toNat_bit, Nat.testBit_two_pow]

theorem testBit_and_not_bit (word : UInt64) (index : Nat) (hk : k < 64) :
    (word &&& ~~~ bit index).toNat.testBit k =
      (word.toNat.testBit k && !decide (index % 64 = k)) := by
  have hnot : (~~~ bit index).toNat = UInt64.size - ((bit index).toNat + 1) := by
    rw [UInt64.toNat_not, Nat.sub_sub, Nat.add_comm 1]
  have hsize : UInt64.size = 2 ^ 64 := rfl
  rw [UInt64.toNat_and, Nat.testBit_and, hnot, hsize,
    Nat.testBit_two_pow_sub_succ (bit index).toNat_lt, toNat_bit, Nat.testBit_two_pow,
    decide_eq_true hk, Bool.true_and]

/-- A word has no bits beyond its 64. -/
theorem testBit_of_le (word : UInt64) {j : Nat} (hj : 64 ≤ j) : word.toNat.testBit j = false :=
  Nat.testBit_lt_two_pow
    (Nat.lt_of_lt_of_le word.toNat_lt (Nat.pow_le_pow_right (by decide) hj))

theorem and_bit_ne_zero (word : UInt64) (index : Nat) :
    (word &&& bit index != 0) = word.toNat.testBit (index % 64) := by
  have hand : word &&& bit index = 0 ↔ word.toNat &&& 2 ^ (index % 64) = 0 := by
    rw [← UInt64.toNat_inj, UInt64.toNat_and, toNat_bit, UInt64.toNat_zero]
  cases htest : word.toNat.testBit (index % 64) with
  | true =>
    rw [bne_iff_ne, Ne, hand]
    intro hzero
    have hbit := congrArg (Nat.testBit · (index % 64)) hzero
    simp [htest] at hbit
  | false =>
    rw [bne_eq_false_iff_eq, hand]
    apply Nat.eq_of_testBit_eq
    intro k
    by_cases hk : index % 64 = k
    · simp [← hk, htest]
    · simp [hk]

/-! ### Bits of words -/

/-- Bit `i % 64` of word `i / 64`, where no word is as good as zero. -/
def hasBit (words : List UInt64) (i : Nat) : Bool := (words.getD (i / 64) 0).toNat.testBit (i % 64)

/-- Bit number `j` of word number `n`. -/
theorem hasBit_at (words : List UInt64) (n : Nat) {j : Nat} (hj : j < 64) :
    hasBit words (n * 64 + j) = (words.getD n 0).toNat.testBit j := by
  have hword : (n * 64 + j) / 64 = n := by omega
  have hbit : (n * 64 + j) % 64 = j := by omega
  rw [hasBit, hword, hbit]

theorem hasBit_of_le (h : words.length * 64 ≤ i) : hasBit words i = false := by
  have hlen : words.length ≤ i / 64 := (Nat.le_div_iff_mul_le (by decide)).mpr h
  rw [hasBit, List.getD_eq_default _ _ hlen, UInt64.toNat_zero, Nat.zero_testBit]

theorem contains_eq (s : BitSet) (i : Nat) : s.contains i = hasBit s.words i := by
  rw [contains, hasBit, List.getD_eq_getElem?_getD]
  cases s.words[i / 64]? with
  | none => simp
  | some word => exact and_bit_ne_zero word i

/-- Zero words at the end have no bits. -/
@[simp] theorem hasBit_append_zeros (words : List UInt64) (n i : Nat) :
    hasBit (words ++ List.replicate n 0) i = hasBit words i := by
  simp only [hasBit, List.getD_eq_getElem?_getD, List.getElem?_append]
  by_cases hi : i / 64 < words.length
  · rw [if_pos hi]
  · rw [if_neg hi, List.getElem?_eq_none (Nat.le_of_not_lt hi), List.getElem?_replicate]
    split <;> rfl

/-- What `trim` drops are zeros. -/
theorem exists_trim_append (words : List UInt64) :
    ∃ n, trim words ++ List.replicate n 0 = words := by
  have hsplit : trim words ++ words.rtakeWhile (· == 0) = words :=
    List.rdropWhile_append_rtakeWhile
  have hzeros : ∀ w ∈ words.rtakeWhile (· == 0), w = 0 := by
    intro w hw
    have hzero := List.mem_rtakeWhile_imp (p := (· == 0)) hw
    exact eq_of_beq hzero
  refine ⟨(words.rtakeWhile (· == 0)).length, ?_⟩
  rw [← List.eq_replicate_of_mem hzeros, hsplit]

@[simp]
theorem hasBit_trim (words : List UInt64) (i : Nat) : hasBit (trim words) i = hasBit words i := by
  obtain ⟨n, hn⟩ := exists_trim_append words
  rw [← hasBit_append_zeros (trim words) n, hn]

theorem hasBit_rightpad (words : List UInt64) (n i : Nat) :
    hasBit (words.rightpad n 0) i = hasBit words i := hasBit_append_zeros words _ i

/-- A change of one word changes the bits of that word. -/
theorem hasBit_modify (words : List UInt64) (n : Nat) (f : UInt64 → UInt64) (i : Nat) :
    hasBit (words.modify n f) i =
      if n = i / 64 ∧ n < words.length then (f (words.getD n 0)).toNat.testBit (i % 64)
      else hasBit words i := by
  simp only [hasBit, List.getD_eq_getElem?_getD, List.getElem?_modify]
  by_cases hn : n = i / 64
  · subst hn
    by_cases hlt : i / 64 < words.length
    · simp [hlt]
    · simp [hlt]
  · simp [hn]

/-! ### Members -/

@[simp, grind =] theorem contains_ofWords (words : List UInt64) (i : Nat) :
    (ofWords words).contains i = hasBit words i := by
  simp [contains_eq, ofWords]

@[simp, grind =] theorem contains_empty (i : Nat) : empty.contains i = false := rfl

/-- Two indices are the same bit of the same word if they are the same. -/
theorem eq_iff_word_and_bit : i = j ↔ i / 64 = j / 64 ∧ i % 64 = j % 64 := by
  omega

/-- **Putting an index in** makes it a member and leaves the others as they were. -/
@[simp, grind =] theorem contains_insert (s : BitSet) (index i : Nat) :
    (s.insert index).contains i = (decide (i = index) || s.contains i) := by
  have hlen : index / 64 < (s.words.rightpad (index / 64 + 1) 0).length := by
    simp only [List.rightpad, List.length_append, List.length_replicate]
    omega
  rw [contains_eq, contains_eq, insert, hasBit_modify, ← hasBit_rightpad s.words (index / 64 + 1)]
  by_cases hword : index / 64 = i / 64
  · rw [if_pos ⟨hword, hlen⟩, testBit_or_bit, hasBit, hword, Bool.or_comm]
    congr 1
    rw [decide_eq_decide, eq_iff_word_and_bit]
    omega
  · have hne : i ≠ index := fun h => hword (congrArg (· / 64) h.symm)
    rw [if_neg fun h => hword h.1, decide_eq_false hne, Bool.false_or]

/-- **Taking an index out** makes it no member and leaves the others as they were. -/
@[simp, grind =] theorem contains_erase (s : BitSet) (index i : Nat) :
    (s.erase index).contains i = (!decide (i = index) && s.contains i) := by
  have hwords : (s.erase index).contains i =
      hasBit (s.words.modify (index / 64) (· &&& ~~~ bit index)) i := by
    by_cases hlast : index / 64 + 1 = s.words.length
    · simp [erase, dif_pos hlast]
    · simp only [erase, dif_neg hlast, contains_eq]
  rw [hwords, contains_eq, hasBit_modify]
  by_cases hword : index / 64 = i / 64 ∧ index / 64 < s.words.length
  · rw [if_pos hword, testBit_and_not_bit _ _ (Nat.mod_lt _ (by decide)), hasBit, hword.1,
      Bool.and_comm]
    congr 2
    rw [decide_eq_decide, eq_iff_word_and_bit]
    omega
  · rw [if_neg hword]
    by_cases hi : i = index
    · have hle : s.words.length * 64 ≤ i := by omega
      rw [hasBit_of_le hle, Bool.and_false]
    · rw [decide_eq_false hi, Bool.not_false, Bool.true_and]

@[simp, grind =] theorem contains_ofList (indices : List Nat) (i : Nat) :
    (ofList indices).contains i = decide (i ∈ indices) := by
  suffices hfold : ∀ s : BitSet, (indices.foldl insert s).contains i =
      (decide (i ∈ indices) || s.contains i) by
    simp [ofList, hfold]
  induction indices with
  | nil => simp
  | cons index rest ih =>
    intro s
    rw [List.foldl_cons, ih, contains_insert, ← Bool.or_assoc]
    congr 1
    simp [Bool.or_comm]

/-! ### Equal members, equal words -/

/-- The last word has a bit. -/
theorem exists_contains_of_last (h : k + 1 = s.words.length) :
    ∃ j < 64, s.contains (k * 64 + j) = true := by
  have hk : k < s.words.length := by omega
  have hne : s.words[k] ≠ 0 := by
    intro hzero
    apply s.trimmed
    rw [List.getLast?_eq_getElem?, ← h, Nat.add_sub_cancel, List.getElem?_eq_getElem hk, hzero]
  have hnat : s.words[k].toNat ≠ 0 := fun h => hne (UInt64.toNat_inj.mp h)
  obtain ⟨j, hj⟩ := Nat.exists_testBit_of_ne_zero hnat
  have hlt : j < 64 := by
    by_contra hge
    rw [testBit_of_le _ (Nat.le_of_not_lt hge)] at hj
    cases hj
  refine ⟨j, hlt, ?_⟩
  rw [contains_eq, hasBit_at _ _ hlt, List.getD_eq_getElem _ _ hk, hj]

/-- A set with no more members than another has no more words. -/
theorem length_words_le (h : ∀ i, s.contains i = true → t.contains i = true) :
    s.words.length ≤ t.words.length := by
  by_contra hlt
  obtain ⟨k, hk⟩ : ∃ k, k + 1 = s.words.length := ⟨s.words.length - 1, by omega⟩
  obtain ⟨j, hj, hmem⟩ := exists_contains_of_last hk
  have hmem' := h _ hmem
  rw [contains_eq, hasBit_of_le (by omega)] at hmem'
  cases hmem'

/-- **Sets with the same members are the same**, word by word. -/
theorem eq_iff_contains : s = t ↔ ∀ i, s.contains i = t.contains i := by
  constructor
  · rintro rfl i
    rfl
  · intro h
    have hlen : s.words.length = t.words.length :=
      Nat.le_antisymm (length_words_le fun i hi => h i ▸ hi) (length_words_le fun i hi => h i ▸ hi)
    have hwords : s.words = t.words := by
      apply List.ext_getElem hlen
      intro n hs ht
      rw [← UInt64.toNat_inj]
      apply Nat.eq_of_testBit_eq
      intro j
      by_cases hj : j < 64
      · have hmem := h (n * 64 + j)
        rwa [contains_eq, contains_eq, hasBit_at _ _ hj, hasBit_at _ _ hj,
          List.getD_eq_getElem _ _ hs, List.getD_eq_getElem _ _ ht] at hmem
      · rw [testBit_of_le _ (Nat.le_of_not_lt hj), testBit_of_le _ (Nat.le_of_not_lt hj)]
    cases s
    cases t
    cases hwords
    rfl

@[simp] theorem isEmpty_iff : s.isEmpty = true ↔ ∀ i, s.contains i = false := by
  have hempty : s.isEmpty = true ↔ s = empty := by
    rw [isEmpty, List.isEmpty_iff]
    constructor
    · intro h
      cases s
      cases h
      rfl
    · rintro rfl
      rfl
  rw [hempty, eq_iff_contains]
  simp

/-! ### The list of the members -/

theorem wordMembers_eq (word : UInt64) (n : Nat) :
    wordMembers word n =
      ((List.range 64).filter fun j => word.toNat.testBit j).map (n * 64 + ·) := by
  have hbit : ∀ j ∈ List.range 64, (if word &&& bit j != 0 then some (n * 64 + j) else none) =
      if word.toNat.testBit j then some (n * 64 + j) else none := by
    intro j hj
    rw [and_bit_ne_zero, Nat.mod_eq_of_lt (List.mem_range.mp hj)]
  rw [wordMembers]
  split_ifs with hzero
  · simp [hzero]
  · rw [List.filterMap_congr hbit, ← List.filterMap_eq_filter, List.map_filterMap]
    congr 1
    funext j
    by_cases h : word.toNat.testBit j = true <;> simp [h, Option.guard]

/-- The bits of words, ascending. -/
def wordsMembers (words : List UInt64) : List Nat :=
  words.zipIdx.flatMap fun (word, n) => wordMembers word n

theorem wordsMembers_concat (words : List UInt64) (word : UInt64) :
    wordsMembers (words ++ [word]) = wordsMembers words ++ wordMembers word words.length := by
  rw [wordsMembers, List.zipIdx_append, List.flatMap_append, List.zipIdx_singleton,
    List.flatMap_singleton, Nat.zero_add, wordsMembers]

theorem wordsMembers_eq (words : List UInt64) :
    wordsMembers words = (List.range (words.length * 64)).filter (hasBit words) := by
  induction words using List.reverseRecOn with
  | nil => rfl
  | append_singleton front word ih =>
    have hfront : ∀ i ∈ List.range (front.length * 64),
        hasBit front i = hasBit (front ++ [word]) i := by
      intro i hi
      have hlt : i / 64 < front.length := by
        rw [List.mem_range] at hi
        omega
      rw [hasBit, hasBit, List.getD_append _ _ _ _ hlt]
    have hlast : ∀ j ∈ List.range 64,
        word.toNat.testBit j = hasBit (front ++ [word]) (front.length * 64 + j) := by
      intro j hj
      rw [hasBit_at _ _ (List.mem_range.mp hj)]
      simp
    rw [wordsMembers_concat, ih, List.length_append, List.length_singleton, Nat.add_mul,
      Nat.one_mul, List.range_add, List.filter_append, List.filter_congr hfront, List.filter_map,
      wordMembers_eq, List.filter_congr hlast]
    rfl

/-- **The members in order** are the bits in order. -/
theorem toList_eq (s : BitSet) :
    s.toList = (List.range (s.words.length * 64)).filter s.contains := by
  have hcontains : s.contains = hasBit s.words := funext (contains_eq s)
  rw [hcontains]
  exact wordsMembers_eq s.words

theorem lt_of_contains (h : s.contains i = true) : i < s.words.length * 64 := by
  by_contra hge
  rw [contains_eq, hasBit_of_le (Nat.le_of_not_lt hge)] at h
  cases h

@[simp, grind =] theorem mem_toList : i ∈ s.toList ↔ s.contains i = true := by
  rw [toList_eq, List.mem_filter, List.mem_range]
  exact ⟨fun h => h.2, fun h => ⟨lt_of_contains h, h⟩⟩

theorem pairwise_toList (s : BitSet) : s.toList.Pairwise (· < ·) := by
  rw [toList_eq]
  exact List.pairwise_lt_range.filter _

/-! ### The number of the members -/

/-- The ones of a number are its bits. -/
theorem ones_eq {n : Nat} (h : n < 2 ^ k) : ones n = ((List.range k).filter n.testBit).length := by
  induction k generalizing n with
  | zero =>
    have hn : n = 0 := by omega
    rw [hn, ones, if_pos rfl]
    rfl
  | succ k ih =>
    have hhalf : n / 2 < 2 ^ k := by
      rw [Nat.pow_succ] at h
      omega
    have hones : ones n = n % 2 + ones (n / 2) := by
      rw [ones]
      split_ifs with hn
      · simp [hn, ones]
      · rfl
    have htail : (n.testBit ∘ Nat.succ) = (n / 2).testBit := by
      funext j
      exact Nat.testBit_succ n j
    rw [hones, ih hhalf, List.range_succ_eq_map, List.filter_cons, List.filter_map, htail,
      Nat.testBit_zero]
    rcases Nat.mod_two_eq_zero_or_one n with hn | hn <;> simp [hn]
    omega

/-- **The number of the members** is the length of their list. -/
theorem size_eq (s : BitSet) : s.size = s.toList.length := by
  suffices hwords : ∀ words : List UInt64,
      words.foldl (fun n word => n + ones word.toNat) 0 = (wordsMembers words).length from
    hwords s.words
  intro words
  induction words using List.reverseRecOn with
  | nil => rfl
  | append_singleton front word ih =>
    rw [List.foldl_append, ih, wordsMembers_concat, List.length_append, wordMembers_eq,
      List.length_map]
    exact congrArg _ (ones_eq word.toNat_lt)

end Wireform.BitSet
