import Wireform.VarInt
import Wireform.Proofs.Decoder
import Mathlib.Algebra.Group.Nat.Defs

/-!
# Numerals

A variable-length integer as it stands on the wire, in the shortest form or a longer one: groups of
seven bits, lowest first, all but the last of them continued.  Any bytes begin with a numeral of at
most `most` bytes, or end before it does, or are continued for `most` bytes (`numeral_cases`), and
the reader does one thing in each case.
-/

namespace Wireform.VarInt

/-- A number in groups, each of which but the last has its highest bit set. -/
inductive Numeral where
  | last (b : UInt8) (h : b < 128)
  | more (b : UInt8) (h : ¬ b < 128) (rest : Numeral)

namespace Numeral

@[simp] def bytes : Numeral → Bytes
  | last b _ => [b]
  | more b _ rest => b :: rest.bytes

/-- The number of bytes. -/
def width (d : Numeral) : Nat := d.bytes.length

theorem width_pos (d : Numeral) : 0 < d.width := by
  cases d <;> exact Nat.zero_lt_succ _

/-- The number of which the groups are the digits to base 128. -/
@[simp] def value : Numeral → Nat
  | last b _ => b.toNat
  | more b _ rest => b.toNat % 128 + rest.value * 128

/-- The 32 bits that a reader keeps of the number. -/
def int32 (d : Numeral) : Int32 := Int32.ofNat d.value

end Numeral

/-- Every byte has its highest bit set. -/
def Continued (s : Bytes) : Prop := ∀ b ∈ s, ¬ b < 128

@[simp] theorem continued_cons {b : UInt8} {s : Bytes} :
    Continued (b :: s) ↔ ¬ b < 128 ∧ Continued s := List.forall_mem_cons

/-- **What bytes begin with**: a numeral of at most `most` bytes, the beginning of one, or `most`
bytes in which none ends. -/
theorem numeral_cases : ∀ (most : Nat) (s : Bytes),
    (∃ (d : Numeral) (rest : Bytes), d.width ≤ most ∧ s = d.bytes ++ rest) ∨
      (s.length < most ∧ Continued s) ∨
      ∃ front rest : Bytes, front.length = most ∧ Continued front ∧ s = front ++ rest
  | 0, s => .inr (.inr ⟨[], s, rfl, nofun, rfl⟩)
  | most + 1, [] => .inr (.inl ⟨Nat.zero_lt_succ most, nofun⟩)
  | most + 1, b :: s => by
    by_cases hb : b < 128
    · exact .inl ⟨.last b hb, s, Nat.succ_le_succ (Nat.zero_le most), rfl⟩
    · rcases numeral_cases most s with ⟨d, rest, hd, rfl⟩ | ⟨hlt, hs⟩ | ⟨front, rest, hlen, hs, rfl⟩
      · exact .inl ⟨.more b hb d, rest, Nat.succ_le_succ hd, rfl⟩
      · exact .inr (.inl ⟨Nat.succ_lt_succ hlt, continued_cons.mpr ⟨hb, hs⟩⟩)
      · have hfront := continued_cons.mpr ⟨hb, hs⟩
        exact .inr (.inr ⟨b :: front, rest, congrArg Nat.succ hlen, hfront, rfl⟩)

/-! ### The reader on groups -/

variable {tooBig : Fault} {width : Nat} {s front : Bytes}

/-- One group: the low seven bits count, and the highest bit says whether more follow. -/
theorem groups_cons (tooBig : Fault) (width scale sum : Nat) (b : UInt8) (rest : Bytes) :
    groups tooBig (width + 1) scale sum (b :: rest) =
      if b < 128 then .ok (sum + b.toNat % 128 * scale) rest
      else groups tooBig width (scale * 128) (sum + b.toNat % 128 * scale) rest := by
  rw [groups, bind_of_ok (Decoder.byte_cons b rest)]
  split <;> rfl

@[simp] theorem groups_nil (tooBig : Fault) (width scale sum : Nat) :
    groups tooBig (width + 1) scale sum [] = .error (.underflow 1 0) [] := rfl

/-- The low group and the groups above it make up the number. -/
theorem sum_group (low high scale sum : Nat) :
    sum + low * scale + high * (scale * 128) = sum + (low + high * 128) * scale := by
  rw [Nat.add_mul, Nat.mul_comm scale 128, Nat.mul_assoc, Nat.add_assoc]

/-- **A numeral is read**, on top of what the groups before it gave. -/
theorem decodes_numeral (tooBig : Fault) (d : Numeral) : ∀ {width : Nat} (scale sum : Nat),
    d.width ≤ width → Decodes (groups tooBig width scale sum) d.bytes (sum + d.value * scale) := by
  induction d with
  | last b hb =>
    intro width scale sum hd rest
    obtain ⟨width, rfl⟩ := Nat.exists_eq_succ_of_ne_zero (Nat.ne_of_gt hd)
    have hlt : b.toNat < 128 := UInt8.lt_iff_toNat_lt.mp hb
    show groups tooBig (width + 1) scale sum (b :: rest) = .ok (sum + b.toNat * scale) rest
    rw [groups_cons, if_pos hb, Nat.mod_eq_of_lt hlt]
  | more b hb d ih =>
    intro width scale sum hd rest
    obtain ⟨width, rfl⟩ := Nat.exists_eq_succ_of_ne_zero (Nat.ne_of_gt (Nat.zero_lt_of_lt hd))
    show groups tooBig (width + 1) scale sum (b :: (d.bytes ++ rest)) =
      .ok (sum + (b.toNat % 128 + d.value * 128) * scale) rest
    rw [groups_cons, if_neg hb, ih _ _ (Nat.le_of_succ_le_succ hd) rest, sum_group]

/-- The bytes end within a numeral. -/
theorem groups_of_short : ∀ {width : Nat} {s : Bytes} (scale sum : Nat), s.length < width →
    Continued s → groups tooBig width scale sum s = .error (.underflow 1 0) []
  | width + 1, [], scale, sum, _, _ => groups_nil tooBig width scale sum
  | width + 1, b :: s, scale, sum, hlt, hs => by
    obtain ⟨hb, hs⟩ := continued_cons.mp hs
    rw [groups_cons, if_neg hb]
    exact groups_of_short _ _ (Nat.lt_of_succ_lt_succ hlt) hs

/-- No numeral ends within the bytes allowed. -/
theorem groups_of_long : ∀ {width : Nat} {front : Bytes} (scale sum : Nat) (rest : Bytes),
    front.length = width → Continued front →
      groups tooBig width scale sum (front ++ rest) = .error tooBig rest
  | 0, [], _, _, _, _, _ => rfl
  | width + 1, b :: front, scale, sum, rest, hlen, hs => by
    obtain ⟨hb, hs⟩ := continued_cons.mp hs
    rw [List.cons_append, groups_cons, if_neg hb]
    exact groups_of_long _ _ rest (Nat.succ.inj hlen) hs

/-! ### Readers of numbers -/

/-- Reads a number of at most `width` bytes, of which `keep` keeps what fits. -/
def reader (tooBig : Fault) (width : Nat) (keep : Nat → α) : Decoder α := do
  return keep (← groups tooBig width 1 0)

theorem decode32_eq_reader : decode32 = reader .malformedVarInt maxWidth32 Int32.ofNat := rfl

theorem decode64_eq_reader : decode64 = reader .malformedVarLong maxWidth64 Int64.ofNat := rfl

section Reader

variable {keep : Nat → α} {d : Numeral}

theorem decodes_reader (h : d.width ≤ width) :
    Decodes (reader tooBig width keep) d.bytes (keep d.value) := by
  have hd := (decodes_numeral tooBig d 1 0 h).map (f := keep)
  rwa [Nat.zero_add, Nat.mul_one] at hd

theorem reader_of_short (hlt : s.length < width) (hs : Continued s) :
    reader tooBig width keep s = .error (.underflow 1 0) [] :=
  bind_of_error (groups_of_short 1 0 hlt hs)

theorem reader_of_long (hlen : front.length = width) (hs : Continued front) (rest : Bytes) :
    reader tooBig width keep (front ++ rest) = .error tooBig rest :=
  bind_of_error (groups_of_long 1 0 rest hlen hs)

theorem reader_map (g : α → β) :
    (do return g (← reader tooBig width keep)) = reader tooBig width fun n => g (keep n) := by
  simp only [reader, bind_assoc, pure_bind]

/-- **What numbers are read from**: a numeral of no more bytes than allowed. -/
theorem reader_eq_ok_iff {v : α} {rest : Bytes} :
    reader tooBig width keep s = .ok v rest ↔
      ∃ d : Numeral, d.width ≤ width ∧ s = d.bytes ++ rest ∧ keep d.value = v := by
  constructor
  · intro h
    rcases numeral_cases width s with ⟨d, tail, hd, rfl⟩ | ⟨hlt, hs⟩ | ⟨front, tail, hlen, hs, rfl⟩
    · rw [decodes_reader hd tail] at h
      cases h
      exact ⟨d, hd, rfl, rfl⟩
    · rw [reader_of_short hlt hs] at h
      cases h
    · rw [reader_of_long hlen hs] at h
      cases h
  · rintro ⟨d, hd, rfl, rfl⟩
    exact decodes_reader hd rest

end Reader

/-! ### 32 bits -/

theorem decodes_int32 {d : Numeral} (h : d.width ≤ maxWidth32) :
    Decodes decode32 d.bytes d.int32 := decodes_reader h

/-- Why no 32-bit number can be read: the bytes end within it, or five of them are continued. -/
inductive Unreadable : Bytes → Fault → Prop where
  | short {s : Bytes} (h : s.length < maxWidth32) (hs : Continued s) :
    Unreadable s (.underflow 1 0)
  | long {front : Bytes} (h : front.length = maxWidth32) (hs : Continued front) (rest : Bytes) :
    Unreadable (front ++ rest) .malformedVarInt

theorem Unreadable.decode32_eq {e : Fault} (h : Unreadable s e) :
    ∃ left, decode32 s = .error e left := by
  cases h with
  | short hlt hs => exact ⟨_, reader_of_short hlt hs⟩
  | long hlen hs rest => exact ⟨_, reader_of_long hlen hs rest⟩

/-- **What 32-bit numbers are read from**: a numeral of up to five bytes, or nothing. -/
theorem decode32_cases (s : Bytes) :
    (∃ (d : Numeral) (rest : Bytes), d.width ≤ maxWidth32 ∧ s = d.bytes ++ rest) ∨
      ∃ e, Unreadable s e := by
  rcases numeral_cases maxWidth32 s with hd | ⟨hlt, hs⟩ | ⟨front, rest, hlen, hs, rfl⟩
  · exact .inl hd
  · exact .inr ⟨_, .short hlt hs⟩
  · exact .inr ⟨_, .long hlen hs rest⟩

theorem decode32_eq_ok_iff {v : Int32} {rest : Bytes} :
    decode32 s = .ok v rest ↔
      ∃ d : Numeral, d.width ≤ maxWidth32 ∧ s = d.bytes ++ rest ∧ d.int32 = v := reader_eq_ok_iff

/-! ### The shortest form -/

theorem ofNat_of_lt {n : Nat} (h : n < 128) : ofNat n = [UInt8.ofNat n] := by
  rw [ofNat, if_pos (by omega)]

theorem ofNat_of_le {n : Nat} (h : 128 ≤ n) :
    ofNat n = UInt8.ofNat (n % 128 + 128) :: ofNat (n / 128) := by
  rw [ofNat, if_neg (by omega)]

theorem sizeOfNat_of_lt {n : Nat} (h : n < 128) : sizeOfNat n = 1 := by
  rw [sizeOfNat, if_pos h]

theorem sizeOfNat_of_le {n : Nat} (h : 128 ≤ n) : sizeOfNat n = sizeOfNat (n / 128) + 1 := by
  rw [sizeOfNat, if_neg (Nat.not_lt_of_le h)]

/-- Every number is written as a numeral. -/
theorem exists_numeral (n : Nat) : ∃ d : Numeral, d.bytes = ofNat n ∧ d.value = n := by
  induction n using Nat.strongRecOn with
  | _ n ih =>
    rcases Nat.lt_or_ge n 128 with hlt | hge
    · have hb : (UInt8.ofNat n).toNat = n := by
        rw [UInt8.toNat_ofNat']
        omega
      refine ⟨.last (UInt8.ofNat n) ?_, (ofNat_of_lt hlt).symm, hb⟩
      rw [UInt8.lt_iff_toNat_lt, hb]
      exact hlt
    · have hb : (UInt8.ofNat (n % 128 + 128)).toNat = n % 128 + 128 := by
        rw [UInt8.toNat_ofNat']
        omega
      obtain ⟨d, hbytes, hvalue⟩ := ih (n / 128) (by omega)
      refine ⟨.more (UInt8.ofNat (n % 128 + 128)) ?_ d, ?_, ?_⟩
      · rw [UInt8.lt_iff_toNat_lt, hb]
        exact Nat.not_lt_of_le (Nat.le_add_left 128 _)
      · rw [ofNat_of_le hge, ← hbytes]
        rfl
      · rw [Numeral.value, hb, hvalue]
        omega

@[simp, grind =] theorem length_ofNat (n : Nat) : (ofNat n).length = sizeOfNat n := by
  induction n using Nat.strongRecOn with
  | _ n ih =>
    rcases Nat.lt_or_ge n 128 with hlt | hge
    · rw [ofNat_of_lt hlt, sizeOfNat_of_lt hlt]
      rfl
    · rw [ofNat_of_le hge, sizeOfNat_of_le hge, List.length_cons, ih (n / 128) (by omega)]

theorem sizeOfNat_le_of_lt {most : Nat} : ∀ {n : Nat}, n < 128 ^ (most + 1) →
    sizeOfNat n ≤ most + 1 := by
  induction most with
  | zero =>
    intro n h
    exact Nat.le_of_eq (sizeOfNat_of_lt h)
  | succ most ih =>
    intro n h
    rcases Nat.lt_or_ge n 128 with hlt | hge
    · rw [sizeOfNat_of_lt hlt]
      exact Nat.succ_le_succ (Nat.zero_le _)
    · have hdiv : n / 128 < 128 ^ (most + 1) := by
        rw [Nat.div_lt_iff_lt_mul (by decide), ← Nat.pow_succ]
        exact h
      rw [sizeOfNat_of_le hge]
      exact Nat.succ_le_succ (ih hdiv)

/-- A number below `128 ^ (most + 1)` is written as a numeral of at most `most + 1` bytes. -/
theorem exists_numeral_of_lt {most n : Nat} (h : n < 128 ^ (most + 1)) :
    ∃ d : Numeral, d.width ≤ most + 1 ∧ d.bytes = ofNat n ∧ d.value = n := by
  obtain ⟨d, hbytes, hvalue⟩ := exists_numeral n
  refine ⟨d, ?_, hbytes, hvalue⟩
  rw [Numeral.width, hbytes, length_ofNat]
  exact sizeOfNat_le_of_lt h

/-- A larger number does not take fewer bytes. -/
theorem sizeOfNat_mono {m n : Nat} (h : m ≤ n) : sizeOfNat m ≤ sizeOfNat n := by
  induction n using Nat.strongRecOn generalizing m with
  | _ n ih =>
    rcases Nat.lt_or_ge m 128 with hlt | hge
    · rw [sizeOfNat_of_lt hlt, sizeOfNat]
      split <;> omega
    · rw [sizeOfNat_of_le hge, sizeOfNat_of_le (Nat.le_trans hge h)]
      exact Nat.succ_le_succ (ih (n / 128) (by omega) (Nat.div_le_div_right h))

/-- **No numeral is shorter** than its number is written. -/
theorem sizeOfNat_value_le (d : Numeral) : sizeOfNat d.value ≤ d.width := by
  induction d with
  | last b hb =>
    rw [Numeral.value, sizeOfNat_of_lt (UInt8.lt_iff_toNat_lt.mp hb)]
    exact Nat.le_refl 1
  | more b hb d ih =>
    show sizeOfNat (b.toNat % 128 + d.value * 128) ≤ d.width + 1
    rw [sizeOfNat]
    split
    · exact Nat.succ_le_succ (Nat.zero_le _)
    · have hdiv : (b.toNat % 128 + d.value * 128) / 128 = d.value := by omega
      rw [hdiv]
      exact Nat.succ_le_succ ih

end Wireform.VarInt
