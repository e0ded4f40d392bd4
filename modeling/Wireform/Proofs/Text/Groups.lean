import Wireform.Proofs.Text.ModifiedUtf8
import Mathlib.Data.FinEnum

/-!
# Groups of modified UTF-8

A unit may be written in one, two or three bytes, also in more than it needs.  The reader accepts
bytes exactly if they are such groups in a row, and answers their units.  Only the unit zero in one
byte takes more bytes when it is written again.
-/

namespace Wireform.ModifiedUtf8

/-- A unit as it may be written. -/
inductive Group where
  | one (b : UInt8) (h : b ≤ 0x7F)
  | two (b₁ b₂ : UInt8) (h₁ : 0xC0 ≤ b₁ ∧ b₁ ≤ 0xDF) (h₂ : 0x80 ≤ b₂ ∧ b₂ ≤ 0xBF)
  | three (b₁ b₂ b₃ : UInt8) (h₁ : 0xE0 ≤ b₁ ∧ b₁ ≤ 0xEF) (h₂ : 0x80 ≤ b₂ ∧ b₂ ≤ 0xBF)
    (h₃ : 0x80 ≤ b₃ ∧ b₃ ≤ 0xBF)

namespace Group

def bytes : Group → Bytes
  | one b _ => [b]
  | two b₁ b₂ _ _ => [b₁, b₂]
  | three b₁ b₂ b₃ _ _ _ => [b₁, b₂, b₃]

/-- The unit: what the first byte holds above its mark, and six bits of each byte behind it. -/
def unit : Group → UInt16
  | one b _ => UInt16.ofNat b.toNat
  | two b₁ b₂ _ _ => UInt16.ofNat ((b₁.toNat - 0xC0) * 64 + (b₂.toNat - 0x80))
  | three b₁ b₂ b₃ _ _ _ =>
    UInt16.ofNat ((b₁.toNat - 0xE0) * 4096 + (b₂.toNat - 0x80) * 64 + (b₃.toNat - 0x80))

end Group

/-! ### Bytes by their ranges -/

theorem head_one_iff : ∀ b : UInt8, b < 0x80 ↔ b ≤ 0x7F := by decide +kernel

theorem head_two_iff : ∀ b : UInt8, (b &&& 0xE0 == 0xC0) = true ↔ 0xC0 ≤ b ∧ b ≤ 0xDF := by
  decide +kernel

theorem head_three_iff : ∀ b : UInt8, (b &&& 0xF0 == 0xE0) = true ↔ 0xE0 ≤ b ∧ b ≤ 0xEF := by
  decide +kernel

theorem isTail_iff : ∀ b : UInt8, isTail b = true ↔ 0x80 ≤ b ∧ b ≤ 0xBF := by decide +kernel

theorem headBits_two : ∀ b : UInt8, 0xC0 ≤ b ∧ b ≤ 0xDF →
    (b &&& 0x1F).toUInt16 = UInt16.ofNat (b.toNat - 0xC0) := by
  decide +kernel

theorem headBits_three : ∀ b : UInt8, 0xE0 ≤ b ∧ b ≤ 0xEF →
    (b &&& 0x0F).toUInt16 = UInt16.ofNat (b.toNat - 0xE0) := by
  decide +kernel

theorem tailBits_eq : ∀ b : UInt8, 0x80 ≤ b ∧ b ≤ 0xBF →
    tailBits b = UInt16.ofNat (b.toNat - 0x80) := by
  decide +kernel

theorem toNat_within {low high b : UInt8} (h : low ≤ b ∧ b ≤ high) :
    low.toNat ≤ b.toNat ∧ b.toNat ≤ high.toNat := by
  simpa only [UInt8.le_iff_toNat_le] using h

/-! ### Reading groups -/

section Reading

variable {offset : Nat} {acc us : List UInt16} {rest : Bytes}

theorem unitsLoop_two {b₁ b₂ : UInt8} (h₁ : 0xC0 ≤ b₁ ∧ b₁ ≤ 0xDF) (h₂ : 0x80 ≤ b₂ ∧ b₂ ≤ 0xBF) :
    unitsLoop offset acc (b₁ :: b₂ :: rest) =
      unitsLoop (offset + 2) ((Group.two b₁ b₂ h₁ h₂).unit :: acc) rest := by
  have hb₁ := toNat_within h₁
  have hb₂ := toNat_within h₂
  simp only [UInt8.reduceToNat] at hb₁ hb₂
  have hone : ¬ b₁ < 0x80 := by
    simp only [UInt8.lt_iff_toNat_lt, UInt8.reduceToNat]
    omega
  have hunit : (b₁ &&& 0x1F).toUInt16 <<< 6 ||| tailBits b₂ = (Group.two b₁ b₂ h₁ h₂).unit := by
    rw [headBits_two b₁ h₁, tailBits_eq b₂ h₂, shiftLeft_or (by omega) (by omega), Group.unit]
  rw [unitsLoop, if_neg hone, if_pos ((head_two_iff b₁).mpr h₁)]
  simp only [(isTail_iff b₂).mpr h₂, hunit, if_true]

theorem unitsLoop_three {b₁ b₂ b₃ : UInt8} (h₁ : 0xE0 ≤ b₁ ∧ b₁ ≤ 0xEF)
    (h₂ : 0x80 ≤ b₂ ∧ b₂ ≤ 0xBF) (h₃ : 0x80 ≤ b₃ ∧ b₃ ≤ 0xBF) :
    unitsLoop offset acc (b₁ :: b₂ :: b₃ :: rest) =
      unitsLoop (offset + 3) ((Group.three b₁ b₂ b₃ h₁ h₂ h₃).unit :: acc) rest := by
  have hb₁ := toNat_within h₁
  have hb₂ := toNat_within h₂
  have hb₃ := toNat_within h₃
  simp only [UInt8.reduceToNat] at hb₁ hb₂ hb₃
  have hone : ¬ b₁ < 0x80 := by
    simp only [UInt8.lt_iff_toNat_lt, UInt8.reduceToNat]
    omega
  have htwo : ¬ (b₁ &&& 0xE0 == 0xC0) = true := by
    simp only [head_two_iff, UInt8.le_iff_toNat_le, UInt8.reduceToNat]
    omega
  have hunit : (b₁ &&& 0x0F).toUInt16 <<< 12 ||| tailBits b₂ <<< 6 ||| tailBits b₃ =
      (Group.three b₁ b₂ b₃ h₁ h₂ h₃).unit := by
    rw [headBits_three b₁ h₁, tailBits_eq b₂ h₂, tailBits_eq b₃ h₃,
      shiftLeft_or_shiftLeft _ (by omega) _ (by omega), shiftLeft_or (by omega) (by omega),
      Group.unit]
    exact congrArg UInt16.ofNat (by omega)
  rw [unitsLoop, if_neg hone, if_neg htwo, if_pos ((head_three_iff b₁).mpr h₁)]
  simp only [(isTail_iff b₂).mpr h₂, (isTail_iff b₃).mpr h₃, hunit, Bool.and_self, if_true]

/-- One group, in front of any bytes. -/
@[simp] theorem unitsLoop_group (g : Group) :
    unitsLoop offset acc (g.bytes ++ rest) =
      unitsLoop (offset + g.bytes.length) (g.unit :: acc) rest := by
  cases g with
  | one b h =>
    have hunit : b.toUInt16 = UInt16.ofNat b.toNat := by
      rw [← UInt16.toNat_inj, UInt8.toNat_toUInt16, UInt16.toNat_ofNat']
      have := b.toNat_lt
      omega
    show unitsLoop offset acc (b :: rest) = _
    rw [unitsLoop_one ((head_one_iff b).mpr h), hunit]
    rfl
  | two b₁ b₂ h₁ h₂ => exact unitsLoop_two h₁ h₂
  | three b₁ b₂ b₃ h₁ h₂ h₃ => exact unitsLoop_three h₁ h₂ h₃

@[simp] theorem unitsLoop_groups (gs : List Group) (offset : Nat) (acc : List UInt16) :
    unitsLoop offset acc (gs.flatMap Group.bytes) = .ok (acc.reverse ++ gs.map Group.unit) := by
  induction gs generalizing offset acc with
  | nil => simp [unitsLoop]
  | cons g gs ih => simp [ih]

/-- What the loop accepts is groups in a row. -/
theorem groups_of_unitsLoop {bytes : Bytes} (h : unitsLoop offset acc bytes = .ok us) :
    ∃ gs : List Group, bytes = gs.flatMap Group.bytes := by
  fun_induction unitsLoop offset acc bytes with
  | case1 => exact ⟨[], rfl⟩
  | case2 offset acc b rest hb ih =>
    obtain ⟨gs, rfl⟩ := ih h
    exact ⟨.one b ((head_one_iff b).mp hb) :: gs, rfl⟩
  | case3 offset acc b hb hhead b₂ rest htail ih =>
    obtain ⟨gs, rfl⟩ := ih h
    exact ⟨.two b b₂ ((head_two_iff b).mp hhead) ((isTail_iff b₂).mp htail) :: gs, rfl⟩
  | case6 offset acc b hb htwo hhead b₂ b₃ rest htail ih =>
    obtain ⟨gs, rfl⟩ := ih h
    obtain ⟨h₂, h₃⟩ := Bool.and_eq_true_iff.mp htail
    exact ⟨.three b b₂ b₃ ((head_three_iff b).mp hhead) ((isTail_iff b₂).mp h₂)
      ((isTail_iff b₃).mp h₃) :: gs, rfl⟩
  | _ => cases h

/-- **Accepted bytes are groups in a row**, and the answer is the text of their units. -/
theorem decode_eq_ok_iff {bytes : Bytes} {s : String} :
    decode bytes = .ok s ↔
      ∃ gs : List Group, bytes = gs.flatMap Group.bytes ∧ s = Utf16.lossy (gs.map Group.unit) := by
  have hread (gs : List Group) :
      decode (gs.flatMap Group.bytes) = .ok (Utf16.lossy (gs.map Group.unit)) := by
    have h : decodeUnits (gs.flatMap Group.bytes) = .ok (gs.map Group.unit) :=
      unitsLoop_groups gs 0 []
    rw [decode, h]
    rfl
  constructor
  · intro h
    cases hunits : decodeUnits bytes with
    | error e =>
      rw [decode, hunits] at h
      cases h
    | ok us =>
      obtain ⟨gs, rfl⟩ := groups_of_unitsLoop hunits
      rw [hread] at h
      cases h
      exact ⟨gs, rfl, rfl⟩
  · rintro ⟨gs, rfl, rfl⟩
    exact hread gs

end Reading

/-! ### Writing again what was read -/

theorem length_unitBytes_le_three (u : UInt16) : (unitBytes u).length ≤ 3 := by
  unfold unitBytes
  split_ifs <;> simp

theorem length_unitBytes_le_two {u : UInt16} (h : u.toNat ≤ 0x7FF) : (unitBytes u).length ≤ 2 := by
  have hle : u ≤ 0x07FF := UInt16.le_iff_toNat_le.mpr h
  unfold unitBytes
  split_ifs <;> simp

/-- A text has no more units than bytes that it was read from. -/
theorem length_lossy_groups_le (gs : List Group) :
    Utf16.length (Utf16.lossy (gs.map Group.unit)) ≤ (gs.flatMap Group.bytes).length := by
  rw [Utf16.length_lossy, List.length_map]
  induction gs with
  | nil => exact Nat.le_refl 0
  | cons g gs ih =>
    have hg : 1 ≤ g.bytes.length := by cases g <;> simp [Group.bytes]
    rw [List.flatMap_cons, List.length_append, List.length_cons]
    omega

/-- Only the unit zero in one byte is written in more bytes than it was read from. -/
theorem length_unitBytes_le (g : Group) (h : 0 ∉ g.bytes) :
    (unitBytes g.unit).length ≤ g.bytes.length := by
  cases g with
  | one b hb =>
    have hle := toNat_within ⟨UInt8.zero_le, hb⟩
    have hne : b.toNat ≠ 0 := fun hzero => h (by simp [Group.bytes, ← UInt8.toNat_inj, hzero])
    simp only [UInt8.reduceToNat] at hle
    rw [unitBytes_one]
    · rfl
    · rw [Group.unit, UInt16.toNat_ofNat']
      omega
  | two b₁ b₂ h₁ h₂ =>
    have hb₁ := toNat_within h₁
    have hb₂ := toNat_within h₂
    simp only [UInt8.reduceToNat] at hb₁ hb₂
    refine length_unitBytes_le_two ?_
    rw [Group.unit, UInt16.toNat_ofNat']
    omega
  | three b₁ b₂ b₃ h₁ h₂ h₃ => exact length_unitBytes_le_three _

theorem length_unitBytes_of_repaired {u v : UInt16} (h : Utf16.Repaired u v) :
    (unitBytes v).length = (unitBytes u).length := by
  rcases h with rfl | ⟨hu, rfl⟩
  · rfl
  · rw [Utf16.isHigh_iff, Utf16.isLow_iff] at hu
    rw [unitBytes_three (by decide), unitBytes_three (by omega)]
    rfl

/-- The text of any units is written in as many bytes as the units are. -/
theorem size_lossy (us : List UInt16) :
    size (Utf16.lossy us) = (us.flatMap unitBytes).length := by
  have h := Utf16.repaired_lossy us
  unfold size bytes
  generalize Utf16.units (Utf16.lossy us) = vs at h
  induction h with
  | nil => rfl
  | cons hu _ ih =>
    rw [List.flatMap_cons, List.flatMap_cons, List.length_append, List.length_append, ih,
      length_unitBytes_of_repaired hu]

/-- **A text read from bytes without a zero is written again in no more bytes.** -/
theorem size_lossy_groups_le {gs : List Group} (h : 0 ∉ gs.flatMap Group.bytes) :
    size (Utf16.lossy (gs.map Group.unit)) ≤ (gs.flatMap Group.bytes).length := by
  rw [size_lossy]
  induction gs with
  | nil => exact Nat.le_refl _
  | cons g gs ih =>
    rw [List.flatMap_cons, List.mem_append, not_or] at h
    have hg := length_unitBytes_le g h.1
    have hgs := ih h.2
    rw [List.map_cons, List.flatMap_cons, List.flatMap_cons, List.length_append,
      List.length_append]
    omega

end Wireform.ModifiedUtf8
