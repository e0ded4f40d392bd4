import Wireform.Text.Utf16
import Mathlib.Tactic.Common
import Mathlib.Data.List.Forall2

/-!
# UTF-16 reads back

The units of a text are read back as the text: no unit of a character below `0x10000` is half of a
surrogate pair, and a pair gives the character it was made of.  A text has as many units as
`Utf16.length` counts.  Any units at all are read as a text with as many units, in which only halves
of pairs have been replaced whose other half is not beside them (`readsAs_iff`).
-/

namespace Wireform.Utf16

/-- Characters leave out the surrogates. -/
theorem toNat_cases (c : Char) :
    c.toNat < 0xD800 ∨ 0xDFFF < c.toNat ∧ c.toNat < 0x10000 ∨
      0x10000 ≤ c.toNat ∧ c.toNat < 0x110000 := by
  have hv := c.valid
  rw [← Char.toNat_val]
  simp only [UInt32.isValidChar, Nat.isValidChar] at hv
  omega

theorem isHigh_iff (u : UInt16) : isHigh u = true ↔ 0xD800 ≤ u.toNat ∧ u.toNat ≤ 0xDBFF := by
  simp [isHigh, UInt16.le_iff_toNat_le]

theorem isLow_iff (u : UInt16) : isLow u = true ↔ 0xDC00 ≤ u.toNat ∧ u.toNat ≤ 0xDFFF := by
  simp [isLow, UInt16.le_iff_toNat_le]

theorem lossyLoop_unit {u : UInt16} (h : u.toNat < 0xD800 ∨ 0xDFFF < u.toNat) (acc : List Char)
    (us : List UInt16) : lossyLoop acc (u :: us) = lossyLoop (unitChar u :: acc) us := by
  have hhigh : ¬ isHigh u = true := by
    rw [isHigh_iff]
    omega
  have hlow : ¬ isLow u = true := by
    rw [isLow_iff]
    omega
  cases us with
  | nil => simp [lossyLoop, hhigh, hlow]
  | cons v us => rw [lossyLoop, if_neg hhigh, if_neg hlow]

theorem lossyLoop_pair {u v : UInt16} (hu : isHigh u = true) (hv : isLow v = true)
    (acc : List Char) (us : List UInt16) :
    lossyLoop acc (u :: v :: us) = lossyLoop (pairChar u v :: acc) us := by
  rw [lossyLoop, if_pos hu, if_pos hv]

/-- One character, in front of any units. -/
@[simp] theorem lossyLoop_charUnits (c : Char) (acc : List Char) (us : List UInt16) :
    lossyLoop acc (charUnits c ++ us) = lossyLoop (c :: acc) us := by
  by_cases hc : c.toNat < 0x10000
  · have hu : (UInt16.ofNat c.toNat).toNat = c.toNat := by
      rw [UInt16.toNat_ofNat']
      omega
    have hchar : unitChar (UInt16.ofNat c.toNat) = c := by
      rw [unitChar, hu, Char.ofNat_toNat]
    rw [charUnits, if_pos hc, List.singleton_append, lossyLoop_unit, hchar]
    rw [hu]
    have := toNat_cases c
    omega
  · obtain ⟨hge, hlt⟩ : 0x10000 ≤ c.toNat ∧ c.toNat < 0x110000 := by
      have := toNat_cases c
      omega
    have hhigh : (UInt16.ofNat (0xD800 + (c.toNat - 0x10000) / 0x400)).toNat =
        0xD800 + (c.toNat - 0x10000) / 0x400 := by
      rw [UInt16.toNat_ofNat']
      omega
    have hlow : (UInt16.ofNat (0xDC00 + (c.toNat - 0x10000) % 0x400)).toNat =
        0xDC00 + (c.toNat - 0x10000) % 0x400 := by
      rw [UInt16.toNat_ofNat']
      omega
    have hsum : 0x10000 + (0xD800 + (c.toNat - 0x10000) / 0x400 - 0xD800) * 0x400 +
        (0xDC00 + (c.toNat - 0x10000) % 0x400 - 0xDC00) = c.toNat := by omega
    rw [charUnits, if_neg hc, List.cons_append, List.singleton_append, lossyLoop_pair, pairChar,
      hhigh, hlow, hsum, Char.ofNat_toNat]
    · rw [isHigh_iff, hhigh]
      omega
    · rw [isLow_iff, hlow]
      omega

@[simp] theorem lossyLoop_units (cs : List Char) (acc : List Char) :
    lossyLoop acc (cs.flatMap charUnits) = acc.reverse ++ cs := by
  induction cs generalizing acc with
  | nil => simp [lossyLoop]
  | cons c cs ih => simp [ih]

/-- **The units of a text read back as the text.** -/
@[simp] theorem lossy_units (s : String) : lossy (units s) = s := by
  simp [lossy, units]

@[simp, grind =] theorem length_charUnits (c : Char) : (charUnits c).length = charSize c := by
  unfold charUnits charSize
  split <;> rfl

theorem foldl_charSize (cs : List Char) (n : Nat) :
    cs.foldl (fun n c => n + charSize c) n = n + (cs.flatMap charUnits).length := by
  induction cs generalizing n with
  | nil => rfl
  | cons c cs ih => simp [ih, Nat.add_assoc]

theorem length_eq (s : String) : length s = (units s).length := by
  rw [length, foldl_charSize, Nat.zero_add, units]

/-! ### Any units -/

theorem toNat_ofNat {n : Nat} (h : n.isValidChar) : (Char.ofNat n).toNat = n := by
  rw [Char.ofNat, dif_pos h]
  rfl

/-- A unit that is no half of a pair is the only unit of its character. -/
theorem charUnits_unitChar {u : UInt16} (h : ¬ isHigh u = true) (h' : ¬ isLow u = true) :
    charUnits (unitChar u) = [u] := by
  have hlt := u.toNat_lt
  rw [isHigh_iff] at h
  rw [isLow_iff] at h'
  have hvalid : u.toNat.isValidChar := by
    unfold Nat.isValidChar
    omega
  have hchar : (unitChar u).toNat = u.toNat := by
    rw [unitChar, toNat_ofNat hvalid]
  rw [charUnits, hchar, if_pos (by omega), UInt16.ofNat_toNat]

theorem charUnits_pairChar {u v : UInt16} (hu : isHigh u = true) (hv : isLow v = true) :
    charUnits (pairChar u v) = [u, v] := by
  rw [isHigh_iff] at hu
  rw [isLow_iff] at hv
  have hvalid : (0x10000 + (u.toNat - 0xD800) * 0x400 + (v.toNat - 0xDC00)).isValidChar := by
    unfold Nat.isValidChar
    omega
  have hhigh : 0xD800 + (0x10000 + (u.toNat - 0xD800) * 0x400 + (v.toNat - 0xDC00) - 0x10000) /
      0x400 = u.toNat := by omega
  have hlow : 0xDC00 + (0x10000 + (u.toNat - 0xD800) * 0x400 + (v.toNat - 0xDC00) - 0x10000) %
      0x400 = v.toNat := by omega
  rw [charUnits, pairChar, toNat_ofNat hvalid, if_neg (by omega), hhigh, hlow,
    UInt16.ofNat_toNat, UInt16.ofNat_toNat]

@[simp] theorem charUnits_replacement : charUnits replacement = [0xFFFD] := by decide

theorem not_isLow_of_isHigh {u : UInt16} (h : isHigh u = true) : ¬ isLow u = true := by
  rw [isHigh_iff] at h
  rw [isLow_iff]
  omega

/-- Whether a unit is half of a surrogate pair and the other half is not the unit next to it. -/
def standsAlone (before? : Option UInt16) (u : UInt16) (after? : Option UInt16) : Bool :=
  isHigh u && !after?.any isLow || isLow u && !before?.any isHigh

theorem standsAlone_iff {before? after? : Option UInt16} {u : UInt16} :
    standsAlone before? u after? = true ↔
      isHigh u = true ∧ ¬ after?.any isLow = true ∨
        isLow u = true ∧ ¬ before?.any isHigh = true := by
  simp only [standsAlone, Bool.or_eq_true, Bool.and_eq_true, Bool.not_eq_true']
  rw [← Bool.not_eq_true, ← Bool.not_eq_true]

/-- Units behind another one, those that stand alone replaced. -/
def repair (before? : Option UInt16) : List UInt16 → List UInt16
  | [] => []
  | u :: us =>
    (if standsAlone before? u us.head? then 0xFFFD else u) :: repair (some u) us

theorem repair_cons_of_alone {before? : Option UInt16} {u : UInt16} {us : List UInt16}
    (h : standsAlone before? u us.head? = true) :
    repair before? (u :: us) = 0xFFFD :: repair (some u) us := by
  rw [repair, if_pos h]

theorem repair_cons_of_not_alone {before? : Option UInt16} {u : UInt16} {us : List UInt16}
    (h : ¬ standsAlone before? u us.head? = true) :
    repair before? (u :: us) = u :: repair (some u) us := by
  rw [repair, if_neg h]

/-- The units of a text that was read from units are those units, those that stand alone replaced.
The loop never stands within a pair: if a first half is behind it, no second half is next. -/
theorem units_lossyLoop (before? : Option UInt16) (acc : List Char) (us : List UInt16)
    (h : us.head?.any isLow = true → ¬ before?.any isHigh = true) :
    (lossyLoop acc us).flatMap charUnits = acc.reverse.flatMap charUnits ++ repair before? us := by
  have hpush (c : Char) (acc : List Char) :
      (c :: acc).reverse.flatMap charUnits = acc.reverse.flatMap charUnits ++ charUnits c := by
    simp
  fun_induction lossyLoop acc us generalizing before? with
  | case1 acc => simp [repair]
  | case2 acc u =>
    rw [List.head?_cons, Option.any_some] at h
    rw [hpush]
    split_ifs with hu
    · have halone : standsAlone before? u [].head? = true := by
        rw [standsAlone_iff]
        exact (Bool.or_eq_true_iff.mp hu).imp (⟨·, by simp⟩) fun hlow => ⟨hlow, h hlow⟩
      rw [charUnits_replacement, repair_cons_of_alone halone, repair]
    · obtain ⟨hhigh, hlow⟩ := not_or.mp (mt Bool.or_eq_true_iff.mpr hu)
      have hkept : ¬ standsAlone before? u [].head? = true := by
        simp [standsAlone_iff, hhigh, hlow]
      rw [charUnits_unitChar hhigh hlow, repair_cons_of_not_alone hkept, repair]
  | case3 acc u v us hu hv ih =>
    -- the loop goes on behind the pair, so both of its units must be shown to stay
    have hhigh : ¬ isHigh v = true := fun h => not_isLow_of_isHigh h hv
    have hfirst : ¬ standsAlone before? u (v :: us).head? = true := by
      simp [standsAlone_iff, hv, not_isLow_of_isHigh hu]
    have hsecond : ¬ standsAlone (some u) v us.head? = true := by
      simp [standsAlone_iff, hu, hhigh]
    rw [ih (some v) fun _ => hhigh, hpush, charUnits_pairChar hu hv,
      repair_cons_of_not_alone hfirst, repair_cons_of_not_alone hsecond, List.append_assoc]
    rfl
  | case4 acc u v us hu hv ih =>
    have halone : standsAlone before? u (v :: us).head? = true :=
      standsAlone_iff.mpr (.inl ⟨hu, hv⟩)
    rw [ih (some u) fun hlow => absurd hlow hv, hpush, charUnits_replacement,
      repair_cons_of_alone halone, List.append_assoc]
    rfl
  | case5 acc u v us hu hu' ih =>
    have halone : standsAlone before? u (v :: us).head? = true :=
      standsAlone_iff.mpr (.inr ⟨hu', h hu'⟩)
    rw [ih (some u) fun _ => hu, hpush, charUnits_replacement,
      repair_cons_of_alone halone, List.append_assoc]
    rfl
  | case6 acc u v us hu hu' ih =>
    have hkept : ¬ standsAlone before? u (v :: us).head? = true := by
      simp [standsAlone_iff, hu, hu']
    rw [ih (some u) fun _ => hu, hpush, charUnits_unitChar hu hu',
      repair_cons_of_not_alone hkept, List.append_assoc]
    rfl

/-- **Only units that stand alone are replaced.** -/
theorem units_lossy (us : List UInt16) : units (lossy us) = repair none us := by
  rw [units, lossy, String.toList_ofList, units_lossyLoop none [] us (by simp)]
  rfl

/-- The text that units are read as: each unit in its place, except those that stand alone there. -/
def ReadsAs (us : List UInt16) (s : String) : Prop :=
  ∀ k, (units s)[k]? = us[k]?.map fun u =>
    if standsAlone (if k = 0 then none else us[k - 1]?) u us[k + 1]? then 0xFFFD else u

theorem getElem?_repair (before? : Option UInt16) (us : List UInt16) (k : Nat) :
    (repair before? us)[k]? = us[k]?.map fun u =>
      if standsAlone (if k = 0 then before? else us[k - 1]?) u us[k + 1]? then 0xFFFD else u := by
  induction us generalizing before? k with
  | nil => simp [repair]
  | cons u us ih =>
    cases k with
    | zero => simp [repair, List.head?_eq_getElem?]
    | succ k =>
      have hbefore : (if k = 0 then some u else us[k - 1]?) = (u :: us)[k]? := by
        cases k <;> simp
      rw [repair, List.getElem?_cons_succ, ih, hbefore]
      rfl

theorem units_injective {s t : String} (h : units s = units t) : s = t := by
  rw [← lossy_units s, h, lossy_units]

/-- **Units are read as one text**, in which every unit keeps its place. -/
theorem readsAs_iff {us : List UInt16} {s : String} : ReadsAs us s ↔ lossy us = s := by
  have hplace (k : Nat) : (units (lossy us))[k]? = us[k]?.map fun u =>
      if standsAlone (if k = 0 then none else us[k - 1]?) u us[k + 1]? then 0xFFFD else u := by
    rw [units_lossy, getElem?_repair]
  constructor
  · intro h
    exact units_injective (List.ext_getElem? fun k => (hplace k).trans (h k).symm)
  · rintro rfl
    exact hplace

/-- What a unit becomes in a text: itself or, for half of a pair, the replacement character. -/
def Repaired (u v : UInt16) : Prop := v = u ∨ (isHigh u = true ∨ isLow u = true) ∧ v = 0xFFFD

theorem repaired_repair (before? : Option UInt16) (us : List UInt16) :
    List.Forall₂ Repaired us (repair before? us) := by
  induction us generalizing before? with
  | nil => exact .nil
  | cons u us ih =>
    refine .cons ?_ (ih (some u))
    split_ifs with h
    · exact .inr ⟨(standsAlone_iff.mp h).imp And.left And.left, rfl⟩
    · exact .inl rfl

theorem repaired_lossy (us : List UInt16) : List.Forall₂ Repaired us (units (lossy us)) := by
  rw [units_lossy]
  exact repaired_repair none us

/-- Repairing keeps the number of units. -/
@[simp, grind =] theorem length_lossy (us : List UInt16) : length (lossy us) = us.length := by
  rw [length_eq]
  exact (repaired_lossy us).length_eq.symm

end Wireform.Utf16
