import Wireform.Layout
import Mathlib.Tactic.Common

/-!
# Looking fields up

Halving the range finds a field at its offset and finds nothing at any other, as long as the offsets
ascend.
-/

namespace Wireform.Layout

variable {fields : Array (Nat × WireType)} {offset low high i j : Nat} {t : WireType} {l : Layout}

/-- Each field starts behind the one before it. -/
def Ascending (l : Layout) : Prop := l.fields.toList.Pairwise (·.1 < ·.1)

namespace Ascending

variable {e e' : Nat × WireType}

theorem lt (h : l.Ascending) (hi : l.fields[i]? = some e) (hj : l.fields[j]? = some e')
    (hij : i < j) : e.1 < e'.1 := by
  rw [← Array.getElem?_toList] at hi hj
  obtain ⟨hi', rfl⟩ := List.getElem?_eq_some_iff.mp hi
  obtain ⟨hj', rfl⟩ := List.getElem?_eq_some_iff.mp hj
  exact List.pairwise_iff_getElem.mp h i j hi' hj' hij

theorem index_lt (h : l.Ascending) (hi : l.fields[i]? = some e) (hj : l.fields[j]? = some e')
    (hlt : e.1 < e'.1) : i < j := by
  rcases Nat.lt_trichotomy i j with hij | rfl | hji
  · exact hij
  · rw [hi] at hj
    cases hj
    exact absurd hlt (Nat.lt_irrefl _)
  · exact absurd (h.lt hj hi hji) (Nat.lt_asymm hlt)

theorem index_eq (h : l.Ascending) (hi : l.fields[i]? = some e) (hj : l.fields[j]? = some e')
    (heq : e.1 = e'.1) : i = j := by
  rcases Nat.lt_trichotomy i j with hij | hij | hji
  · exact absurd (h.lt hi hj hij) (Nat.not_lt_of_le (Nat.le_of_eq heq.symm))
  · exact hij
  · exact absurd (h.lt hj hi hji) (Nat.not_lt_of_le (Nat.le_of_eq heq))

end Ascending

theorem search_sound (h : search fields offset low high = some i) :
    ∃ t, fields[i]? = some (offset, t) := by
  fun_induction search fields offset low high with
  | case1 => cases h
  | case2 low high hlt mid t hmid =>
    rw [← Option.some.inj h]
    exact ⟨t, hmid⟩
  | case3 low high hlt mid start t hmid hne hless ih => exact ih h
  | case4 low high hlt mid start t hmid hne hless ih => exact ih h
  | case5 => cases h

theorem search_complete (hl : l.Ascending) (hi : l.fields[i]? = some (offset, t)) (hlow : low ≤ i)
    (hhigh : i < high) (hsize : high ≤ l.size) : search l.fields offset low high = some i := by
  fun_induction search l.fields offset low high with
  | case1 low high hlt mid hmid =>
    have hlt' : mid < l.fields.size := by
      unfold size at hsize
      omega
    rw [Array.getElem?_eq_getElem hlt'] at hmid
    cases hmid
  | case2 low high hlt mid t' hmid => rw [hl.index_eq hmid hi rfl]
  | case3 low high hlt mid start t' hmid hne hless ih =>
    -- the middle starts below the offset, so the field is above it
    exact ih (hl.index_lt hmid hi hless) hhigh hsize
  | case4 low high hlt mid start t' hmid hne hless ih =>
    have hbelow : i < mid := hl.index_lt hi hmid (by omega)
    exact ih hlow hbelow (by omega)
  | case5 low high hlt => omega

/-- **A field is found at an offset if and only if it starts there.** -/
theorem find?_eq_some_iff (hl : l.Ascending) :
    l.find? offset = some (i, t) ↔ l.fields[i]? = some (offset, t) := by
  unfold find?
  simp only [Option.bind_eq_bind, Option.bind_eq_some_iff, Option.pure_def, Option.some.injEq,
    Prod.mk.injEq, Prod.exists]
  constructor
  · rintro ⟨i, hsearch, start, t, hget, rfl, rfl⟩
    obtain ⟨t', hfound⟩ := search_sound hsearch
    rw [hget] at hfound
    cases hfound
    exact hget
  · intro hi
    have hlt : i < l.size := (Array.getElem?_eq_some_iff.mp hi).1
    exact ⟨i, search_complete hl hi (Nat.zero_le i) hlt (Nat.le_refl _), offset, t, hi, rfl, rfl⟩

end Wireform.Layout
