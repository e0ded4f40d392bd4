/-!
# Protocol versions

The version numbers the protocol gave its releases, and inclusive ranges of versions. A range is
never empty: its bounds are in order by construction. Two ranges overlap exactly when some version
lies in both (`overlaps_iff`).
-/

namespace Wireform

/-- The number a client announces for its revision of the protocol. -/
abbrev Version := Int32

namespace Version

def v1_8 : Version := 47
def v1_9 : Version := 107
def v1_12_2 : Version := 340
def v1_13 : Version := 393
def v1_14 : Version := 477
def v1_14_4 : Version := 498
def v1_15 : Version := 573
def v1_15_2 : Version := 578
def v1_16 : Version := 735
def v1_16_5 : Version := 754
def v1_17 : Version := 755
def v1_17_1 : Version := 756
def v1_18 : Version := 757
def v1_18_2 : Version := 758

/-- The releases, oldest first. -/
def releases : List Version :=
  [v1_8, v1_9, v1_12_2, v1_13, v1_14, v1_14_4, v1_15, v1_15_2, v1_16, v1_16_5, v1_17, v1_17_1,
    v1_18, v1_18_2]

end Version

/-- The versions from `min` to `max`, both included. -/
structure VersionRange where
  min : Version
  max : Version
  min_le_max : min ≤ max
  deriving DecidableEq

namespace VersionRange

/-- Every version. -/
def all : VersionRange := ⟨Int32.minValue, Int32.maxValue, by decide⟩

instance : Inhabited VersionRange := ⟨all⟩

/-- Versions up to and including `max`. -/
def upTo (max : Version) : VersionRange := ⟨Int32.minValue, max, Int32.minValue_le max⟩

/-- Versions from `min` onwards. -/
def since (min : Version) : VersionRange := ⟨min, Int32.maxValue, Int32.le_maxValue min⟩

/-- Versions between two bounds, given in either order. -/
def between (a b : Version) : VersionRange :=
  if h : a ≤ b then ⟨a, b, h⟩ else ⟨b, a, by
    rw [Int32.le_iff_toInt_le] at h ⊢
    omega⟩

/-- One version alone. -/
def only (v : Version) : VersionRange := ⟨v, v, Int32.le_refl v⟩

/-- Whether a version lies in the range. -/
def contains (r : VersionRange) (v : Version) : Bool := r.min ≤ v && v ≤ r.max

/-- Whether two ranges meet, decided on their bounds. -/
def overlaps (r s : VersionRange) : Bool := r.min ≤ s.max && s.min ≤ r.max

theorem contains_iff {r : VersionRange} {v : Version} :
    r.contains v = true ↔ r.min ≤ v ∧ v ≤ r.max := by
  simp [contains]

theorem overlaps_iff {r s : VersionRange} :
    r.overlaps s = true ↔ ∃ v, r.contains v = true ∧ s.contains v = true := by
  simp only [overlaps, contains, Bool.and_eq_true, decide_eq_true_eq, Int32.le_iff_toInt_le]
  have hr := Int32.le_iff_toInt_le.1 r.min_le_max
  have hs := Int32.le_iff_toInt_le.1 s.min_le_max
  constructor
  · rintro ⟨h₁, h₂⟩
    by_cases h : r.min.toInt ≤ s.min.toInt
    · exact ⟨s.min, by omega⟩
    · exact ⟨r.min, by omega⟩
  · rintro ⟨v, h₁, h₂⟩
    omega

/-- A bound at the end of all versions is left out of the text. -/
def display (r : VersionRange) : String :=
  let lower := if r.min = Int32.minValue then "" else toString r.min.toInt
  let upper := if r.max = Int32.maxValue then "" else "=" ++ toString r.max.toInt
  if lower.isEmpty && upper.isEmpty then "*" else lower ++ ".." ++ upper

end VersionRange

end Wireform
