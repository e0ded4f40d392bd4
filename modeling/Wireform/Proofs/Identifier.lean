import Wireform.Identifier
import Mathlib.Data.List.TakeDrop
import Mathlib.Data.List.TakeWhile

/-!
# The text form of identifiers

A text names an identifier in one of three ways: namespace and path around the first colon or, in
the default namespace, the path alone or behind a colon.  So the namespaces that a text can name are
those that are not empty and have no colon, and an identifier is named by its own text if and only
if its namespace is one of these.
-/

namespace Wireform.Identifier

/-- A namespace that a text can name. -/
structure Nameable (space : String) : Prop where
  ne_empty : space ≠ ""
  no_colon : ':' ∉ space.toList

/-- The texts that name an identifier. -/
inductive Names : String → Identifier → Prop
  /-- Namespace and path. The path may have colons, too. -/
  | full {i : Identifier} (h : Nameable i.space) : Names i.display i
  | path {path : String} (h : ':' ∉ path.toList) : Names path ⟨defaultSpace, path⟩
  /-- A path behind a colon: the namespace in front of it is empty. -/
  | colon (path : String) : Names (":" ++ path) ⟨defaultSpace, path⟩

@[simp] theorem nameable_defaultSpace : Nameable defaultSpace := ⟨by decide, by decide⟩

/-! ### The first colon -/

theorem ne_colon {s : List Char} (h : ':' ∉ s) : ∀ c ∈ s, decide (c ≠ ':') = true := by
  intro c hc
  exact decide_eq_true fun heq => h (heq ▸ hc)

theorem splitColon_of_not_mem {s : List Char} (h : ':' ∉ s) : splitColon s = none := by
  have hback : s.dropWhile (· ≠ ':') = [] := List.dropWhile_eq_nil_iff.mpr (ne_colon h)
  rw [splitColon, List.span_eq_takeWhile_dropWhile, hback]

theorem splitColon_append {front : List Char} (h : ':' ∉ front) (back : List Char) :
    splitColon (front ++ ':' :: back) = some (front, back) := by
  have hfront : (front ++ ':' :: back).takeWhile (· ≠ ':') = front := by
    rw [List.takeWhile_append_of_pos (ne_colon h)]
    simp
  have hback : (front ++ ':' :: back).dropWhile (· ≠ ':') = ':' :: back := by
    rw [List.dropWhile_append_of_pos (ne_colon h)]
    simp
  rw [splitColon, List.span_eq_takeWhile_dropWhile, hfront, hback]

/-! ### Reading each form -/

theorem ofText_of_not_mem {s : String} (h : ':' ∉ s.toList) : ofText s = ⟨defaultSpace, s⟩ := by
  rw [ofText, splitColon_of_not_mem h]

@[simp] theorem ofText_colon (path : String) : ofText (":" ++ path) = ⟨defaultSpace, path⟩ := by
  have hchars : (":" ++ path).toList = [] ++ ':' :: path.toList := String.toList_append
  rw [ofText, hchars, splitColon_append List.not_mem_nil]
  simp

/-- The first colon of the text is the one behind the namespace. -/
theorem ofText_display {i : Identifier} (h : Nameable i.space) : ofText i.display = i := by
  have hchars : i.display.toList = i.space.toList ++ ':' :: i.path.toList := by
    simp [display]
  have hne : i.space.toList ≠ [] := fun hnil => h.ne_empty (String.toList_eq_nil_iff.mp hnil)
  obtain ⟨c, cs, hspace⟩ := List.exists_cons_of_ne_nil hne
  rw [ofText, hchars, splitColon_append h.no_colon]
  simp only [hspace]
  rw [← hspace, String.ofList_toList, String.ofList_toList]

theorem Names.ofText_eq {s : String} {i : Identifier} (h : Names s i) : ofText s = i := by
  cases h with
  | full h => exact ofText_display h
  | path h => exact ofText_of_not_mem h
  | colon path => exact ofText_colon path

/-! ### Every text has one of the forms -/

theorem exists_names (s : String) : ∃ i, Names s i := by
  by_cases h : ':' ∈ s.toList
  · obtain ⟨front, back, hsplit, hfront⟩ := List.eq_append_cons_of_mem h
    have hs : s = String.ofList front ++ ":" ++ String.ofList back := by
      rw [← String.toList_inj, hsplit]
      simp
    subst hs
    by_cases hempty : front = []
    · subst hempty
      exact ⟨_, Names.colon (String.ofList back)⟩
    · have hspace : Nameable (String.ofList front) :=
        ⟨fun heq => hempty (String.ofList_eq_empty_iff.mp heq), by rwa [String.toList_ofList]⟩
      exact ⟨_, Names.full (i := ⟨String.ofList front, String.ofList back⟩) hspace⟩
  · exact ⟨_, .path h⟩

theorem ofText_eq_iff {s : String} {i : Identifier} : ofText s = i ↔ Names s i := by
  constructor
  · rintro rfl
    obtain ⟨i, hi⟩ := exists_names s
    rwa [hi.ofText_eq]
  · exact Names.ofText_eq

theorem Names.nameable {s : String} {i : Identifier} (h : Names s i) : Nameable i.space := by
  cases h with
  | full h => exact h
  | path _ => exact nameable_defaultSpace
  | colon _ => exact nameable_defaultSpace

@[simp] theorem nameable_ofText (s : String) : Nameable (ofText s).space :=
  (ofText_eq_iff.mp rfl).nameable

/-- **What texts name, and which identifiers their own texts name.**  A text names the identifier
that it is read as, in one of the three forms; the namespace of that is not empty and has no colon,
so it is named by its own text as well.  Any other identifier is not. -/
theorem text_forms :
    (∀ s : String, Nameable (ofText s).space ∧ ofText (ofText s).display = ofText s ∧
      ∀ i, ofText s = i ↔ Names s i) ∧
      ∀ i : Identifier, ofText i.display = i ↔ Nameable i.space := by
  refine ⟨fun s => ⟨nameable_ofText s, ofText_display (nameable_ofText s), fun i => ofText_eq_iff⟩,
    fun i => ⟨fun h => ?_, ofText_display⟩⟩
  rw [← h]
  exact nameable_ofText i.display

/-- An identifier as it may be read from the wire: its text names another one. -/
example : ofText (display ⟨"mod:part", "a:b"⟩) = ⟨"mod", "part:a:b"⟩ := by decide

end Wireform.Identifier
