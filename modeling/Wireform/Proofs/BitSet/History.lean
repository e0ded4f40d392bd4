import Wireform.Proofs.BitSet

/-!
# How sets come about

A set of indices starts empty, from words or from a list, and indices are put in and taken out.  Its
members are what the history says: an index is in if it was put in, or there from the start, and was
not taken out since.  By induction over the edits, the last one split off; the form of the words is
a matter of the type, and two histories that say the same give the same words.
-/

namespace Wireform.BitSet

variable {i j : Nat}

/-! ### Histories -/

/-- What a set is made from. -/
inductive Source where
  | empty
  | words (words : List UInt64)
  | indices (indices : List Nat)

namespace Source

/-- The set that is made. -/
def set : Source → BitSet
  | empty => BitSet.empty
  | words ws => ofWords ws
  | indices is => ofList is

/-- Whether an index is there from the start. -/
def Holds : Source → Nat → Prop
  | empty, _ => False
  | words ws, i => ∃ word, ws[i / 64]? = some word ∧ word.toNat.testBit (i % 64) = true
  | indices is, i => i ∈ is

@[simp] theorem contains_set (source : Source) (i : Nat) :
    source.set.contains i = true ↔ source.Holds i := by
  cases source with
  | empty =>
    show empty.set.contains i = true ↔ False
    simp [set]
  | words ws =>
    rw [set, contains_ofWords, hasBit, List.getD_eq_getElem?_getD, Holds]
    cases ws[i / 64]? with
    | none => simp
    | some word => simp
  | indices is =>
    simp [set, Holds]

end Source

/-- A change of a set. -/
inductive Edit where
  | insert (index : Nat)
  | erase (index : Nat)

/-- Carries a change out. -/
def Edit.apply : Edit → BitSet → BitSet
  | insert index, s => s.insert index
  | erase index, s => s.erase index

/-- A source and the changes since, the first one first. -/
structure History where
  source : Source
  edits : List Edit

namespace History

variable {source : Source} {edits : List Edit} {e : Edit}

/-- What becomes of the set. -/
def set (h : History) : BitSet := h.edits.foldl (fun s e => e.apply s) h.source.set

/-- An index is in if it was there or was put in, and was not taken out since. -/
def Holds (h : History) (i : Nat) : Prop :=
  (h.source.Holds i ∧ .erase i ∉ h.edits) ∨
    ∃ before after, h.edits = before ++ .insert i :: after ∧ .erase i ∉ after

/-- One more change. -/
@[simp] theorem set_concat : set ⟨source, edits ++ [e]⟩ = e.apply (set ⟨source, edits⟩) := by
  simp [set, List.foldl_append]

@[simp] theorem holds_concat :
    Holds ⟨source, edits ++ [e]⟩ i ↔ e = .insert i ∨ e ≠ .erase i ∧ Holds ⟨source, edits⟩ i := by
  have hnot {es : List Edit} : .erase i ∉ es ++ [e] ↔ .erase i ∉ es ∧ e ≠ .erase i := by
    rw [List.mem_append, List.mem_singleton, not_or, ne_comm]
  constructor
  · rintro (⟨hsource, herase⟩ | ⟨before, after, hedits, herase⟩)
    · obtain ⟨hmem, hne⟩ := hnot.mp herase
      exact .inr ⟨hne, .inl ⟨hsource, hmem⟩⟩
    · -- the change that put `i` in is the last one, or comes before it
      rcases List.eq_nil_or_concat after with rfl | ⟨after, e', rfl⟩
      · obtain ⟨-, hlast⟩ := List.append_inj' hedits rfl
        exact .inl (List.singleton_inj.mp hlast)
      · rw [List.concat_eq_append, ← List.cons_append, ← List.append_assoc] at hedits
        obtain ⟨rfl, hlast⟩ := List.append_inj' hedits rfl
        obtain rfl := List.singleton_inj.mp hlast
        rw [List.concat_eq_append] at herase
        obtain ⟨hmem, hne⟩ := hnot.mp herase
        exact .inr ⟨hne, .inr ⟨before, after, rfl, hmem⟩⟩
  · rintro (rfl | ⟨hne, ⟨hsource, hmem⟩ | ⟨before, after, rfl, hmem⟩⟩)
    · exact .inr ⟨edits, [], rfl, List.not_mem_nil⟩
    · exact .inl ⟨hsource, hnot.mpr ⟨hmem, hne⟩⟩
    · refine .inr ⟨before, after ++ [e], ?_, hnot.mpr ⟨hmem, hne⟩⟩
      rw [List.append_assoc, List.cons_append]

/-- **What a history says is in the set is in the set.** -/
theorem contains_set (h : History) (i : Nat) : h.set.contains i = true ↔ h.Holds i := by
  obtain ⟨source, edits⟩ := h
  induction edits using List.reverseRecOn with
  | nil => simp [set, Holds]
  | append_singleton edits e ih =>
    rw [set_concat, holds_concat, ← ih]
    cases e with
    | insert index =>
      have hne : Edit.insert index ≠ .erase i := nofun
      rw [Edit.apply, contains_insert, Bool.or_eq_true, decide_eq_true_iff, Edit.insert.injEq,
        eq_comm, and_iff_right hne]
    | erase index =>
      have hne : Edit.erase index ≠ .insert i := nofun
      rw [Edit.apply, contains_erase, Bool.and_eq_true, Bool.not_eq_true', decide_eq_false_iff_not,
        or_iff_right hne, Ne, Edit.erase.injEq, eq_comm]

/-- Two histories give the same set if and only if they say the same. -/
theorem set_eq_iff {h h' : History} : h.set = h'.set ↔ ∀ i, h.Holds i ↔ h'.Holds i := by
  rw [eq_iff_contains]
  apply forall_congr'
  intro i
  rw [← contains_set, ← contains_set, Bool.eq_iff_iff]

end History

/-- **A set of indices, however it came about.**  The last of its words is not zero; its members are
those of its history, in the list they stand in ascending order, and their number is counted.  A
change of one index leaves the others as they were, and sets are equal if and only if their members
are. -/
theorem members_of_history (h : History) :
    h.set.words.getLast? ≠ some 0 ∧
    (∀ i, h.set.contains i = true ↔ h.Holds i) ∧
    (∀ index i, (h.set.insert index).contains i = (decide (i = index) || h.set.contains i)) ∧
    (∀ index i, (h.set.erase index).contains i = (!decide (i = index) && h.set.contains i)) ∧
    h.set.toList.Pairwise (· < ·) ∧ (∀ i, i ∈ h.set.toList ↔ h.Holds i) ∧
    h.set.size = h.set.toList.length ∧
    (h.set.isEmpty = true ↔ ∀ i, ¬ h.Holds i) ∧
    ∀ h' : History, h.set = h'.set ↔ ∀ i, h.Holds i ↔ h'.Holds i := by
  have hmem := h.contains_set
  refine ⟨h.set.trimmed, hmem, contains_insert h.set, contains_erase h.set, pairwise_toList h.set,
    fun i => ?_, size_eq h.set, ?_, fun h' => History.set_eq_iff⟩
  · rw [mem_toList]
    exact hmem i
  · rw [isEmpty_iff]
    apply forall_congr'
    intro i
    rw [← hmem, Bool.not_eq_true]

/-- Taking out the only member of the last word leaves no zero words at the end. -/
example :
    History.set ⟨.indices [70, 3], [.insert 200, .erase 70, .erase 200]⟩ = ofWords [8, 0] := by
  decide

end Wireform.BitSet
