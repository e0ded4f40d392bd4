import Wireform.Proofs.Nbt.Encoding

/-!
# The parts of trees

All tags of a tree and all its texts, each as a list.  What a tree has to keep to so that it can be
written it keeps to part by part and text by text (`Tag.writable_iff`).
-/

namespace Wireform.Nbt

/-! ### Texts -/

mutual

/-- The keys and the texts in a tag. -/
@[simp] def Tag.texts : Tag → List String
  | .text s => [s]
  | .list items => itemsTexts items
  | .compound entries => entriesTexts entries
  | _ => []
termination_by structural t => t

@[simp] def itemsTexts : List Tag → List String
  | [] => []
  | item :: rest => item.texts ++ itemsTexts rest
termination_by structural items => items

@[simp] def entriesTexts : List (String × Tag) → List String
  | [] => []
  | (key, tag) :: rest => key :: (tag.texts ++ entriesTexts rest)
termination_by structural entries => entries

end

/-- The keys and the texts in a tree. -/
def Tree.texts (t : Tree) : List String := entriesTexts t.entries

@[simp] theorem mem_entriesTexts {s : String} {es : List (String × Tag)} :
    s ∈ entriesTexts es ↔ ∃ e ∈ es, s = e.1 ∨ s ∈ e.2.texts := by
  induction es with
  | nil => simp
  | cons e rest ih => simp [ih, or_assoc]

/-! ### Tags -/

mutual

/-- A tag and the tags in it. -/
@[simp] def Tag.parts : Tag → List Tag
  | .list items => .list items :: itemsParts items
  | .compound entries => .compound entries :: entriesParts entries
  | t => [t]
termination_by structural t => t

@[simp] def itemsParts : List Tag → List Tag
  | [] => []
  | item :: rest => item.parts ++ itemsParts rest
termination_by structural items => items

@[simp] def entriesParts : List (String × Tag) → List Tag
  | [] => []
  | (_, tag) :: rest => tag.parts ++ entriesParts rest
termination_by structural entries => entries

end

/-- The tags in a tree, of which the root is one. -/
def Tree.parts (t : Tree) : List Tag := (Tag.compound t.entries).parts

@[simp] theorem mem_entriesParts {t : Tag} {es : List (String × Tag)} :
    t ∈ entriesParts es ↔ ∃ e ∈ es, t ∈ e.2.parts := by
  induction es with
  | nil => simp
  | cons e rest ih => simp [ih]

namespace Tag

/-- The number of elements of an array. -/
def elements : Tag → Nat
  | byteArray vs => vs.length
  | intArray vs => vs.length
  | longArray vs => vs.length
  | _ => 0

/-- The number that a tag is written behind: of its items or its elements. -/
def count : Tag → Nat
  | list items => items.length
  | t => t.elements

/-- The items of a list share a type. -/
def Uniform : Tag → Prop
  | list items => ∀ s ∈ items, ∀ t ∈ items, s.id = t.id
  | _ => True

/-- What stops neither a reader nor a writer: items that share a type, and a count that fits. -/
def Regular (t : Tag) : Prop := t.Uniform ∧ Countable t.count

theorem all_itemId_iff {items : List Tag} :
    items.all (·.id == itemId items) = true ↔ (list items).Uniform := by
  simp only [List.all_eq_true, beq_iff_eq]
  constructor
  · intro h s hs t ht
    rw [h s hs, h t ht]
  · intro h t ht
    cases items with
    | nil => cases ht
    | cons item rest => exact h t ht item List.mem_cons_self

end Tag

mutual

/-- **A tag can be written if and only if its texts and its parts can**, one by one. -/
theorem Tag.writable_iff : (t : Tag) →
    (t.Writable ↔ (∀ s ∈ t.texts, TextWritable s) ∧ ∀ u ∈ t.parts, u.Regular)
  | .byte _ | .short _ | .int _ | .long _ | .float _ | .double _ | .text _ | .byteArray _
  | .intArray _ | .longArray _ => by
    simp [Tag.Regular, Tag.Uniform, Tag.count, Tag.elements, Countable]
  | .list items => by
    rw [Tag.Writable, Tag.texts, Tag.parts, List.forall_mem_cons, Tag.all_itemId_iff,
      itemsWritable_iff items]
    exact ⟨fun ⟨huniform, hcount, htexts, hparts⟩ => ⟨htexts, ⟨huniform, hcount⟩, hparts⟩,
      fun ⟨htexts, ⟨huniform, hcount⟩, hparts⟩ => ⟨huniform, hcount, htexts, hparts⟩⟩
  | .compound entries => by
    have hroot : (Tag.compound entries).Regular := ⟨trivial, Nat.zero_le _⟩
    simp [and_iff_right hroot, entriesWritable_iff entries]
termination_by structural t => t

theorem itemsWritable_iff : (items : List Tag) →
    (ItemsWritable items ↔
      (∀ s ∈ itemsTexts items, TextWritable s) ∧ ∀ u ∈ itemsParts items, u.Regular)
  | [] => by simp
  | item :: rest => by
    simp [item.writable_iff, itemsWritable_iff rest, or_imp, forall_and, and_and_and_comm]
termination_by structural items => items

theorem entriesWritable_iff : (es : List (String × Tag)) →
    (EntriesWritable es ↔
      (∀ s ∈ entriesTexts es, TextWritable s) ∧ ∀ u ∈ entriesParts es, u.Regular)
  | [] => by simp
  | (key, tag) :: rest => by
    rw [EntriesWritable, entriesTexts, entriesParts, tag.writable_iff, entriesWritable_iff rest,
      List.forall_mem_cons, List.forall_mem_append, List.forall_mem_append, and_and_and_comm]
    exact and_assoc.symm
termination_by structural es => es

end

/-- **A tree can be written if and only if its texts and its parts can**, one by one. -/
theorem Tree.writable_iff (t : Tree) :
    EntriesWritable t.entries ↔
      (∀ s ∈ t.texts, TextWritable s) ∧ ∀ part ∈ t.parts, part.Regular :=
  (Tag.compound t.entries).writable_iff

/-- What cannot be written has a text that is too long, a list of several types, or a list or an
array of too many. -/
theorem Tree.not_writable_iff (t : Tree) :
    ¬ EntriesWritable t.entries ↔
      (∃ s ∈ t.texts, ModifiedUtf8.maxBytes < ModifiedUtf8.size s) ∨
        ∃ part ∈ t.parts, ¬ part.Uniform ∨ Writer.maxCount < part.count := by
  rw [writable_iff, not_and_or]
  simp only [not_forall, exists_prop, TextWritable, Tag.Regular, Countable, not_and_or, Nat.not_le]

end Wireform.Nbt
