import Wireform.Nbt.Tree
import Wireform.Limits
import Wireform.Proofs.Text.ModifiedUtf8

/-!
# Measures of trees

What reading a tree is charged in all, how deep a tree nests, and how entries in order are put
together: a key above all others goes to the end, so entries in order are left as they are.
-/

namespace Wireform.Nbt

/-! ### Charge -/

/-- A text: 36, and twice its written length. -/
def textCost (s : String) : Nat := 36 + 2 * ModifiedUtf8.size s

mutual

/-- What reading a tag is charged, without a bound. -/
@[simp] def Tag.cost : Tag → Nat
  | .byte _ => 9
  | .short _ => 10
  | .int _ => 12
  | .long _ => 16
  | .float _ => 12
  | .double _ => 16
  | .byteArray vs => 24 + vs.length
  | .text s => textCost s
  | .list items => 37 + 4 * items.length + itemsCost items
  | .compound entries => 48 + entriesCost entries
  | .intArray vs => 24 + 4 * vs.length
  | .longArray vs => 24 + 8 * vs.length
termination_by structural t => t

/-- What reading the items of a list is charged. -/
@[simp] def itemsCost : List Tag → Nat
  | [] => 0
  | item :: rest => item.cost + itemsCost rest
termination_by structural items => items

/-- What reading entries is charged: 28 for each, its key and its tag. -/
@[simp] def entriesCost : List (String × Tag) → Nat
  | [] => 0
  | (key, tag) :: rest => 28 + textCost key + tag.cost + entriesCost rest
termination_by structural entries => entries

end

mutual

/-- What reading a tag is charged if a text `s` is charged `text s`. -/
@[simp] def Tag.costBy (text : String → Nat) : Tag → Nat
  | .text s => text s
  | .list items => 37 + 4 * items.length + itemsCostBy text items
  | .compound entries => 48 + entriesCostBy text entries
  | t => t.cost
termination_by structural t => t

@[simp] def itemsCostBy (text : String → Nat) : List Tag → Nat
  | [] => 0
  | item :: rest => item.costBy text + itemsCostBy text rest
termination_by structural items => items

@[simp] def entriesCostBy (text : String → Nat) : List (String × Tag) → Nat
  | [] => 0
  | (key, tag) :: rest => 28 + text key + tag.costBy text + entriesCostBy text rest
termination_by structural entries => entries

end

mutual

theorem Tag.costBy_textCost : (t : Tag) → t.costBy textCost = t.cost
  | .list items => by simp [itemsCostBy_textCost items]
  | .compound entries => by simp [entriesCostBy_textCost entries]
  | .byte _ | .short _ | .int _ | .long _ | .float _ | .double _ | .byteArray _ | .text _
  | .intArray _ | .longArray _ => rfl
termination_by structural t => t

theorem itemsCostBy_textCost : (items : List Tag) → itemsCostBy textCost items = itemsCost items
  | [] => rfl
  | item :: rest => by
    simp [item.costBy_textCost, itemsCostBy_textCost rest]
termination_by structural items => items

theorem entriesCostBy_textCost : (entries : List (String × Tag)) →
    entriesCostBy textCost entries = entriesCost entries
  | [] => rfl
  | (key, tag) :: rest => by
    simp [tag.costBy_textCost, entriesCostBy_textCost rest]
termination_by structural entries => entries

end

/-- What reading a tree is charged: 36 for the name of the root, and its compound.  The sum stays at
the largest size once it gets there. -/
def Tree.charge (t : Tree) : Nat := satAdd 36 (Tag.compound t.entries).cost

/-- What a tree is estimated to take in memory: charged like reading it, but for twice the units of
each text, not for twice its written length. -/
def Tree.estimate (t : Tree) : Nat :=
  36 + (Tag.compound t.entries).costBy fun s => 36 + 2 * Utf16.length s

/-! ### Nesting -/

mutual

/-- How deep a tag nests: items and entries are one level deeper than what they are in. -/
@[simp] def Tag.height : Tag → Nat
  | .list items => itemsHeight items
  | .compound entries => entriesHeight entries
  | _ => 0
termination_by structural t => t

@[simp] def itemsHeight : List Tag → Nat
  | [] => 0
  | item :: rest => max (item.height + 1) (itemsHeight rest)
termination_by structural items => items

@[simp] def entriesHeight : List (String × Tag) → Nat
  | [] => 0
  | (_, tag) :: rest => max (tag.height + 1) (entriesHeight rest)
termination_by structural entries => entries

end

/-- How deep a tree nests, the root at depth zero. -/
def Tree.height (t : Tree) : Nat := entriesHeight t.entries

/-! ### Order -/

namespace Compound

/-- A key above all others goes to the end. -/
theorem insert_of_lt {key : String} {tag : Tag} :
    ∀ {c : Compound}, (∀ e ∈ c, e.1 < key) → insert key tag c = c ++ [(key, tag)]
  | [], _ => rfl
  | (k, t) :: rest, h => by
    have hk : k < key := h (k, t) (by simp)
    have hne : key ≠ k := by
      rintro rfl
      exact String.lt_irrefl _ hk
    rw [insert, if_neg (String.lt_asymm hk), if_neg hne,
      insert_of_lt (fun e he => h e (List.mem_cons_of_mem _ he)), List.cons_append]

/-- Entries with ascending keys are what is made of them. -/
theorem ofList_of_ascending {c : Compound} (h : Ascending c) : ofList c = c := by
  suffices hfold : ∀ rest acc : Compound, Ascending (acc ++ rest) →
      rest.foldl (fun c e => insert e.1 e.2 c) acc = acc ++ rest from hfold c [] h
  intro rest
  induction rest with
  | nil => simp
  | cons e rest ih =>
    intro acc hasc
    have hlt : ∀ e' ∈ acc, e'.1 < e.1 := fun e' he' =>
      (List.pairwise_append.mp hasc).2.2 e' he' e List.mem_cons_self
    show rest.foldl _ (insert e.1 e.2 acc) = _
    rw [insert_of_lt hlt, ih]
    · simp
    · simpa using hasc

end Compound

mutual

/-- What is in order is left as it is. -/
theorem Tag.sorted_of_ordered : (t : Tag) → t.Ordered → t.sorted = t
  | .list items, h => by rw [Tag.sorted, sortedItems_of_ordered items h]
  | .compound entries, h => by
    rw [Tag.sorted, sortedEntries_of_ordered entries h.2, Compound.ofList_of_ascending h.1]
  | .byte _, _ | .short _, _ | .int _, _ | .long _, _ | .float _, _ | .double _, _
  | .byteArray _, _ | .text _, _ | .intArray _, _ | .longArray _, _ => rfl
termination_by structural t => t

theorem sortedItems_of_ordered : (items : List Tag) → ItemsOrdered items → sortedItems items = items
  | [], _ => rfl
  | item :: rest, h => by
    rw [sortedItems, item.sorted_of_ordered h.1, sortedItems_of_ordered rest h.2]
termination_by structural items => items

theorem sortedEntries_of_ordered :
    (entries : List (String × Tag)) → EntriesOrdered entries → sortedEntries entries = entries
  | [], _ => rfl
  | (key, tag) :: rest, h => by
    rw [sortedEntries, tag.sorted_of_ordered h.1, sortedEntries_of_ordered rest h.2]
termination_by structural entries => entries

end

/-- A tree is made of its entries. -/
@[simp] theorem Tree.ofList_entries (t : Tree) : ofList t.entries = t := by
  ext1
  show Compound.ofList (sortedEntries t.entries) = t.entries
  rw [sortedEntries_of_ordered _ t.ordered.2, Compound.ofList_of_ascending t.ordered.1]

end Wireform.Nbt
