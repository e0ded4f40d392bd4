import Wireform.Nbt.Tag

/-!
# Trees in order

The keys of a compound ascend, each key once, as the keys of a map do, and so do those of every
compound inside it. Putting a tag in and taking a key out keep the order. A `Tree` carries it: what
is read, written and kept in values is in order, whichever way it came about.
-/

namespace Wireform.Nbt

/-- Keys ascend, each key once. -/
def Ascending (c : Compound) : Prop := c.Pairwise (·.1 < ·.1)

mutual

/-- The keys of every compound in a tag ascend. -/
def Tag.Ordered : Tag → Prop
  | .list items => ItemsOrdered items
  | .compound entries => Ascending entries ∧ EntriesOrdered entries
  | _ => True
termination_by structural t => t

def ItemsOrdered : List Tag → Prop
  | [] => True
  | item :: rest => item.Ordered ∧ ItemsOrdered rest
termination_by structural items => items

def EntriesOrdered : List (String × Tag) → Prop
  | [] => True
  | (_, tag) :: rest => tag.Ordered ∧ EntriesOrdered rest
termination_by structural entries => entries

end

/-- The keys of a compound and of every compound inside it ascend. -/
def Compound.Ordered (c : Compound) : Prop := (Tag.compound c).Ordered

@[simp] theorem itemsOrdered_iff {items : List Tag} :
    ItemsOrdered items ↔ ∀ item ∈ items, item.Ordered := by
  induction items with
  | nil => simp [ItemsOrdered]
  | cons item rest ih => rw [ItemsOrdered, ih, List.forall_mem_cons]

namespace Compound

variable {key : String} {tag : Tag} {e : String × Tag} {c : Compound}

@[simp] theorem entriesOrdered_iff : ∀ {c : Compound}, EntriesOrdered c ↔ ∀ e ∈ c, e.2.Ordered
  | [] => by simp [EntriesOrdered]
  | (key, tag) :: rest => by rw [EntriesOrdered, entriesOrdered_iff, List.forall_mem_cons]

theorem ordered_iff : c.Ordered ↔ Ascending c ∧ ∀ e ∈ c, e.2.Ordered := by
  rw [Compound.Ordered, Tag.Ordered, entriesOrdered_iff]

@[simp] theorem ordered_nil : Ordered [] := ⟨List.Pairwise.nil, trivial⟩

/-! ### Putting in and taking out -/

theorem mem_insert : ∀ {c : Compound}, e ∈ insert key tag c → e = (key, tag) ∨ e ∈ c
  | [], h => .inl (List.mem_singleton.mp h)
  | (k, t) :: rest, h => by
    unfold insert at h
    split at h
    · exact List.mem_cons.mp h
    · split at h
      · exact (List.mem_cons.mp h).imp_right (List.mem_cons_of_mem _)
      · rcases List.mem_cons.mp h with rfl | h
        · exact .inr List.mem_cons_self
        · exact (mem_insert h).imp_right (List.mem_cons_of_mem _)

theorem ascending_insert (key : String) (tag : Tag) :
    ∀ {c : Compound}, Ascending c → Ascending (insert key tag c)
  | [], _ => List.pairwise_singleton _ _
  | (k, t) :: rest, h => by
    obtain ⟨hk, hrest⟩ := List.pairwise_cons.mp h
    unfold insert
    split
    case isTrue hlt =>
      refine List.pairwise_cons.mpr ⟨fun e he => ?_, h⟩
      rcases List.mem_cons.mp he with rfl | he
      · exact hlt
      · exact String.lt_trans hlt (hk e he)
    case isFalse hnot =>
      split
      case isTrue heq =>
        subst heq
        exact List.pairwise_cons.mpr ⟨hk, hrest⟩
      case isFalse hne =>
        refine List.pairwise_cons.mpr ⟨fun e he => ?_, ascending_insert key tag hrest⟩
        rcases mem_insert he with rfl | he
        · refine Decidable.byContradiction fun hle => hne ?_
          exact String.le_antisymm (String.not_lt.mp hle) (String.not_lt.mp hnot)
        · exact hk e he

/-- **Putting a tag in keeps the order.** -/
theorem ordered_insert (hc : c.Ordered) (ht : tag.Ordered) : (insert key tag c).Ordered := by
  rw [ordered_iff] at hc ⊢
  refine ⟨ascending_insert key tag hc.1, fun e he => ?_⟩
  rcases mem_insert he with rfl | he
  · exact ht
  · exact hc.2 e he

/-- **Taking a key out keeps the order.** -/
theorem ordered_erase (hc : c.Ordered) : (erase key c).Ordered := by
  rw [ordered_iff] at hc ⊢
  exact ⟨hc.1.filter _, fun e he => hc.2 e (List.mem_filter.mp he).1⟩

theorem ordered_foldl_insert {es : List (String × Tag)} (hes : ∀ e ∈ es, e.2.Ordered) :
    ∀ {c : Compound}, c.Ordered → (es.foldl (fun c (key, tag) => insert key tag c) c).Ordered := by
  induction es with
  | nil => exact id
  | cons e es ih =>
    obtain ⟨he, hes⟩ := List.forall_mem_cons.mp hes
    exact fun hc => ih hes (ordered_insert hc he)

theorem ordered_ofList {es : List (String × Tag)} (hes : ∀ e ∈ es, e.2.Ordered) :
    (ofList es).Ordered := ordered_foldl_insert hes ordered_nil

end Compound

/-! ### Trees -/

/-- A compound in order. -/
@[ext]
structure Tree where
  entries : Compound
  ordered : entries.Ordered

mutual

/-- A tag with every compound put in order, of equal keys the last. -/
def Tag.sorted : Tag → Tag
  | .list items => .list (sortedItems items)
  | .compound entries => .compound (Compound.ofList (sortedEntries entries))
  | t => t
termination_by structural t => t

def sortedItems : List Tag → List Tag
  | [] => []
  | item :: rest => item.sorted :: sortedItems rest
termination_by structural items => items

def sortedEntries : List (String × Tag) → List (String × Tag)
  | [] => []
  | (key, tag) :: rest => (key, tag.sorted) :: sortedEntries rest
termination_by structural entries => entries

end

mutual

theorem Tag.ordered_sorted : (t : Tag) → t.sorted.Ordered
  | .list items => itemsOrdered_iff.mpr (ordered_sortedItems items)
  | .compound entries => Compound.ordered_ofList (ordered_sortedEntries entries)
  | .byte _ | .short _ | .int _ | .long _ | .float _ | .double _ | .byteArray _ | .text _
  | .intArray _ | .longArray _ => trivial
termination_by structural t => t

theorem ordered_sortedItems : (items : List Tag) → ∀ item ∈ sortedItems items, item.Ordered
  | [] => nofun
  | item :: rest => List.forall_mem_cons.mpr ⟨item.ordered_sorted, ordered_sortedItems rest⟩
termination_by structural items => items

theorem ordered_sortedEntries : (es : List (String × Tag)) → ∀ e ∈ sortedEntries es, e.2.Ordered
  | [] => nofun
  | (_, tag) :: rest => List.forall_mem_cons.mpr ⟨tag.ordered_sorted, ordered_sortedEntries rest⟩
termination_by structural entries => entries

end

namespace Tree

/-- The tree without entries. -/
def empty : Tree := ⟨[], Compound.ordered_nil⟩

instance : Inhabited Tree := ⟨empty⟩

/-- The tree of some entries, of equal keys the last, at every level. -/
def ofList (entries : List (String × Tag)) : Tree :=
  ⟨Compound.ofList (sortedEntries entries),
    Compound.ordered_ofList (ordered_sortedEntries entries)⟩

instance : CoeOut Tree Compound := ⟨entries⟩

/-- Entries stand for the tree that is made of them. -/
instance : Coe Compound Tree := ⟨ofList⟩

instance : Coe (Option Compound) (Option Tree) := ⟨Option.map ofList⟩

end Tree

end Wireform.Nbt
