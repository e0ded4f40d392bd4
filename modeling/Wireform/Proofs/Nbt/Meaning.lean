import Wireform.Proofs.Nbt.AnyBytes
import Wireform.Proofs.Nbt.Derivation
import Wireform.Proofs.Nbt.Parts
import Mathlib.Algebra.Ring.Nat
import Mathlib.Data.Nat.Cast.Basic

/-!
# What derivations mean

A derivation and the tree that it means, measure by measure: the tree nests no deeper and costs no
more, its texts are texts of the derivation, the items of its lists share a type, and it is smaller
than the bytes, of which every tag, every element and every unit of a text takes one at least.
-/

namespace Wireform.Nbt

namespace Grammar

mutual

/-- The keys and the texts in a derivation, also those of entries whose key comes again. -/
@[simp] def Payload.texts : {k : TagType} → Payload k → List Text
  | _, .text t => [t]
  | _, .list items _ => items.texts
  | _, .compound es => es.texts
  | _, _ => []
termination_by structural _ p => p

@[simp] def Items.texts : {k : TagType} → {n : Nat} → Items k n → List Text
  | _, _, .nil => []
  | _, _, .cons item rest => item.texts ++ rest.texts
termination_by structural _ _ items => items

@[simp] def Entries.texts : Entries → List Text
  | .nil => []
  | .cons key tag rest => key :: (tag.texts ++ rest.texts)
termination_by structural es => es

end

end Grammar

/-! ### Weight -/

/-- How many there are of some tags, the elements of arrays among them and the units of some texts,
all together. -/
def weigh (parts : List Tag) (texts : List String) : Nat :=
  parts.length + (parts.map Tag.elements).sum + (texts.map Utf16.length).sum

@[simp] theorem weigh_append (parts parts' : List Tag) (texts texts' : List String) :
    weigh (parts ++ parts') (texts ++ texts') = weigh parts texts + weigh parts' texts' := by
  simp only [weigh, List.length_append, List.map_append, List.sum_append]
  omega

theorem weigh_cons {t : Tag} (h : t.elements = 0) (parts : List Tag) (texts : List String) :
    weigh (t :: parts) texts = 1 + weigh parts texts := by
  simp only [weigh, List.length_cons, List.map_cons, List.sum_cons, h]
  omega

@[simp] theorem weigh_text (parts : List Tag) (s : String) (texts : List String) :
    weigh parts (s :: texts) = Utf16.length s + weigh parts texts := by
  simp only [weigh, List.map_cons, List.sum_cons]
  omega

/-- Entry by entry. -/
theorem weigh_entries (es : List (String × Tag)) :
    weigh (entriesParts es) (entriesTexts es) =
      (es.map fun e => Utf16.length e.1 + weigh e.2.parts e.2.texts).sum := by
  induction es with
  | nil => rfl
  | cons e rest ih => simp [ih, Nat.add_assoc]

/-! ### Of equal keys the last -/

namespace Compound

variable {e : String × Tag} {es : List (String × Tag)}

theorem mem_ofList (h : e ∈ ofList es) : e ∈ es := by
  suffices hfold : ∀ (es : List (String × Tag)) (c : Compound),
      e ∈ es.foldl (fun c e => insert e.1 e.2 c) c → e ∈ c ∨ e ∈ es from
    (hfold es [] h).resolve_left List.not_mem_nil
  intro es
  induction es with
  | nil => exact fun c h => .inl h
  | cons e' es ih =>
    intro c h
    rcases ih _ h with h | h
    · rcases mem_insert h with rfl | h
      · exact .inr List.mem_cons_self
      · exact .inl h
    · exact .inr (List.mem_cons_of_mem _ h)

/-- What entries weigh together does not grow when one takes the place of another. -/
theorem sum_insert_le (weight : String × Tag → Nat) (key : String) (tag : Tag) : ∀ c : Compound,
    ((insert key tag c).map weight).sum ≤ weight (key, tag) + (c.map weight).sum
  | [] => Nat.le_refl _
  | (k, t) :: rest => by
    have ih := sum_insert_le weight key tag rest
    unfold insert
    split_ifs
    · exact Nat.le_refl _
    · simp only [List.map_cons, List.sum_cons]
      omega
    · simp only [List.map_cons, List.sum_cons]
      omega

theorem sum_ofList_le (weight : String × Tag → Nat) (es : List (String × Tag)) :
    ((ofList es).map weight).sum ≤ (es.map weight).sum := by
  suffices hfold : ∀ (es : List (String × Tag)) (c : Compound),
      ((es.foldl (fun c e => insert e.1 e.2 c) c).map weight).sum ≤
        (c.map weight).sum + (es.map weight).sum from
    Nat.le_trans (hfold es []) (Nat.le_of_eq (Nat.zero_add _))
  intro es
  induction es with
  | nil => exact fun c => Nat.le_refl _
  | cons e es ih =>
    intro c
    have h := ih (insert e.1 e.2 c)
    have hinsert : ((insert e.1 e.2 c).map weight).sum ≤ weight e + (c.map weight).sum :=
      sum_insert_le weight e.1 e.2 c
    show ((es.foldl _ (insert e.1 e.2 c)).map weight).sum ≤
      (c.map weight).sum + (weight e + (es.map weight).sum)
    omega

theorem entriesCostBy_eq (text : String → Nat) (es : List (String × Tag)) :
    entriesCostBy text es = (es.map fun e => 28 + text e.1 + e.2.costBy text).sum := by
  induction es with
  | nil => rfl
  | cons e rest ih => simp [ih]

theorem entriesCostBy_ofList_le (text : String → Nat) (es : List (String × Tag)) :
    entriesCostBy text (ofList es) ≤ entriesCostBy text es := by
  rw [entriesCostBy_eq, entriesCostBy_eq]
  exact sum_ofList_le _ es

theorem weigh_ofList_le (es : List (String × Tag)) :
    weigh (entriesParts (ofList es)) (entriesTexts (ofList es)) ≤
      weigh (entriesParts es) (entriesTexts es) := by
  rw [weigh_entries, weigh_entries]
  exact sum_ofList_le _ es

@[simp] theorem entriesHeight_le_iff {n : Nat} {es : List (String × Tag)} :
    entriesHeight es ≤ n ↔ ∀ e ∈ es, e.2.height < n := by
  induction es with
  | nil => simp
  | cons e rest ih =>
    rw [entriesHeight, Nat.max_le, ih, List.forall_mem_cons]
    exact Iff.rfl

theorem entriesHeight_ofList_le (es : List (String × Tag)) :
    entriesHeight (ofList es) ≤ entriesHeight es :=
  entriesHeight_le_iff.mpr fun e he =>
    entriesHeight_le_iff.mp (Nat.le_refl (entriesHeight es)) e (mem_ofList he)

end Compound

/-! ### What a derivation means is no larger -/

namespace Grammar

mutual

theorem Payload.height_tag_le : {k : TagType} → (p : Payload k) → p.tag.height ≤ p.height
  | _, .list items _ => items.height_tags_le
  | _, .compound es => Nat.le_trans (Compound.entriesHeight_ofList_le es.pairs) es.height_pairs_le
  | _, .byte _ | _, .short _ | _, .int _ | _, .long _ | _, .float _ | _, .double _ => Nat.le_refl 0
  | _, .byteArray _ _ | _, .text _ | _, .emptyList _ | _, .intArray _ _ | _, .longArray _ _ =>
    Nat.le_refl 0
termination_by structural _ p => p

theorem Items.height_tags_le : {k : TagType} → {n : Nat} → (items : Items k n) →
    itemsHeight items.tags ≤ items.height
  | _, _, .nil => Nat.le_refl 0
  | _, _, .cons item rest => by
    have hitem := item.height_tag_le
    have hrest := rest.height_tags_le
    rw [Items.tags, itemsHeight, Items.height]
    omega
termination_by structural _ _ items => items

theorem Entries.height_pairs_le : (es : Entries) → entriesHeight es.pairs ≤ es.height
  | .nil => Nat.le_refl 0
  | .cons key tag rest => by
    have htag := tag.height_tag_le
    have hrest := rest.height_pairs_le
    rw [Entries.pairs, entriesHeight, Entries.height]
    omega
termination_by structural es => es

end

section Cost

variable {text : String → Nat}

mutual

/-- The charge is no larger if that of no text is. -/
theorem Payload.costBy_tag_le : {k : TagType} → (p : Payload k) →
    (∀ t ∈ p.texts, text t.string ≤ t.cost) → p.tag.costBy text ≤ p.cost
  | _, .text t, h => h t List.mem_cons_self
  | _, .list (n := n) items _, h => by
    have hitems := items.costBy_tags_le h
    have hlength := items.length_tags
    show 37 + 4 * items.tags.length + itemsCostBy text items.tags ≤ 37 + 4 * (n + 1) + items.cost
    omega
  | _, .compound es, h =>
    Nat.add_le_add_left (Nat.le_trans (Compound.entriesCostBy_ofList_le text es.pairs)
      (es.costBy_pairs_le h)) 48
  | _, .byte _, _ | _, .short _, _ | _, .int _, _ | _, .long _, _ | _, .float _, _
  | _, .double _, _ | _, .byteArray _ _, _ | _, .emptyList _, _ | _, .intArray _ _, _
  | _, .longArray _ _, _ => Nat.le_refl _
termination_by structural _ p => p

theorem Items.costBy_tags_le : {k : TagType} → {n : Nat} → (items : Items k n) →
    (∀ t ∈ items.texts, text t.string ≤ t.cost) → itemsCostBy text items.tags ≤ items.cost
  | _, _, .nil, _ => Nat.le_refl 0
  | _, _, .cons item rest, h => by
    obtain ⟨hitem, hrest⟩ := List.forall_mem_append.mp h
    exact Nat.add_le_add (item.costBy_tag_le hitem) (rest.costBy_tags_le hrest)
termination_by structural _ _ items => items

theorem Entries.costBy_pairs_le : (es : Entries) → (∀ t ∈ es.texts, text t.string ≤ t.cost) →
    entriesCostBy text es.pairs ≤ es.cost
  | .nil, _ => Nat.le_refl 0
  | .cons key tag rest, h => by
    obtain ⟨hkey, h⟩ := List.forall_mem_cons.mp h
    obtain ⟨htag, hrest⟩ := List.forall_mem_append.mp h
    have h₁ := tag.costBy_tag_le htag
    have h₂ := rest.costBy_pairs_le hrest
    show 28 + text key.string + tag.tag.costBy text + entriesCostBy text rest.pairs ≤
      28 + key.cost + tag.cost + rest.cost
    omega
termination_by structural es => es

end

end Cost

mutual

/-- What is a text in the meaning is one in the derivation. -/
theorem Payload.mem_texts : {k : TagType} → (p : Payload k) →
    ∀ s ∈ p.tag.texts, ∃ t ∈ p.texts, t.string = s
  | _, .text t, s, h => ⟨t, List.mem_cons_self, (List.mem_singleton.mp h).symm⟩
  | _, .list items _, s, h => items.mem_texts s h
  | _, .compound es, s, h => by
    obtain ⟨e, he, hs⟩ := mem_entriesTexts.mp h
    exact es.mem_texts s (mem_entriesTexts.mpr ⟨e, Compound.mem_ofList he, hs⟩)
  | _, .byte _, _, h | _, .short _, _, h | _, .int _, _, h | _, .long _, _, h | _, .float _, _, h
  | _, .double _, _, h | _, .byteArray _ _, _, h | _, .emptyList _, _, h | _, .intArray _ _, _, h
  | _, .longArray _ _, _, h => absurd h List.not_mem_nil
termination_by structural _ p => p

theorem Items.mem_texts : {k : TagType} → {n : Nat} → (items : Items k n) →
    ∀ s ∈ itemsTexts items.tags, ∃ t ∈ items.texts, t.string = s
  | _, _, .nil, _, h => absurd h List.not_mem_nil
  | _, _, .cons item rest, s, h => by
    rcases List.mem_append.mp h with h | h
    · obtain ⟨t, ht, rfl⟩ := item.mem_texts s h
      exact ⟨t, List.mem_append_left _ ht, rfl⟩
    · obtain ⟨t, ht, rfl⟩ := rest.mem_texts s h
      exact ⟨t, List.mem_append_right _ ht, rfl⟩
termination_by structural _ _ items => items

theorem Entries.mem_texts : (es : Entries) →
    ∀ s ∈ entriesTexts es.pairs, ∃ t ∈ es.texts, t.string = s
  | .nil, _, h => absurd h List.not_mem_nil
  | .cons key tag rest, s, h => by
    rcases List.mem_cons.mp h with rfl | h
    · exact ⟨key, List.mem_cons_self, rfl⟩
    rcases List.mem_append.mp h with h | h
    · obtain ⟨t, ht, rfl⟩ := tag.mem_texts s h
      exact ⟨t, List.mem_cons_of_mem _ (List.mem_append_left _ ht), rfl⟩
    · obtain ⟨t, ht, rfl⟩ := rest.mem_texts s h
      exact ⟨t, List.mem_cons_of_mem _ (List.mem_append_right _ ht), rfl⟩
termination_by structural es => es

end

/-! ### What a derivation means can be written but for its texts -/

mutual

/-- The items of every list share a type, and every count fits. -/
theorem Payload.regular_parts : {k : TagType} → (p : Payload k) → ∀ u ∈ p.tag.parts, u.Regular
  | _, .list items hn => by
    refine List.forall_mem_cons.mpr ⟨⟨fun s hs t ht => ?_, ?_⟩, items.regular_parts⟩
    · rw [items.id_of_mem_tags s hs, items.id_of_mem_tags t ht]
    · rwa [Tag.count, items.length_tags]
  | _, .compound es => by
    refine List.forall_mem_cons.mpr ⟨⟨trivial, Nat.zero_le _⟩, fun u hu => ?_⟩
    obtain ⟨e, he, hu⟩ := mem_entriesParts.mp hu
    exact es.regular_parts u (mem_entriesParts.mpr ⟨e, Compound.mem_ofList he, hu⟩)
  | _, .byteArray _ hn | _, .intArray _ hn | _, .longArray _ hn =>
    List.forall_mem_singleton.mpr ⟨trivial, hn⟩
  | _, .emptyList _ => List.forall_mem_singleton.mpr ⟨nofun, Nat.zero_le _⟩
  | _, .byte _ | _, .short _ | _, .int _ | _, .long _ | _, .float _ | _, .double _ | _, .text _ =>
    List.forall_mem_singleton.mpr ⟨trivial, Nat.zero_le _⟩
termination_by structural _ p => p

theorem Items.regular_parts : {k : TagType} → {n : Nat} → (items : Items k n) →
    ∀ u ∈ itemsParts items.tags, u.Regular
  | _, _, .nil => nofun
  | _, _, .cons item rest => List.forall_mem_append.mpr ⟨item.regular_parts, rest.regular_parts⟩
termination_by structural _ _ items => items

theorem Entries.regular_parts : (es : Entries) → ∀ u ∈ entriesParts es.pairs, u.Regular
  | .nil => nofun
  | .cons _ tag rest => List.forall_mem_append.mpr ⟨tag.regular_parts, rest.regular_parts⟩
termination_by structural es => es

end

/-! ### What a derivation means is smaller than its bytes -/

/-- Units of a text come from a byte each at least. -/
theorem Text.length_string_le (t : Text) : Utf16.length t.string ≤ t.content.length :=
  ModifiedUtf8.length_lossy_groups_le t.groups

mutual

/-- Every tag, every element and every unit takes a byte. -/
theorem Payload.weigh_le : {k : TagType} → (p : Payload k) →
    weigh p.tag.parts p.tag.texts ≤ p.bytes.length
  | _, .byte _ | _, .short _ | _, .int _ | _, .long _ | _, .float _ | _, .double _ =>
    Nat.le_of_ble_eq_true rfl
  | _, .byteArray vs _ => by
    show 1 + vs.length ≤ (Bytes.ofNat 4 vs.length ++ vs.map (·.toUInt8)).length
    rw [List.length_append, Bytes.length_ofNat, List.length_map]
    omega
  | _, .intArray vs _ => by
    show 1 + vs.length ≤
      (Bytes.ofNat 4 vs.length ++ vs.flatMap fun v => Bytes.ofNat 4 v.toUInt32.toNat).length
    rw [List.length_append, Bytes.length_ofNat, Bytes.length_flatMap_ofNat]
    omega
  | _, .longArray vs _ => by
    show 1 + vs.length ≤
      (Bytes.ofNat 4 vs.length ++ vs.flatMap fun v => Bytes.ofNat 8 v.toUInt64.toNat).length
    rw [List.length_append, Bytes.length_ofNat, Bytes.length_flatMap_ofNat]
    omega
  | _, .text t => by
    have ht := t.length_string_le
    show 1 + Utf16.length t.string ≤ (Bytes.ofNat 2 t.content.length ++ t.content).length
    rw [List.length_append, Bytes.length_ofNat]
    omega
  | _, .emptyList _ => Nat.le_add_left 1 _
  | _, .list (k := k) (n := n) items _ => by
    have hitems := items.weigh_le
    show weigh (.list items.tags :: itemsParts items.tags) (itemsTexts items.tags) ≤
      (k.id :: (Bytes.ofNat 4 (n + 1) ++ items.bytes)).length
    rw [weigh_cons rfl, List.length_cons, List.length_append, Bytes.length_ofNat]
    omega
  | _, .compound es => by
    have hes := es.weigh_lt
    have hle := Compound.weigh_ofList_le es.pairs
    show weigh (.compound _ :: entriesParts (Compound.ofList es.pairs)) (entriesTexts _) ≤
      es.bytes.length
    rw [weigh_cons rfl]
    omega
termination_by structural _ p => p

theorem Items.weigh_le : {k : TagType} → {n : Nat} → (items : Items k n) →
    weigh (itemsParts items.tags) (itemsTexts items.tags) ≤ items.bytes.length
  | _, _, .nil => Nat.le_refl 0
  | _, _, .cons item rest => by
    have hitem := item.weigh_le
    have hrest := rest.weigh_le
    rw [Items.tags, itemsParts, itemsTexts, Items.bytes, weigh_append, List.length_append]
    exact Nat.add_le_add hitem hrest
termination_by structural _ _ items => items

/-- The end mark is one byte more. -/
theorem Entries.weigh_lt : (es : Entries) →
    weigh (entriesParts es.pairs) (entriesTexts es.pairs) < es.bytes.length
  | .nil => Nat.zero_lt_one
  | .cons key tag rest => by
    have hkey := key.length_string_le
    have htag := tag.weigh_le
    have hrest := rest.weigh_lt
    rw [Entries.pairs, entriesParts, entriesTexts, weigh_text, weigh_append, Entries.bytes,
      Text.bytes]
    simp only [List.length_cons, List.length_append, Bytes.length_ofNat]
    omega
termination_by structural es => es

end

/-! ### Trees -/

namespace Root

theorem height_tree_le (d : Root) : d.tree.height ≤ d.height :=
  (Payload.compound d.entries).height_tag_le

theorem regular_parts (d : Root) : ∀ t ∈ d.tree.parts, t.Regular :=
  (Payload.compound d.entries).regular_parts

theorem weigh_tree_le (d : Root) : weigh d.tree.parts d.tree.texts ≤ d.bytes.length := by
  have hle : weigh d.tree.parts d.tree.texts ≤ d.entries.bytes.length :=
    (Payload.compound d.entries).weigh_le
  rw [bytes, List.length_cons, List.length_append]
  omega

/-- A charge that did not stop at the largest size covers the estimate: a text is charged by its
bytes, of which there are no fewer than units. -/
theorem estimate_tree_le (d : Root) (h : d.charge < sizeMax) : d.tree.estimate ≤ d.charge := by
  have hcost : (Tag.compound d.tree.entries).costBy (fun s => 36 + 2 * Utf16.length s) ≤
      48 + d.entries.cost := by
    refine (Payload.compound d.entries).costBy_tag_le fun t _ => ?_
    have hlength := t.length_string_le
    rw [Text.cost]
    omega
  have hname : 36 ≤ d.name.cost := Nat.le_add_right _ _
  rw [Tree.estimate]
  rw [charge, satAdd] at h ⊢
  omega

end Root

end Grammar

end Wireform.Nbt
