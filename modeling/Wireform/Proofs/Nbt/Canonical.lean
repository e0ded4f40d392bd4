import Wireform.Proofs.Nbt.Parts
import Wireform.Proofs.Nbt.RoundTrip
import Wireform.Proofs.Text.Utf8

/-!
# One form for each compound

A compound comes about by putting tags in and taking keys out, and so do the compounds in it.  What
it holds under a key is what the last edit of that key left there.  Compounds that hold the same
under every key are the same list, however they came about, and are written alike: keys in the order
of their bytes, each once.  No two compounds are written alike otherwise, since what is written
reads back.
-/

namespace Wireform.Nbt

/-! ### How tags come about -/

/-- Nothing is put into the tag. -/
def Tag.IsLeaf : Tag → Prop
  | list _ => False
  | compound _ => False
  | _ => True

mutual

/-- How a tag comes about. -/
inductive Recipe where
  | leaf (t : Tag) (h : t.IsLeaf)
  | list (items : List Recipe)
  /-- The edits of the empty compound, the first one first. -/
  | compound (edits : List Edit)

/-- A change of a compound. -/
inductive Edit where
  | insert (key : String) (value : Recipe)
  | erase (key : String)

end

mutual

/-- The tag that comes about. -/
@[simp] def Recipe.tag : Recipe → Tag
  | .leaf t _ => t
  | .list items => .list (tagsOf items)
  | .compound edits => .compound (runEdits edits [])
termination_by structural r => r

def tagsOf : List Recipe → List Tag
  | [] => []
  | item :: rest => item.tag :: tagsOf rest
termination_by structural items => items

/-- Carries a change out. -/
@[simp] def Edit.run : Edit → Compound → Compound
  | .insert key value, c => Compound.insert key value.tag c
  | .erase key, c => Compound.erase key c
termination_by structural e => e

@[simp] def runEdits : List Edit → Compound → Compound
  | [], c => c
  | e :: rest, c => runEdits rest (e.run c)
termination_by structural es => es

end

/-- The edits of a compound, the first one first. -/
abbrev History := List Edit

/-- The compound that comes about. -/
def History.compound (h : History) : Compound := runEdits h []

namespace Edit

/-- The key that is put in or taken out. -/
def key : Edit → String
  | insert key _ => key
  | erase key => key

/-- What is left under the key. -/
def value? : Edit → Option Recipe
  | insert _ value => some value
  | erase _ => none

end Edit

/-- What is left under a key: what the last edit of that key left there. -/
def History.value? (key : String) (h : History) : Option Recipe :=
  (h.reverse.find? (·.key = key)).bind Edit.value?

/-- Two ways to come about that end with the same: the same leaf, the same in every place of a list,
the same under every key of a compound. -/
inductive Recipe.Same : Recipe → Recipe → Prop where
  | leaf (t : Tag) (h : t.IsLeaf) : Same (.leaf t h) (.leaf t h)
  | list {items items' : List Recipe} (hlength : items.length = items'.length)
    (h : ∀ (i : Nat) r r', items[i]? = some r → items'[i]? = some r' → Same r r') :
    Same (.list items) (.list items')
  | compound {es es' : History} (hkeys : ∀ key, es.value? key = none ↔ es'.value? key = none)
    (h : ∀ key r r', es.value? key = some r → es'.value? key = some r' → Same r r') :
    Same (.compound es) (.compound es')

/-! ### Compounds as maps -/

namespace Compound

variable {c d : Compound} {key : String} {tag : Tag}

@[simp, grind =] theorem get?_erase (key key' : String) (c : Compound) :
    get? key (erase key' c) = if key' = key then none else get? key c := by
  induction c with
  | nil => simp [erase, get?]
  | cons e rest ih =>
    obtain ⟨k, t⟩ := e
    rw [erase] at ih
    by_cases h : k = key'
    · rw [erase, List.filter_cons_of_neg (by simpa using h), ih, get?_cons, h]
      split_ifs <;> rfl
    · rw [erase, List.filter_cons_of_pos (by simpa using h), get?_cons, get?_cons, ih]
      grind

theorem get?_eq_some_iff (hc : Ascending c) : get? key c = some tag ↔ (key, tag) ∈ c := by
  induction c with
  | nil => simp [get?]
  | cons e rest ih =>
    obtain ⟨hfirst, hrest⟩ := List.pairwise_cons.mp hc
    obtain ⟨k, t⟩ := e
    rw [get?_cons, List.mem_cons, ← ih hrest]
    by_cases h : k = key
    · subst h
      have hnone : get? k rest ≠ some tag := fun hsome =>
        String.lt_irrefl k (hfirst _ ((ih hrest).mp hsome))
      simp [hnone, eq_comm]
    · simp [h, Ne.symm h]

/-- **A compound is the map it is of.** -/
theorem eq_of_get? (hc : Ascending c) (hd : Ascending d) (h : ∀ key, get? key c = get? key d) :
    c = d := by
  have hnodup {c : Compound} (hc : Ascending c) : c.Nodup := by
    refine hc.imp ?_
    rintro e f hlt rfl
    exact String.lt_irrefl e.1 hlt
  have hperm : c.Perm d := by
    rw [List.perm_ext_iff_of_nodup (hnodup hc) (hnodup hd)]
    intro e
    rw [← get?_eq_some_iff hc, ← get?_eq_some_iff hd, h]
  exact hperm.eq_of_pairwise (fun e f _ _ hlt hgt => absurd hgt (String.lt_asymm hlt)) hc hd

end Compound

/-! ### What comes about is ordered -/

mutual

theorem Recipe.ordered_tag : (r : Recipe) → r.tag.Ordered
  | .leaf t h => by cases t <;> trivial
  | .list items => ordered_tagsOf items
  | .compound edits => ordered_runEdits edits Compound.ordered_nil
termination_by structural r => r

theorem ordered_tagsOf : (items : List Recipe) → ItemsOrdered (tagsOf items)
  | [] => trivial
  | item :: rest => ⟨item.ordered_tag, ordered_tagsOf rest⟩
termination_by structural items => items

theorem Edit.ordered_run : (e : Edit) → {c : Compound} → c.Ordered → (e.run c).Ordered
  | .insert _ value, _, hc => Compound.ordered_insert hc value.ordered_tag
  | .erase _, _, hc => Compound.ordered_erase hc
termination_by structural e => e

/-- Every edit keeps the order, and so do all of them. -/
theorem ordered_runEdits : (es : List Edit) → {c : Compound} → c.Ordered → (runEdits es c).Ordered
  | [], _, hc => hc
  | e :: rest, _, hc => ordered_runEdits rest (e.ordered_run hc)
termination_by structural es => es

end

theorem History.ordered_compound (h : History) : h.compound.Ordered :=
  ordered_runEdits h Compound.ordered_nil

theorem History.ascending_compound (h : History) : Ascending h.compound := h.ordered_compound.1

/-- The tree that comes about. -/
def History.tree (h : History) : Tree := ⟨h.compound, h.ordered_compound⟩

/-! ### What comes about is what the last edits left -/

theorem Edit.get?_run (key : String) (e : Edit) (c : Compound) :
    Compound.get? key (e.run c) =
      if e.key = key then e.value?.map Recipe.tag else Compound.get? key c := by
  cases e with
  | insert key' value => exact Compound.get?_insert key key' value.tag c
  | erase key' => exact Compound.get?_erase key key' c

@[simp] theorem runEdits_concat (es : List Edit) (e : Edit) (c : Compound) :
    runEdits (es ++ [e]) c = e.run (runEdits es c) := by
  induction es generalizing c with
  | nil => rfl
  | cons e' es ih => exact ih _

namespace History

@[simp] theorem value?_concat (key : String) (h : History) (e : Edit) :
    value? key (h ++ [e]) = if e.key = key then e.value? else h.value? key := by
  rw [value?, List.reverse_append, List.reverse_singleton, List.singleton_append, List.find?_cons]
  by_cases hkey : e.key = key <;> simp [hkey, value?]

/-- **What a compound holds under a key** is what the last edit of that key left there. -/
@[simp, grind =] theorem get?_compound (key : String) (h : History) :
    Compound.get? key h.compound = (h.value? key).map Recipe.tag := by
  induction h using List.reverseRecOn with
  | nil => rfl
  | append_singleton h e ih =>
    rw [compound, runEdits_concat, Edit.get?_run, value?_concat, ← compound, ih]
    split_ifs <;> rfl

theorem mem_compound_iff {h : History} {key : String} {tag : Tag} :
    (key, tag) ∈ h.compound ↔ ∃ r, h.value? key = some r ∧ r.tag = tag := by
  rw [← Compound.get?_eq_some_iff h.ascending_compound, get?_compound, Option.map_eq_some_iff]

end History

/-! ### The same in the end -/

@[simp] theorem tagsOf_eq_map : ∀ items : List Recipe, tagsOf items = items.map Recipe.tag
  | [] => rfl
  | item :: rest => by rw [tagsOf, tagsOf_eq_map rest, List.map_cons]

/-- **What ends with the same is the same.** -/
theorem Recipe.Same.tag_eq {r r' : Recipe} (h : r.Same r') : r.tag = r'.tag := by
  induction h with
  | leaf t h => rfl
  | @list items items' hlength _ ih =>
    rw [Recipe.tag, Recipe.tag, tagsOf_eq_map, tagsOf_eq_map]
    apply congrArg Tag.list
    apply List.ext_getElem (by simpa using hlength)
    intro i hi hi'
    rw [List.length_map] at hi hi'
    rw [List.getElem_map, List.getElem_map]
    exact ih i _ _ (List.getElem?_eq_getElem hi) (List.getElem?_eq_getElem hi')
  | @compound es es' hkeys _ ih =>
    rw [Recipe.tag, Recipe.tag]
    apply congrArg Tag.compound
    apply Compound.eq_of_get? es.ascending_compound es'.ascending_compound
    intro key
    show Compound.get? key es.compound = Compound.get? key es'.compound
    rw [History.get?_compound, History.get?_compound]
    cases hr : es.value? key with
    | none => rw [(hkeys key).mp hr]
    | some r =>
      cases hr' : es'.value? key with
      | none => rw [(hkeys key).mpr hr'] at hr; cases hr
      | some r' => exact congrArg some (ih key r r' hr hr')

/-- What an edit put in is a part of the history. -/
theorem History.sizeOf_lt_of_value? {h : History} {key : String} {r : Recipe}
    (hr : h.value? key = some r) : sizeOf r < sizeOf h := by
  obtain ⟨e, he, hvalue⟩ := Option.bind_eq_some_iff.mp hr
  have hmem : e ∈ h := List.mem_reverse.mp (List.mem_of_find?_eq_some he)
  have hlt := List.sizeOf_lt_of_mem hmem
  cases e with
  | erase key' => cases hvalue
  | insert key' value =>
    cases hvalue
    rw [Edit.insert.sizeOf_spec] at hlt
    omega

/-- What is the same ended with the same: by recursion on the one that is taken apart. -/
theorem Recipe.same_of_tag_eq : (r r' : Recipe) → r.tag = r'.tag → r.Same r'
  | .leaf t ht, .leaf t' ht', h => by
    obtain rfl : t = t' := h
    exact .leaf t ht
  | .leaf t ht, .list _, h | .leaf t ht, .compound _, h => by
    obtain rfl : t = _ := h
    exact ht.elim
  | .list _, .leaf t ht, h | .compound _, .leaf t ht, h => by
    obtain rfl : _ = t := h
    exact ht.elim
  | .list items, .list items', h => by
    have htags : items.map Recipe.tag = items'.map Recipe.tag := by
      rw [← tagsOf_eq_map, ← tagsOf_eq_map]
      exact Tag.list.inj h
    refine .list (by simpa using congrArg List.length htags) fun i r r' hr hr' => ?_
    have htag := congrArg (·[i]?) htags
    simp only [List.getElem?_map, hr, hr', Option.map_some, Option.some.injEq] at htag
    have hlt := List.sizeOf_lt_of_mem (List.mem_of_getElem? hr)
    exact same_of_tag_eq r r' htag
  | .compound edits, .compound edits', h => by
    have hget (key : String) : (History.value? key edits).map Recipe.tag =
        (History.value? key edits').map Recipe.tag := by
      rw [← History.get?_compound, ← History.get?_compound]
      exact congrArg _ (Tag.compound.inj h)
    refine .compound (fun key => ?_) fun key r r' hr hr' => ?_
    · rw [← Option.map_eq_none_iff (f := Recipe.tag), hget, Option.map_eq_none_iff]
    · have htag := hget key
      simp only [hr, hr', Option.map_some, Option.some.injEq] at htag
      have hlt := History.sizeOf_lt_of_value? hr
      exact same_of_tag_eq r r' htag
termination_by r => sizeOf r
decreasing_by
  · rw [Recipe.list.sizeOf_spec]
    omega
  · rw [Recipe.compound.sizeOf_spec]
    omega

/-- **To end with the same is to be the same.** -/
@[simp] theorem Recipe.same_iff {r r' : Recipe} : r.Same r' ↔ r.tag = r'.tag :=
  ⟨Same.tag_eq, same_of_tag_eq r r'⟩

/-! ### Everything that is ordered comes about -/

mutual

theorem Tag.exists_recipe : (t : Tag) → t.Ordered → ∃ r : Recipe, r.tag = t
  | .byte v, _ => ⟨.leaf (.byte v) trivial, rfl⟩
  | .short v, _ => ⟨.leaf (.short v) trivial, rfl⟩
  | .int v, _ => ⟨.leaf (.int v) trivial, rfl⟩
  | .long v, _ => ⟨.leaf (.long v) trivial, rfl⟩
  | .float v, _ => ⟨.leaf (.float v) trivial, rfl⟩
  | .double v, _ => ⟨.leaf (.double v) trivial, rfl⟩
  | .byteArray vs, _ => ⟨.leaf (.byteArray vs) trivial, rfl⟩
  | .text s, _ => ⟨.leaf (.text s) trivial, rfl⟩
  | .intArray vs, _ => ⟨.leaf (.intArray vs) trivial, rfl⟩
  | .longArray vs, _ => ⟨.leaf (.longArray vs) trivial, rfl⟩
  | .list items, ho => by
    obtain ⟨rs, hrs⟩ := exists_recipes items ho
    exact ⟨.list rs, congrArg Tag.list hrs⟩
  | .compound es, ho => by
    obtain ⟨edits, hedits⟩ := exists_edits es ho.2
    exact ⟨.compound edits,
      congrArg Tag.compound ((hedits []).trans (Compound.ofList_of_ascending ho.1))⟩
termination_by structural t => t

theorem exists_recipes : (items : List Tag) → ItemsOrdered items →
    ∃ rs : List Recipe, tagsOf rs = items
  | [], _ => ⟨[], rfl⟩
  | item :: rest, ho => by
    obtain ⟨r, hr⟩ := item.exists_recipe ho.1
    obtain ⟨rs, hrs⟩ := exists_recipes rest ho.2
    exact ⟨r :: rs, by rw [tagsOf, hr, hrs]⟩
termination_by structural items => items

theorem exists_edits : (es : List (String × Tag)) → EntriesOrdered es →
    ∃ edits : List Edit, ∀ c, runEdits edits c =
      es.foldl (fun c (key, tag) => Compound.insert key tag c) c
  | [], _ => ⟨[], fun _ => rfl⟩
  | (key, tag) :: rest, ho => by
    obtain ⟨r, rfl⟩ := tag.exists_recipe ho.1
    obtain ⟨edits, hedits⟩ := exists_edits rest ho.2
    exact ⟨.insert key r :: edits, fun c => hedits _⟩
termination_by structural es => es

end

/-- **Every tree comes about.** -/
theorem Tree.exists_history (t : Tree) : ∃ h : History, h.tree = t := by
  obtain ⟨hascending, ho⟩ := t.ordered
  obtain ⟨edits, hedits⟩ := exists_edits t.entries ho
  exact ⟨edits, Tree.ext ((hedits []).trans (Compound.ofList_of_ascending hascending))⟩

/-! ### What is written -/

mutual

/-- The order is that of every compound in a tag. -/
theorem Tag.ascending_of_mem_parts : (t : Tag) → t.Ordered →
    ∀ {es : Compound}, .compound es ∈ t.parts → Ascending es
  | .list items, ho, _, h => by
    rw [Tag.parts, List.mem_cons] at h
    rcases h with h | h
    · cases h
    · exact ascending_of_mem_itemsParts items ho h
  | .compound entries, ho, _, h => by
    rw [Tag.parts, List.mem_cons] at h
    rcases h with h | h
    · cases h
      exact ho.1
    · exact ascending_of_mem_entriesParts entries ho.2 h
  | .byte _, _, _, h | .short _, _, _, h | .int _, _, _, h | .long _, _, _, h | .float _, _, _, h
  | .double _, _, _, h | .byteArray _, _, _, h | .text _, _, _, h | .intArray _, _, _, h
  | .longArray _, _, _, h => by
    cases List.mem_singleton.mp h
termination_by structural t => t

theorem ascending_of_mem_itemsParts : (items : List Tag) → ItemsOrdered items →
    ∀ {es : Compound}, .compound es ∈ itemsParts items → Ascending es
  | [], _, _, h => absurd h List.not_mem_nil
  | item :: rest, ho, _, h => by
    rw [itemsParts, List.mem_append] at h
    rcases h with h | h
    · exact item.ascending_of_mem_parts ho.1 h
    · exact ascending_of_mem_itemsParts rest ho.2 h
termination_by structural items => items

theorem ascending_of_mem_entriesParts : (es : List (String × Tag)) → EntriesOrdered es →
    ∀ {es' : Compound}, .compound es' ∈ entriesParts es → Ascending es'
  | [], _, _, h => absurd h List.not_mem_nil
  | (_, tag) :: rest, ho, _, h => by
    rw [entriesParts, List.mem_append] at h
    rcases h with h | h
    · exact tag.ascending_of_mem_parts ho.1 h
    · exact ascending_of_mem_entriesParts rest ho.2 h
termination_by structural es => es

end

/-- **What is written for a tree tells which tree it is**: it reads back, within a budget that is
large enough for both. -/
theorem treeEncoding_injective {t u : Tree} (ht : EntriesWritable t.entries)
    (hu : EntriesWritable u.entries) (h : treeEncoding t = treeEncoding u) : t = u := by
  let budget : Budget := ⟨max t.charge u.charge, max t.height u.height⟩
  have hreadt := (decodeTree_treeEncoding ht budget []).1 ⟨le_max_left _ _, le_max_left _ _⟩
  have hreadu := (decodeTree_treeEncoding hu budget []).1 ⟨le_max_right _ _, le_max_right _ _⟩
  rw [h, hreadu] at hreadt
  cases hreadt
  rfl

end Wireform.Nbt

namespace Wireform.Buffer

open Nbt

@[simp] theorem writeTree_eq_ok_iff {t : Tree} {b b' : Buffer} :
    writeTree t b = .ok () b' ↔
      EntriesWritable t.entries ∧ b' = b.extend (treeEncoding t) := by
  rw [writeTree, Action.ofEmission_eq_ok_iff, emit_fault?_eq_none_iff]
  refine and_congr_right fun hw => ?_
  rw [emit_of_writable hw]

/-- **Compounds have one form.**  Histories that end with the same are written alike, in success and
in failure.  What is written are the entries that the history ends with, and in every compound of
the tree the keys ascend in the order of their bytes, so that each is there once.  Compounds that
are written as the same bytes are the same. -/
theorem one_form (h h' : History) :
    (Recipe.Same (.compound h) (.compound h') →
      ∀ b, writeTree h.tree b = writeTree h'.tree b) ∧
    (∀ b b', writeTree h.tree b = .ok () b' →
      b' = b.extend (treeEncoding h.tree) ∧
      (∀ key tag, (key, tag) ∈ h.compound ↔ ∃ r, h.value? key = some r ∧ r.tag = tag) ∧
      ∀ es, .compound es ∈ h.tree.parts →
        es.Pairwise fun e f => Utf8.encode e.1 < Utf8.encode f.1) ∧
    ∀ b c bytes, writeTree h.tree b = .ok () (b.extend bytes) →
      writeTree h'.tree c = .ok () (c.extend bytes) →
      h.compound = h'.compound := by
  refine ⟨fun hsame b => ?_, fun b b' hwrite => ?_, fun b c bytes hwrite hwrite' => ?_⟩
  · have htree : h.tree = h'.tree := Tree.ext (Tag.compound.inj hsame.tag_eq)
    rw [htree]
  · obtain ⟨-, hb'⟩ := writeTree_eq_ok_iff.mp hwrite
    refine ⟨hb', fun key tag => History.mem_compound_iff, fun es hes => ?_⟩
    have hascending : Ascending es := (Tag.compound _).ascending_of_mem_parts h.tree.ordered hes
    exact hascending.imp Utf8.encode_lt
  · obtain ⟨hw, hbytes⟩ := writeTree_eq_ok_iff.mp hwrite
    obtain ⟨hw', hbytes'⟩ := writeTree_eq_ok_iff.mp hwrite'
    have hform : bytes = treeEncoding h.tree :=
      List.append_cancel_left (congrArg Buffer.bytes hbytes)
    have hform' : bytes = treeEncoding h'.tree :=
      List.append_cancel_left (congrArg Buffer.bytes hbytes')
    exact congrArg Tree.entries (treeEncoding_injective hw hw' (hform.symm.trans hform'))

/-- Two keys put in in either order, in a compound beside which a key came and went. -/
theorem one_form_reordered :
    let n : Recipe := .leaf (.byte 7) trivial
    let h : History :=
      [.insert "b" n, .insert "a" (.compound [.insert "y" n, .insert "x" n]), .erase "b"]
    let h' : History := [.insert "a" (.compound [.insert "x" n, .insert "y" n])]
    let bytes : Bytes := [10, 0, 0, 10, 0, 1, 97, 1, 0, 1, 120, 7, 1, 0, 1, 121, 7, 0, 0]
    writeTree h.tree empty = .ok () (ofBytes bytes) ∧
      writeTree h'.tree empty = .ok () (ofBytes bytes) ∧
      ofBytes bytes = ofBytes (treeEncoding h.tree) ∧ h.compound = h'.compound := by
  intro n h h' bytes
  obtain ⟨halike, hwritten, hequal⟩ := one_form h h'
  have hsame : Recipe.Same (.compound h) (.compound h') := by
    rw [Recipe.same_iff]
    simp only [h, h', Recipe.tag, runEdits, Edit.run]
    rfl
  have htree : h'.tree = .ofList [("a", .compound [("x", .byte 7), ("y", .byte 7)])] := by
    ext1
    simp only [h', n, History.tree, History.compound, Recipe.tag, runEdits, Edit.run]
    rfl
  have hwrite' : writeTree h'.tree empty = .ok () (ofBytes bytes) := by
    rw [htree]
    rfl
  have hwrite : writeTree h.tree empty = .ok () (ofBytes bytes) :=
    (halike hsame empty).trans hwrite'
  obtain ⟨hbytes, -, -⟩ := hwritten empty _ hwrite
  exact ⟨hwrite, hwrite', hbytes, hequal empty empty bytes hwrite hwrite'⟩

end Wireform.Buffer
