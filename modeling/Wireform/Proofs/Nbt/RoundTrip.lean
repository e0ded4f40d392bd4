import Wireform.Proofs.Buffer
import Wireform.Proofs.Nbt.Derivation

/-!
# Trees read back

What is written for a tag is derived from the grammar, with the charge and the height of the tag
itself: by recursion over the tag.  So a written tree reads back exactly if its charge is within the
quota and its height within the depth.
-/

namespace Wireform.Nbt

/-! ### What is written is derived -/

section Written

open Grammar

/-- The type of a tag. -/
def Tag.kind : Tag → TagType
  | .byte _ => .byte
  | .short _ => .short
  | .int _ => .int
  | .long _ => .long
  | .float _ => .float
  | .double _ => .double
  | .byteArray _ => .byteArray
  | .text _ => .text
  | .list _ => .list
  | .compound _ => .compound
  | .intArray _ => .intArray
  | .longArray _ => .longArray

@[simp] theorem Tag.id_kind (t : Tag) : t.kind.id = t.id := by
  cases t <;> rfl

theorem exists_text {s : String} (h : TextWritable s) :
    ∃ t : Text, t.bytes = textEncoding s ∧ t.cost = textCost s ∧ t.string = s := by
  obtain ⟨gs, hbytes, hs⟩ := ModifiedUtf8.decode_eq_ok_iff.mp (ModifiedUtf8.decode_bytes s)
  have hlength : (gs.flatMap ModifiedUtf8.Group.bytes).length = ModifiedUtf8.size s := by
    rw [← hbytes, ModifiedUtf8.size]
  have hcontent : Bytes.ofNat 2 (gs.flatMap ModifiedUtf8.Group.bytes).length ++
      gs.flatMap ModifiedUtf8.Group.bytes = textEncoding s := by
    rw [hlength, ← hbytes, textEncoding]
  have hfits : (gs.flatMap ModifiedUtf8.Group.bytes).length ≤ ModifiedUtf8.maxBytes := by
    rw [hlength]
    exact h
  exact ⟨⟨gs, hfits⟩, hcontent, congrArg (36 + 2 * ·) hlength, hs.symm⟩

mutual

/-- **What is written for a tag is derived**, at the same charge and of the same height. -/
theorem Tag.exists_payload : (t : Tag) → t.Writable → t.Ordered → ∃ p : Payload t.kind,
    p.bytes = t.encoding ∧ p.cost = t.cost ∧ p.height = t.height ∧ p.tag = t
  | .byte v, _, _ => ⟨.byte v, rfl, rfl, rfl, rfl⟩
  | .short v, _, _ => ⟨.short v, rfl, rfl, rfl, rfl⟩
  | .int v, _, _ => ⟨.int v, rfl, rfl, rfl, rfl⟩
  | .long v, _, _ => ⟨.long v, rfl, rfl, rfl, rfl⟩
  | .float v, _, _ => ⟨.float v, rfl, rfl, rfl, rfl⟩
  | .double v, _, _ => ⟨.double v, rfl, rfl, rfl, rfl⟩
  | .byteArray vs, hw, _ => ⟨.byteArray vs hw, rfl, rfl, rfl, rfl⟩
  | .text s, hw, _ => by
    obtain ⟨t, hbytes, hcost, hs⟩ := exists_text hw
    exact ⟨.text t, hbytes, hcost, rfl, congrArg Tag.text hs⟩
  | .list [], _, _ => by
    refine ⟨.emptyList endId, ?_, rfl, rfl, rfl⟩
    rw [Tag.encoding, itemsEncoding, List.append_nil]
    rfl
  | .list (item :: rest), hw, ho => by
    obtain ⟨hid, hcount, hitems⟩ := hw
    have hkind : ∀ t ∈ item :: rest, t.kind = item.kind := fun t ht => by
      have hshare := eq_of_beq (List.all_eq_true.mp hid t ht)
      rw [itemId, ← t.id_kind, ← item.id_kind] at hshare
      exact TagType.id_injective hshare
    obtain ⟨items, hbytes, hcost, hheight, htags⟩ := exists_items (item :: rest) hitems ho hkind
    refine ⟨.list items hcount, ?_, congrArg (37 + 4 * (rest.length + 1) + ·) hcost, hheight,
      congrArg Tag.list htags⟩
    show item.kind.id :: (_ ++ items.bytes) = (Tag.list (item :: rest)).encoding
    rw [hbytes, item.id_kind]
    rfl
  | .compound es, hw, ho => by
    obtain ⟨ds, hbytes, hcost, hheight, hpairs⟩ := exists_entries es hw ho.2
    refine ⟨.compound ds, hbytes, congrArg (48 + ·) hcost, hheight, ?_⟩
    show Tag.compound (Compound.ofList ds.pairs) = _
    rw [hpairs, Compound.ofList_of_ascending ho.1]
  | .intArray vs, hw, _ => ⟨.intArray vs hw, rfl, rfl, rfl, rfl⟩
  | .longArray vs, hw, _ => ⟨.longArray vs hw, rfl, rfl, rfl, rfl⟩
termination_by structural t => t

theorem exists_items {k : TagType} : (items : List Tag) → ItemsWritable items →
    ItemsOrdered items → (∀ t ∈ items, t.kind = k) → ∃ ps : Items k items.length,
    ps.bytes = itemsEncoding items ∧ ps.cost = itemsCost items ∧
      ps.height = itemsHeight items ∧ ps.tags = items
  | [], _, _, _ => ⟨.nil, rfl, rfl, rfl, rfl⟩
  | item :: rest, hw, ho, hkind => by
    obtain ⟨rfl, hrest⟩ := List.forall_mem_cons.mp hkind
    obtain ⟨p, hp⟩ := item.exists_payload hw.1 ho.1
    obtain ⟨ps, hps⟩ := exists_items rest hw.2 ho.2 hrest
    refine ⟨.cons p ps, ?_⟩
    simp [hp, hps]
termination_by structural items => items

theorem exists_entries : (es : List (String × Tag)) → EntriesWritable es → EntriesOrdered es →
    ∃ ds : Entries, ds.bytes = entriesEncoding es ∧ ds.cost = entriesCost es ∧
      ds.height = entriesHeight es ∧ ds.pairs = es
  | [], _, _ => ⟨.nil, rfl, rfl, rfl, rfl⟩
  | (key, tag) :: rest, hw, ho => by
    obtain ⟨t, ht⟩ := exists_text hw.1
    obtain ⟨p, hp⟩ := tag.exists_payload hw.2.1 ho.1
    obtain ⟨ds, hds⟩ := exists_entries rest hw.2.2 ho.2
    refine ⟨.cons t p ds, ?_⟩
    simp [ht, hp, hds]
termination_by structural es => es

end

end Written

/-! ### Trees -/

/-- What it takes to read a tree: the quota its charge, the depth its height. -/
def Budget.Allows (budget : Budget) (t : Tree) : Prop :=
  t.charge ≤ budget.quota ∧ t.height ≤ budget.depth

instance (budget : Budget) (t : Tree) : Decidable (budget.Allows t) :=
  inferInstanceAs (Decidable (_ ∧ _))

/-- **What is written for a tree is derived**, under an empty name. -/
theorem exists_root {t : Tree} (hw : EntriesWritable t.entries) :
    ∃ d : Grammar.Root, d.bytes = treeEncoding t ∧
      d.name.bytes ++ d.entries.bytes = 0 :: 0 :: entriesEncoding t.entries ∧
      d.charge = t.charge ∧ d.height = t.height ∧ d.tree = t := by
  obtain ⟨hascending, ho⟩ := t.ordered
  obtain ⟨name, hname, hcost, -⟩ := exists_text textWritable_empty
  obtain ⟨es, hbytes, hcost', hheight, hpairs⟩ := exists_entries t.entries hw ho
  have hall : name.bytes ++ es.bytes = 0 :: 0 :: entriesEncoding t.entries := by
    rw [hname, textEncoding_empty, hbytes]
    rfl
  refine ⟨⟨name, es⟩, congrArg (Tag.compoundId :: ·) hall, hall, ?_, hheight, ?_⟩
  · rw [Grammar.Root.charge, hcost, hcost']
    rfl
  · ext1
    show Compound.ofList es.pairs = t.entries
    rw [hpairs, Compound.ofList_of_ascending hascending]

/-- **The decoder on the encoding of a tree.**  It reads the tree if the budget allows that, and
else stops within the encoding, behind the first byte. -/
theorem decodeTree_treeEncoding {t : Tree} (hw : EntriesWritable t.entries) (budget : Budget)
    (rest : Bytes) :
    (budget.Allows t → decodeTree budget (treeEncoding t ++ rest) = .ok t rest) ∧
      (¬ budget.Allows t → ∃ e tail,
        decodeTree budget (treeEncoding t ++ rest) = .error (.structureDecode e) tail ∧
          Within tail (0 :: 0 :: entriesEncoding t.entries) rest) := by
  obtain ⟨d, hbytes, hall, hcharge, hheight, htree⟩ := exists_root hw
  have h := decodeTree_root d budget rest
  rwa [hbytes, hall, hcharge, hheight, htree] at h

/-- With a quota below what a name and a compound are charged, no tree is read. -/
theorem decodeTree_of_quota_lt {budget : Budget} (hname : 36 ≤ budget.quota)
    (h : budget.quota < 84) (rest : Bytes) :
    decodeTree budget (Tag.compoundId :: 0 :: 0 :: rest) =
      .error (.structureDecode (.overQuota 84 budget.quota)) rest := by
  have hreads : Reads budget.quota .typeId True [Tag.compoundId] 0 Tag.compoundId := .typeId _
  have hid : Reader.typeId ⟨0, Tag.compoundId :: 0 :: 0 :: rest⟩ =
      .ok Tag.compoundId ⟨0, 0 :: 0 :: rest⟩ :=
    (hreads 0 _ (Nat.zero_le _) (Nat.zero_le _)).1 ⟨trivial, Nat.zero_le _⟩
  have htext : Reader.text budget.quota ⟨0, 0 :: 0 :: rest⟩ = .ok "" ⟨36, rest⟩ :=
    (Reads.text textWritable_empty 0 rest (Nat.zero_le _) (Nat.zero_le _)).1 ⟨trivial, hname⟩
  have hcharge : Reader.charge budget.quota Cost.compound ⟨36, rest⟩ =
      .error (.overQuota 84 budget.quota) ⟨84, rest⟩ := by
    rw [Reader.charge_eq]
    exact if_pos h
  have hrun : Reader.tree budget ⟨0, Tag.compoundId :: 0 :: 0 :: rest⟩ =
      .error (.overQuota 84 budget.quota) ⟨84, rest⟩ := by
    rw [Reader.tree, bind_of_ok hid, if_neg (not_not_intro rfl)]
    dsimp only
    rw [bind_of_ok htext, Reader.compound, bind_of_error hcharge]
  exact decodeTree_of_error hrun

end Wireform.Nbt

namespace Wireform.Buffer

open Nbt

/-! ### Trees in a buffer -/

/-- **Reading undoes writing, exactly within the budget.**  Behind whatever `b` holds and in front
of whatever follows, a written tree reads back with the cursor at the first byte that follows if and
only if its charge is within the quota and its height within the depth. -/
theorem readTree_of_writeTree {t : Tree} {b b' : Buffer} (hwrite : writeTree t b = .ok () b')
    (budget : Budget) (after : Bytes) :
    let s : Buffer := b.behind b' after
    (readTree budget s = .ok t (s.seek b'.size) ↔
      t.charge ≤ budget.quota ∧ t.height ≤ budget.depth) ∧
    (¬ (t.charge ≤ budget.quota ∧ t.height ≤ budget.depth) →
      ∃ e s', readTree budget s = .error (.structureDecode e) s') := by
  intro s
  obtain ⟨hemit, rfl⟩ := Action.ofEmission_eq_ok_iff.mp hwrite
  have hw := emit_fault?_eq_none_iff.mp hemit
  have hunread : s.unread = treeEncoding t ++ after := by
    rw [unread_behind, emit_of_writable hw]
  obtain ⟨hok, herr⟩ := decodeTree_treeEncoding hw budget after
  rw [← hunread] at hok herr
  have hstop : ¬ budget.Allows t → ∃ e s', readTree budget s = .error (.structureDecode e) s' := by
    intro h
    obtain ⟨e, tail, hrun, _⟩ := herr h
    exact ⟨e, _, Action.ofDecoder_of_error hrun⟩
  refine ⟨⟨fun h => ?_, fun h => ?_⟩, hstop⟩
  · by_contra hnot
    obtain ⟨e, s', hrun⟩ := hstop hnot
    rw [hrun] at h
    cases h
  · rw [readTree, Action.ofDecoder_of_ok (hok h), leaving_behind]

/-- A list of one number, in a budget that just allows it. -/
theorem readTree_of_writeTree_list :
    let t : Tree := .ofList [("a", .list [.int 7])]
    let bytes : Bytes := [10, 0, 0, 9, 0, 1, 97, 3, 0, 0, 0, 1, 0, 0, 0, 7, 0]
    writeTree t empty = .ok () (ofBytes bytes) ∧
      readTree ⟨203, 2⟩ (ofBytes (bytes ++ [255])) =
        .ok t ((ofBytes (bytes ++ [255])).seek 17) := by
  intro t bytes
  have hwrite : writeTree t empty = .ok () (ofBytes bytes) := by rfl
  exact ⟨hwrite, (readTree_of_writeTree hwrite ⟨203, 2⟩ [255]).1.mpr (by decide)⟩

end Wireform.Buffer
