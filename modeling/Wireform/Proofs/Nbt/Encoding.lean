import Wireform.Nbt.Writer
import Wireform.Proofs.Decoder
import Wireform.Proofs.Text.ModifiedUtf8

/-!
# What the writer of trees writes

`Tag.encoding` is the written form of a tag and `Tag.Writable` says which tags have one: no text is
too long, no list or array has too many elements, and the items of a list share a type.  The writer
appends the encoding of a writable tag and refuses every other (`Tag.writes`), of which it has then
written no more than the beginning (`Tag.begins`).
-/

namespace Wireform.Nbt

/-- A text behind its length. -/
def textEncoding (s : String) : Bytes :=
  Bytes.ofNat 2 (ModifiedUtf8.size s) ++ ModifiedUtf8.bytes s

mutual

/-- The written form of a tag, without its type. -/
@[simp] def Tag.encoding : Tag → Bytes
  | .byte v => Bytes.ofNat 1 v.toUInt8.toNat
  | .short v => Bytes.ofNat 2 v.toUInt16.toNat
  | .int v => Bytes.ofNat 4 v.toUInt32.toNat
  | .long v => Bytes.ofNat 8 v.toUInt64.toNat
  | .float v => Bytes.ofNat 4 v.bits.toNat
  | .double v => Bytes.ofNat 8 v.bits.toNat
  | .byteArray vs => Bytes.ofNat 4 vs.length ++ vs.map (·.toUInt8)
  | .text s => textEncoding s
  | .list items => itemId items :: (Bytes.ofNat 4 items.length ++ itemsEncoding items)
  | .compound entries => entriesEncoding entries
  | .intArray vs => Bytes.ofNat 4 vs.length ++ vs.flatMap fun v => Bytes.ofNat 4 v.toUInt32.toNat
  | .longArray vs => Bytes.ofNat 4 vs.length ++ vs.flatMap fun v => Bytes.ofNat 8 v.toUInt64.toNat
termination_by structural t => t

/-- The written form of the items of a list. -/
@[simp] def itemsEncoding : List Tag → Bytes
  | [] => []
  | item :: rest => item.encoding ++ itemsEncoding rest
termination_by structural items => items

/-- The written form of entries, with the end mark. -/
@[simp] def entriesEncoding : List (String × Tag) → Bytes
  | [] => [endId]
  | (key, tag) :: rest => tag.id :: (textEncoding key ++ (tag.encoding ++ entriesEncoding rest))
termination_by structural entries => entries

end

/-- A text whose written form has a length that fits. -/
def TextWritable (s : String) : Prop := ModifiedUtf8.size s ≤ ModifiedUtf8.maxBytes

/-- A number of elements that fits a count. -/
def Countable (n : Nat) : Prop := n ≤ Writer.maxCount

mutual

/-- Tags that have a written form. -/
@[simp] def Tag.Writable : Tag → Prop
  | .byteArray vs => Countable vs.length
  | .text s => TextWritable s
  | .list items =>
    items.all (·.id == itemId items) = true ∧ Countable items.length ∧ ItemsWritable items
  | .compound entries => EntriesWritable entries
  | .intArray vs => Countable vs.length
  | .longArray vs => Countable vs.length
  | _ => True
termination_by structural t => t

/-- Items all of which have a written form. -/
@[simp] def ItemsWritable : List Tag → Prop
  | [] => True
  | item :: rest => item.Writable ∧ ItemsWritable rest
termination_by structural items => items

/-- Entries whose keys and tags all have a written form. -/
@[simp] def EntriesWritable : List (String × Tag) → Prop
  | [] => True
  | (key, tag) :: rest => TextWritable key ∧ tag.Writable ∧ EntriesWritable rest
termination_by structural entries => entries

end

/-! ### Runs of writers -/

/-- `m` appends `bytes` if `p` holds, and refuses if not. -/
def Writes (m : Writer Unit) (p : Prop) (bytes : Bytes) : Prop :=
  ∀ out, (p → m out = .ok () (out ++ bytes.toArray)) ∧ (¬ p → ∃ e out', m out = .error e out')

namespace Writes

variable {m m' : Writer Unit} {p q : Prop} {bytes more : Bytes}

theorem bind (h : Writes m p bytes) (h' : Writes m' q more) :
    Writes (do m; m') (p ∧ q) (bytes ++ more) := by
  intro out
  by_cases hp : p
  · have hm := (h out).1 hp
    refine ⟨fun hpq => ?_, fun hpq => ?_⟩
    · rw [bind_of_ok hm, (h' _).1 hpq.2, ← List.append_toArray, Array.append_assoc]
    · rw [bind_of_ok hm]
      exact (h' _).2 fun hq => hpq ⟨hp, hq⟩
  · obtain ⟨e, out', hm⟩ := (h out).2 hp
    refine ⟨fun hpq => absurd hpq.1 hp, fun _ => ⟨e, out', ?_⟩⟩
    rw [bind_of_error hm]

theorem congr (h : Writes m p bytes) (hpq : p ↔ q) : Writes m q bytes := fun out =>
  ⟨fun hq => (h out).1 (hpq.mpr hq), fun hq => (h out).2 fun hp => hq (hpq.mp hp)⟩

theorem put (bytes : Bytes) : Writes (.put bytes) True bytes := fun _ =>
  ⟨fun _ => rfl, fun h => absurd trivial h⟩

theorem number (width n : Nat) : Writes (.number width n) True (Bytes.ofNat width n) := put _

theorem pure : Writes (pure ()) True [] := fun out =>
  ⟨fun _ => by simp, fun h => absurd trivial h⟩

theorem text (s : String) : Writes (.text s) (TextWritable s) (textEncoding s) := by
  by_cases h : ModifiedUtf8.size s ≤ ModifiedUtf8.maxBytes
  · have hput := (number 2 (ModifiedUtf8.size s)).bind (put (ModifiedUtf8.bytes s))
    unfold Writer.text
    rw [ModifiedUtf8.encode_of_le h]
    exact hput.congr (by simp [TextWritable, h])
  · have hthrow : ∀ out, Writer.text s out = .error (.textTooLong (ModifiedUtf8.size s)) out := by
      intro out
      unfold Writer.text
      rw [ModifiedUtf8.encode_of_lt (Nat.lt_of_not_le h)]
      rfl
    exact fun out => ⟨fun hp => absurd hp h, fun _ => ⟨_, _, hthrow out⟩⟩

theorem count (n : Nat) : Writes (.count n) (Countable n) (Bytes.ofNat 4 n) := by
  intro out
  unfold Writer.count
  by_cases h : Writer.maxCount < n
  · rw [if_pos h]
    exact ⟨fun hp => absurd hp (Nat.not_le_of_lt h), fun _ => ⟨_, _, rfl⟩⟩
  · rw [if_neg h]
    exact ⟨fun _ => rfl, fun hp => absurd (Nat.le_of_not_lt h) hp⟩

/-- A check in front of a writer. -/
theorem guard (c : Bool) (e : WriteFault) (h : Writes m p bytes) :
    Writes (do
      if !c then throw e
      m) (c = true ∧ p) bytes := by
  intro out
  cases c with
  | true => exact ⟨fun hp => (h out).1 hp.2, fun hp => (h out).2 fun hq => hp ⟨rfl, hq⟩⟩
  | false => exact ⟨fun hp => absurd hp.1 (by decide), fun _ => ⟨e, out, rfl⟩⟩

end Writes

/-! ### The writer of trees -/

mutual

/-- **The writer appends the encoding of a writable tag and refuses every other.** -/
theorem Tag.writes : (t : Tag) → Writes t.write t.Writable t.encoding
  | .byte _ => .number _ _
  | .short _ => .number _ _
  | .int _ => .number _ _
  | .long _ => .number _ _
  | .float _ => .number _ _
  | .double _ => .number _ _
  | .byteArray vs => ((Writes.count vs.length).bind (.put _)).congr (.of_eq (and_true _))
  | .text s => .text s
  | .list items => by
    have hbody := (Writes.put [itemId items]).bind
      ((Writes.count items.length).bind (writesItems items))
    exact (hbody.congr (.of_eq (true_and _))).guard (items.all (·.id == itemId items)) .mixedList
  | .compound entries => writesEntries entries
  | .intArray vs => ((Writes.count vs.length).bind (.put _)).congr (.of_eq (and_true _))
  | .longArray vs => ((Writes.count vs.length).bind (.put _)).congr (.of_eq (and_true _))
termination_by structural t => t

theorem writesItems : (items : List Tag) →
    Writes (writeItems items) (ItemsWritable items) (itemsEncoding items)
  | [] => .pure
  | item :: rest => item.writes.bind (writesItems rest)
termination_by structural items => items

theorem writesEntries : (entries : List (String × Tag)) →
    Writes (writeEntries entries) (EntriesWritable entries) (entriesEncoding entries)
  | [] => .put _
  | (key, tag) :: rest =>
    ((Writes.put [tag.id]).bind
      ((Writes.text key).bind (tag.writes.bind (writesEntries rest)))).congr (.of_eq (true_and _))
termination_by structural entries => entries

end

/-! ### Trees -/

/-- The written form of a tree: the compound type, an empty name and the entries. -/
def treeEncoding (t : Tree) : Bytes := Tag.compoundId :: 0 :: 0 :: entriesEncoding t.entries

@[simp] theorem textEncoding_empty : textEncoding "" = [0, 0] := by decide

@[simp] theorem textWritable_empty : TextWritable "" := by
  unfold TextWritable
  decide

theorem writes_tree (t : Tree) :
    Writes t.write (EntriesWritable t.entries) (treeEncoding t) := by
  have h := (Writes.put [Tag.compoundId]).bind ((Writes.text "").bind (writesEntries t.entries))
  rw [textEncoding_empty] at h
  exact h.congr ⟨fun h => h.2.2, fun h => ⟨trivial, textWritable_empty, h⟩⟩

theorem emit_of_writable {t : Tree} (h : EntriesWritable t.entries) :
    t.emit = ⟨treeEncoding t, none⟩ := by
  have hw := (writes_tree t #[]).1 h
  simp [Tree.emit, hw]

theorem emit_of_not_writable {t : Tree} (h : ¬ EntriesWritable t.entries) :
    ∃ e, t.emit.fault? = some (.structureEncode e) := by
  obtain ⟨e, out, hw⟩ := (writes_tree t #[]).2 h
  exact ⟨e, by simp [Tree.emit, hw]⟩

@[simp] theorem emit_fault?_eq_none_iff {t : Tree} :
    t.emit.fault? = none ↔ EntriesWritable t.entries := by
  constructor
  · intro h
    by_contra hw
    obtain ⟨e, he⟩ := emit_of_not_writable hw
    rw [h] at he
    cases he
  · intro h
    rw [emit_of_writable h]

/-! ### Writers that are cut short -/

/-- Whatever comes of it, `m` appends the beginning of `bytes`. -/
def Begins (m : Writer Unit) (bytes : Bytes) : Prop :=
  ∀ out, ∃ front, front <+: bytes ∧ finalState m out = out ++ front.toArray

namespace Begins

variable {m m' : Writer Unit} {p : Prop} {bytes more : Bytes}

/-- A writer that writes all or nothing. -/
theorem of_writes (hm : Writes m p bytes) (h : ¬ p → ∀ out, finalState m out = out) :
    Begins m bytes := by
  intro out
  by_cases hp : p
  · exact ⟨bytes, List.prefix_refl _, finalState_of_ok ((hm out).1 hp)⟩
  · exact ⟨[], List.nil_prefix, by rw [h hp out, Array.append_empty]⟩

theorem put (bytes : Bytes) : Begins (.put bytes) bytes :=
  of_writes (.put bytes) fun h => absurd trivial h

theorem number (width n : Nat) : Begins (.number width n) (Bytes.ofNat width n) := put _

theorem pure : Begins (pure ()) [] := of_writes .pure fun h => absurd trivial h

theorem text (s : String) : Begins (.text s) (textEncoding s) := by
  refine of_writes (.text s) fun h out => ?_
  unfold Writer.text
  rw [ModifiedUtf8.encode_of_lt (Nat.lt_of_not_le h)]
  rfl

theorem count (n : Nat) : Begins (.count n) (Bytes.ofNat 4 n) := by
  refine of_writes (.count n) fun h out => ?_
  unfold Writer.count
  rw [if_pos (Nat.lt_of_not_le h)]
  rfl

/-- The second writer begins only where the first wrote everything. -/
theorem bind (hm : Writes m p bytes) (h : Begins m bytes) (h' : Begins m' more) :
    Begins (do m; m') (bytes ++ more) := by
  intro out
  by_cases hp : p
  · have hrun := (hm out).1 hp
    obtain ⟨front, hfront, hstate⟩ := h' (out ++ bytes.toArray)
    refine ⟨bytes ++ front, (List.prefix_append_right_inj bytes).mpr hfront, ?_⟩
    rw [finalState_bind_of_ok hrun, hstate, ← List.append_toArray, Array.append_assoc]
  · obtain ⟨e, out', hrun⟩ := (hm out).2 hp
    obtain ⟨front, hfront, hstate⟩ := h out
    refine ⟨front, hfront.trans (List.prefix_append _ _), ?_⟩
    rw [finalState_bind_of_error hrun, ← hstate, finalState_of_error hrun]

/-- A check in front of a writer. -/
theorem guard (c : Bool) (e : WriteFault) (h : Begins m bytes) :
    Begins (do
      if !c then throw e
      m) bytes := by
  cases c with
  | true => exact h
  | false => exact fun out => ⟨[], List.nil_prefix, Array.append_empty.symm⟩

end Begins

mutual

/-- **A tag that is refused is written up to where it was refused.** -/
theorem Tag.begins : (t : Tag) → Begins t.write t.encoding
  | .byte _ => .number _ _
  | .short _ => .number _ _
  | .int _ => .number _ _
  | .long _ => .number _ _
  | .float _ => .number _ _
  | .double _ => .number _ _
  | .byteArray vs => .bind (.count vs.length) (.count vs.length) (.put _)
  | .text s => .text s
  | .list items =>
    .guard _ _ (.bind (.put [itemId items]) (.put _)
      (.bind (.count items.length) (.count items.length) (beginsItems items)))
  | .compound entries => beginsEntries entries
  | .intArray vs => .bind (.count vs.length) (.count vs.length) (.put _)
  | .longArray vs => .bind (.count vs.length) (.count vs.length) (.put _)
termination_by structural t => t

theorem beginsItems : (items : List Tag) → Begins (writeItems items) (itemsEncoding items)
  | [] => .pure
  | item :: rest => .bind item.writes item.begins (beginsItems rest)
termination_by structural items => items

theorem beginsEntries : (entries : List (String × Tag)) →
    Begins (writeEntries entries) (entriesEncoding entries)
  | [] => .put _
  | (key, tag) :: rest =>
    .bind (.put [tag.id]) (.put _)
      (.bind (.text key) (.text key) (.bind tag.writes tag.begins (beginsEntries rest)))
termination_by structural entries => entries

end

theorem emit_bytes (t : Tree) :
    t.emit.bytes = (finalState t.write #[]).toList := by
  unfold Tree.emit
  cases h : t.write #[] with
  | ok _ out => rw [finalState_of_ok h]
  | error e out => rw [finalState_of_error h]

/-- **A tree that is refused has been begun**: the root is written before anything is checked. -/
theorem emit_bytes_prefix (t : Tree) :
    [Tag.compoundId, 0, 0] <+: t.emit.bytes ∧
      t.emit.bytes <+: treeEncoding t := by
  have hput : Writer.put [Tag.compoundId] #[] = .ok () #[Tag.compoundId] := rfl
  have hname := (Writes.text "" #[Tag.compoundId]).1 textWritable_empty
  rw [textEncoding_empty] at hname
  obtain ⟨front, hfront, hstate⟩ := beginsEntries t.entries (#[Tag.compoundId] ++ #[0, 0])
  have hbytes : t.emit.bytes = [Tag.compoundId, 0, 0] ++ front := by
    rw [emit_bytes, Tree.write, finalState_bind_of_ok hput, finalState_bind_of_ok hname,
      hstate, Array.toList_append]
    rfl
  rw [hbytes]
  exact ⟨List.prefix_append _ _, (List.prefix_append_right_inj [Tag.compoundId, 0, 0]).mpr hfront⟩

end Wireform.Nbt
