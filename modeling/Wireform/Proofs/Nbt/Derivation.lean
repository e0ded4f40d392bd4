import Wireform.Proofs.Nbt.Grammar
import Wireform.Proofs.Nbt.Reading

/-!
# The reader on derivations

One machine for each part of a tag, put together along a derivation.  The conditions of the parts
add up to a bound on the nesting and their costs to the charge of the derivation, so what a
derivation derives is read exactly if its charge is within the quota and its height within the
depth.
-/

namespace Wireform.Nbt

variable {budget : Budget} {quota levels : Nat}

/-! ### Machines for the parts of a tag -/

namespace Reads

variable {cost cost' : Nat} {p q : Prop} {bytes more : Bytes}

/-- No level is left for a tag at all, and one less for its parts. -/
theorem of_parts {id : UInt8} {height : Nat} {t : Tag}
    (h : ∀ levels, Reads budget.quota (.payload budget (levels + 1) id) (height ≤ levels) bytes
      cost t) :
    ∀ levels, Reads budget.quota (.payload budget levels id) (height < levels) bytes cost t
  | 0 => of_error (fun _ => rfl) (Nat.not_lt_zero _)
  | levels + 1 => (h levels).congr Nat.lt_succ_iff.symm rfl rfl

/-- A tag without parts. -/
theorem of_flat {id : UInt8} {height : Nat} {t : Tag} (hheight : height = 0)
    (h : ∀ levels, Reads budget.quota (.payload budget (levels + 1) id) True bytes cost t) :
    ∀ levels, Reads budget.quota (.payload budget levels id) (height < levels) bytes cost t :=
  of_parts fun levels => (h levels).congr (by simp [hheight]) rfl rfl

/-- A number of fixed width for a fixed charge. -/
theorem scalar {width n cost : Nat} {g : Nat → Tag} {t : Tag} (hn : n < 256 ^ width)
    (h : g n = t) :
    Reads quota (do
      Reader.charge quota cost
      return g (← Reader.number width)) True (Bytes.ofNat width n) cost t := by
  subst h
  exact ((charge cost).bind ((number hn).map g)).congr (.of_eq (and_true _)) rfl (Nat.add_zero _)

/-- Numbers of fixed width in a row, on top of those read so far. -/
theorem numbers {width : Nat} {toNat : α → Nat} {ofNat : Nat → α} (hlt : ∀ v, toNat v < 256 ^ width)
    (hinv : ∀ v, ofNat (toNat v) = v) :
    ∀ vs acc : List α,
      Reads quota (Reader.replicate.go (do return ofNat (← Reader.number width)) vs.length acc) True
        (vs.flatMap fun v => Bytes.ofNat width (toNat v)) 0 (acc.reverse ++ vs)
  | [], acc => by
    rw [List.append_nil]
    exact pure _
  | v :: vs, acc => by
    have hone : Reads quota (do return ofNat (← Reader.number width)) True
        (Bytes.ofNat width (toNat v)) 0 v := by
      have h : Reads quota (do return ofNat (← Reader.number width)) True _ 0 (ofNat (toNat v)) :=
        (number (hlt v)).map ofNat
      rwa [hinv] at h
    have hrest := numbers hlt hinv vs (v :: acc)
    rw [List.reverse_cons, List.append_assoc, List.singleton_append] at hrest
    exact (hone.bind hrest).congr (.of_eq (and_true _)) rfl rfl

/-- An array: the number of its elements, their charge, and the elements. -/
theorem array {n width : Nat} {read : Nat → Reader Tag} {t : Tag} (hn : Countable n)
    (hwidth : width ≤ 8) (h : Reads quota (read n) True bytes 0 t) :
    Reads quota (do
      let n ← Reader.count
      Reader.charge quota (Cost.array n width)
      read n) True (Bytes.ofNat 4 n ++ bytes) (24 + width * n) t := by
  refine ((count hn).bind ((charge _).bind h)).congr (by simp) rfl ?_
  rw [Nat.zero_add, Nat.add_zero, Cost.array_eq hn hwidth]

/-- A list: the type its items share, their number, their charge, and the items. -/
theorem list {id : UInt8} {n : Nat} {items : List Tag} (read : UInt8 → Nat → Reader (List Tag))
    (hn : Countable n) (hid : id = endId → n = 0) (h : Reads quota (read id n) p bytes cost items) :
    Reads quota (do
      let id ← Reader.typeId
      let n ← Reader.count
      Reader.charge quota (Cost.list n)
      if id = endId ∧ 0 < n then throw .untypedList
      return Tag.list (← read id n)) p (id :: (Bytes.ofNat 4 n ++ bytes)) (37 + 4 * n + cost)
      (Tag.list items) := by
  have htyped : ¬ (id = endId ∧ 0 < n) := by
    rintro ⟨hend, hpos⟩
    rw [hid hend] at hpos
    exact Nat.lt_irrefl 0 hpos
  have hread : Reads quota (do
      if id = endId ∧ 0 < n then throw .untypedList
      return Tag.list (← read id n)) p bytes cost (Tag.list items) := by
    rw [if_neg htyped]
    exact h.map Tag.list
  refine ((typeId id).bind ((count hn).bind ((charge _).bind hread))).congr (by simp) rfl ?_
  rw [Nat.zero_add, Nat.zero_add, Cost.list_eq hn]

/-- A machine that is told the bytes left, of which it needs as many as it reads. -/
theorem of_rest {f : Bytes → Reader α} {a : α}
    (h : ∀ fuel : Bytes, bytes.length ≤ fuel.length → Reads quota (f fuel) p bytes cost a) :
    Reads quota (do f (← get).rest) p bytes cost a := by
  intro used rest
  rw [bind_of_ok (get_eq _)]
  exact h (bytes ++ rest) (by simp) used rest

/-- The end mark ends the entries. -/
theorem entries_nil (payload : UInt8 → Reader Tag) (fuel : Bytes) (c : Compound) :
    Reads quota (.entries quota payload fuel c) True [endId] 0 c := by
  rw [Reader.entries_eq]
  refine ((typeId endId).bind (?_ : Reads quota _ True [] 0 c)).congr (.of_eq (and_true _)) rfl rfl
  rw [if_pos rfl]
  exact pure c

/-- One entry, and the others put on top of it. -/
theorem entries_cons {payload : UInt8 → Reader Tag} {id : UInt8} {key : String} {tag : Tag}
    {keyBytes : Bytes} {keyCost : Nat} {b : UInt8} {fuel : Bytes} {c c' : Compound}
    (hid : id ≠ endId) (hkey : Reads quota (.text quota) True keyBytes keyCost key)
    (htag : Reads quota (payload id) p bytes cost tag)
    (hrest : Reads quota (.entries quota payload fuel (Compound.insert key tag c)) q more cost'
      c') :
    Reads quota (.entries quota payload (b :: fuel) c) (p ∧ q)
      (id :: (keyBytes ++ (bytes ++ more))) (28 + keyCost + cost + cost') c' := by
  rw [Reader.entries_eq]
  refine ((typeId id).bind (?_ : Reads quota _ (p ∧ q) (keyBytes ++ (bytes ++ more))
    (keyCost + (Cost.entry + (cost + cost'))) c')).congr (.of_eq (true_and _)) rfl ?_
  · rw [if_neg hid]
    exact (hkey.bind ((charge _).bind (htag.bind hrest))).congr (by simp) rfl rfl
  · unfold Cost.entry
    omega

/-- A compound whose entries are no more than the bytes they take. -/
theorem compound {payload : UInt8 → Reader Tag} {n : Nat} {c : Compound} (hn : n ≤ bytes.length)
    (h : ∀ fuel : Bytes, n ≤ fuel.length →
      Reads quota (.entries quota payload fuel []) p bytes cost c) :
    Reads quota (.compound quota payload) p bytes (48 + cost) c := by
  unfold Reader.compound
  exact ((charge 48).bind (of_rest fun fuel hfuel => h fuel (Nat.le_trans hn hfuel))).congr
    (.of_eq (true_and _)) rfl rfl

end Reads

/-! ### Derivations -/

namespace Grammar

theorem Text.reads (t : Text) : Reads quota (.text quota) True t.bytes t.cost t.string :=
  .textOf t.fits (ModifiedUtf8.decode_eq_ok_iff.mpr ⟨t.groups, rfl, rfl⟩)

mutual

/-- **The reader on a derivation of a tag.** -/
theorem Payload.reads (budget : Budget) : {k : TagType} → (p : Payload k) → (levels : Nat) →
    Reads budget.quota (.payload budget levels k.id) (p.height < levels) p.bytes p.cost p.tag
  | _, .byte v => .of_flat rfl fun _ =>
    .scalar v.toUInt8.toNat_lt (congrArg Tag.byte (int8_ofNat_toNat v))
  | _, .short v => .of_flat rfl fun _ =>
    .scalar v.toUInt16.toNat_lt (congrArg Tag.short (int16_ofNat_toNat v))
  | _, .int v => .of_flat rfl fun _ =>
    .scalar v.toUInt32.toNat_lt (congrArg Tag.int (int32_ofNat_toNat v))
  | _, .long v => .of_flat rfl fun _ =>
    .scalar v.toUInt64.toNat_lt (congrArg Tag.long (int64_ofNat_toNat v))
  | _, .float v => .of_flat rfl fun _ =>
    .scalar v.bits.toNat_lt (by rw [UInt32.ofNat_toNat]; rfl)
  | _, .double v => .of_flat rfl fun _ =>
    .scalar v.bits.toNat_lt (by rw [UInt64.ofNat_toNat]; rfl)
  | _, .byteArray vs hn => .of_flat rfl fun _ => by
    have h : Reads budget.quota _ True _ 0 _ :=
      (Reads.take (vs.map (·.toUInt8))).map fun bytes => Tag.byteArray (bytes.map (·.toInt8))
    have hinv : (vs.map (·.toUInt8)).map (·.toInt8) = vs := by
      rw [List.map_map]
      exact List.map_id'' (fun v => rfl) vs
    rw [hinv, List.length_map] at h
    refine (Reads.array hn (by omega) h).congr .rfl rfl ?_
    rw [Nat.one_mul]
    rfl
  | _, .text t => .of_flat rfl fun _ => t.reads.map Tag.text
  | _, .emptyList id => .of_flat rfl fun levels => by
    have hbytes : id :: (Bytes.ofNat 4 0 ++ []) = (Payload.emptyList id).bytes := by
      rw [List.append_nil]
      rfl
    exact (Reads.list (fun id n => .replicate n (.payload budget levels id)) (Nat.zero_le _)
      (fun _ => rfl) (.pure [])).congr .rfl hbytes rfl
  | _, .list (k := k) items hn => .of_parts fun levels =>
    .list _ hn (fun hid => absurd hid k.id_ne_endId) (items.reads budget levels [])
  | _, .compound es => .of_parts fun levels =>
    (Reads.compound es.length_pairs_le fun fuel hfuel =>
      es.reads budget levels fuel hfuel []).map Tag.compound
  | _, .intArray vs hn => .of_flat rfl fun _ =>
    .array hn (by omega)
      ((Reads.numbers (fun v => v.toUInt32.toNat_lt) int32_ofNat_toNat vs []).map Tag.intArray)
  | _, .longArray vs hn => .of_flat rfl fun _ =>
    .array hn (by omega)
      ((Reads.numbers (fun v => v.toUInt64.toNat_lt) int64_ofNat_toNat vs []).map Tag.longArray)
termination_by structural _ p => p

/-- The items of a list, on top of those read so far. -/
theorem Items.reads (budget : Budget) (levels : Nat) : {k : TagType} → {n : Nat} →
    (items : Items k n) → (acc : List Tag) →
    Reads budget.quota (Reader.replicate.go (.payload budget levels k.id) n acc)
      (items.height ≤ levels) items.bytes items.cost (acc.reverse ++ items.tags)
  | _, _, .nil, acc => by
    rw [Items.tags, List.append_nil]
    exact (Reads.pure _).congr (.of_eq (by simp)) rfl rfl
  | _, _, .cons item rest, acc => by
    have h := rest.reads budget levels (item.tag :: acc)
    rw [List.reverse_cons, List.append_assoc, List.singleton_append] at h
    refine ((item.reads budget levels).bind h).congr ?_ rfl rfl
    rw [Items.height]
    omega
termination_by structural _ _ items => items

/-- Entries, put on top of those read so far. -/
theorem Entries.reads (budget : Budget) (levels : Nat) : (es : Entries) → (fuel : Bytes) →
    es.pairs.length ≤ fuel.length → (c : Compound) →
    Reads budget.quota (.entries budget.quota (.payload budget levels) fuel c)
      (es.height ≤ levels) es.bytes es.cost
      (es.pairs.foldl (fun c (key, tag) => c.insert key tag) c)
  | .nil, fuel, _, c =>
    (Reads.entries_nil _ fuel c).congr (.of_eq (by simp)) rfl rfl
  | .cons key tag rest, [], hfuel, _ => absurd hfuel (by simp)
  | .cons (k := k) key tag rest, b :: fuel, hfuel, c => by
    have h := rest.reads budget levels fuel (Nat.le_of_succ_le_succ hfuel)
      (Compound.insert key.string tag.tag c)
    refine (Reads.entries_cons (b := b) k.id_ne_endId key.reads (tag.reads budget levels) h).congr
      ?_ rfl rfl
    rw [Entries.height]
    omega
termination_by structural es => es

end

@[simp] theorem Root.satAdd_zero_cost (d : Root) :
    satAdd 0 (d.name.cost + (48 + d.entries.cost)) = d.charge := by
  simp only [charge, satAdd, Nat.zero_add]

/-- What follows the type of the root: the name and the entries. -/
theorem Root.reads (budget : Budget) (d : Root) :
    Reads budget.quota (do
      let _ ← Reader.text budget.quota
      Reader.compound budget.quota (.payload budget budget.depth)) (d.height ≤ budget.depth)
      (d.name.bytes ++ d.entries.bytes) (d.name.cost + (48 + d.entries.cost)) d.tree.entries :=
  (d.name.reads.bind (Reads.compound d.entries.length_pairs_le fun fuel hfuel =>
    d.entries.reads budget budget.depth fuel hfuel [])).congr (.of_eq (true_and _)) rfl rfl

end Grammar

/-! ### Trees -/

/-- The type of the root is not charged for. -/
theorem tree_cons (bytes : Bytes) :
    Reader.tree budget ⟨0, Tag.compoundId :: bytes⟩ = (do
      let _ ← Reader.text budget.quota
      Reader.compound budget.quota (.payload budget budget.depth) : Reader Compound)
        ⟨0, bytes⟩ := by
  have h : Reads 0 .typeId True [Tag.compoundId] 0 Tag.compoundId := .typeId _
  have hid : Reader.typeId ⟨0, Tag.compoundId :: bytes⟩ = .ok Tag.compoundId ⟨0, bytes⟩ :=
    (h 0 bytes (Nat.le_refl 0) (Nat.zero_le _)).1 ⟨trivial, Nat.zero_le _⟩
  rw [Reader.tree, bind_of_ok hid, if_neg (not_not_intro rfl)]

/-- **The decoder on what a tree derives.**  It reads the tree if the budget allows that, and else
stops behind the first byte and before the end. -/
theorem decodeTree_root (d : Grammar.Root) (budget : Budget) (rest : Bytes) :
    (d.charge ≤ budget.quota ∧ d.height ≤ budget.depth →
      decodeTree budget (d.bytes ++ rest) = .ok d.tree rest) ∧
    (¬ (d.charge ≤ budget.quota ∧ d.height ≤ budget.depth) →
      ∃ e tail, decodeTree budget (d.bytes ++ rest) = .error (.structureDecode e) tail ∧
        Within tail (d.name.bytes ++ d.entries.bytes) rest) := by
  obtain ⟨hok, herr⟩ := d.reads budget 0 rest (Nat.zero_le _) (Nat.zero_le _)
  rw [d.satAdd_zero_cost, and_comm] at hok herr
  rw [Grammar.Root.bytes, List.cons_append]
  refine ⟨fun h => ?_, fun h => ?_⟩
  · exact decodeTree_of_ok ((tree_cons _).trans (hok h))
  · obtain ⟨e, s, hrun, hwithin⟩ := herr h
    exact ⟨e, s.rest, decodeTree_of_error ((tree_cons _).trans hrun), hwithin⟩

end Wireform.Nbt
