import Wireform.Proofs.Nbt.Encoding
import Wireform.Proofs.Nbt.Measure
import Wireform.Proofs.Text.Groups

/-!
# The grammar of trees

A derivation is a tree as it stands on the wire: every text in its groups, every entry in its place,
also one whose key comes again, and every list with the type it declares.  What the grammar does not
allow is no derivation.  `bytes` is what a derivation derives, `cost` what it is charged, `height`
how deep it nests, and `tag` (`tree` of the whole) what it means: of equal keys the last entry
counts, and unpaired surrogates are replaced.
-/

namespace Wireform.Nbt

/-- The types of tags. -/
inductive TagType where
  | byte
  | short
  | int
  | long
  | float
  | double
  | byteArray
  | text
  | list
  | compound
  | intArray
  | longArray
  deriving DecidableEq, Repr

namespace TagType

/-- The number of a type on the wire. -/
def id : TagType → UInt8
  | byte => 1
  | short => 2
  | int => 3
  | long => 4
  | float => 5
  | double => 6
  | byteArray => 7
  | text => 8
  | list => 9
  | compound => 10
  | intArray => 11
  | longArray => 12

theorem id_injective {k l : TagType} (h : k.id = l.id) : k = l := by
  cases k <;> cases l <;> first | rfl | (revert h; decide)

theorem id_ne_endId (k : TagType) : k.id ≠ endId := by
  cases k <;> decide

end TagType

namespace Grammar

open ModifiedUtf8 (Group)

/-- A text: groups behind the number of their bytes. -/
structure Text where
  groups : List Group
  fits : (groups.flatMap Group.bytes).length ≤ ModifiedUtf8.maxBytes

namespace Text

/-- The bytes of the groups. -/
def content (t : Text) : Bytes := t.groups.flatMap Group.bytes

def bytes (t : Text) : Bytes := Bytes.ofNat 2 t.content.length ++ t.content

def cost (t : Text) : Nat := 36 + 2 * t.content.length

def string (t : Text) : String := Utf16.lossy (t.groups.map Group.unit)

end Text

mutual

/-- What stands for a tag of a type. -/
inductive Payload : TagType → Type
  | byte (v : Int8) : Payload .byte
  | short (v : Int16) : Payload .short
  | int (v : Int32) : Payload .int
  | long (v : Int64) : Payload .long
  | float (v : Binary32) : Payload .float
  | double (v : Binary64) : Payload .double
  | byteArray (vs : List Int8) (h : Countable vs.length) : Payload .byteArray
  | text (t : Text) : Payload .text
  /-- A list without items may declare any type, also one that there is not. -/
  | emptyList (id : UInt8) : Payload .list
  | list {k : TagType} {n : Nat} (items : Items k (n + 1)) (h : Countable (n + 1)) : Payload .list
  | compound (es : Entries) : Payload .compound
  | intArray (vs : List Int32) (h : Countable vs.length) : Payload .intArray
  | longArray (vs : List Int64) (h : Countable vs.length) : Payload .longArray

/-- A number of items of one type. -/
inductive Items : TagType → Nat → Type
  | nil {k : TagType} : Items k 0
  | cons {k : TagType} {n : Nat} (item : Payload k) (rest : Items k n) : Items k (n + 1)

/-- Entries up to the end mark. -/
inductive Entries : Type
  | nil
  | cons {k : TagType} (key : Text) (tag : Payload k) (rest : Entries)

end

/-! ### Bytes -/

mutual

@[simp] def Payload.bytes : {k : TagType} → Payload k → Bytes
  | _, .byte v => Bytes.ofNat 1 v.toUInt8.toNat
  | _, .short v => Bytes.ofNat 2 v.toUInt16.toNat
  | _, .int v => Bytes.ofNat 4 v.toUInt32.toNat
  | _, .long v => Bytes.ofNat 8 v.toUInt64.toNat
  | _, .float v => Bytes.ofNat 4 v.bits.toNat
  | _, .double v => Bytes.ofNat 8 v.bits.toNat
  | _, .byteArray vs _ => Bytes.ofNat 4 vs.length ++ vs.map (·.toUInt8)
  | _, .text t => t.bytes
  | _, .emptyList id => id :: Bytes.ofNat 4 0
  | _, .list (k := k) (n := n) items _ => k.id :: (Bytes.ofNat 4 (n + 1) ++ items.bytes)
  | _, .compound es => es.bytes
  | _, .intArray vs _ =>
    Bytes.ofNat 4 vs.length ++ vs.flatMap fun v => Bytes.ofNat 4 v.toUInt32.toNat
  | _, .longArray vs _ =>
    Bytes.ofNat 4 vs.length ++ vs.flatMap fun v => Bytes.ofNat 8 v.toUInt64.toNat
termination_by structural _ p => p

@[simp] def Items.bytes : {k : TagType} → {n : Nat} → Items k n → Bytes
  | _, _, .nil => []
  | _, _, .cons item rest => item.bytes ++ rest.bytes
termination_by structural _ _ items => items

@[simp] def Entries.bytes : Entries → Bytes
  | .nil => [endId]
  | .cons (k := k) key tag rest => k.id :: (key.bytes ++ (tag.bytes ++ rest.bytes))
termination_by structural es => es

end

/-! ### Meaning -/

mutual

@[simp] def Payload.tag : {k : TagType} → Payload k → Tag
  | _, .byte v => .byte v
  | _, .short v => .short v
  | _, .int v => .int v
  | _, .long v => .long v
  | _, .float v => .float v
  | _, .double v => .double v
  | _, .byteArray vs _ => .byteArray vs
  | _, .text t => .text t.string
  | _, .emptyList _ => .list []
  | _, .list items _ => .list items.tags
  | _, .compound es => .compound (Compound.ofList es.pairs)
  | _, .intArray vs _ => .intArray vs
  | _, .longArray vs _ => .longArray vs
termination_by structural _ p => p

@[simp] def Items.tags : {k : TagType} → {n : Nat} → Items k n → List Tag
  | _, _, .nil => []
  | _, _, .cons item rest => item.tag :: rest.tags
termination_by structural _ _ items => items

/-- The entries in the order in which they stand. -/
@[simp] def Entries.pairs : Entries → List (String × Tag)
  | .nil => []
  | .cons key tag rest => (key.string, tag.tag) :: rest.pairs
termination_by structural es => es

end

/-- The tag under a key: of equal keys the last. -/
@[simp] def Entries.last? (key : String) : Entries → Option Tag
  | .nil => none
  | .cons k tag rest => (rest.last? key).or (if k.string = key then some tag.tag else none)
termination_by structural es => es

/-- Every entry takes a byte at least. -/
theorem Entries.length_pairs_le : (es : Entries) → es.pairs.length ≤ es.bytes.length
  | .nil => Nat.zero_le _
  | .cons key tag rest => by
    have ih := rest.length_pairs_le
    simp only [pairs, bytes, List.length_cons, List.length_append]
    omega

@[simp] theorem Payload.id_tag {k : TagType} (p : Payload k) : p.tag.id = k.id := by
  cases p <;> rfl

@[simp]
theorem Items.length_tags {k : TagType} : {n : Nat} → (items : Items k n) → items.tags.length = n
  | _, .nil => rfl
  | _, .cons _ rest => congrArg (· + 1) rest.length_tags

theorem Items.id_of_mem_tags {k : TagType} : {n : Nat} → (items : Items k n) →
    ∀ t ∈ items.tags, t.id = k.id
  | _, .nil => nofun
  | _, .cons item rest => List.forall_mem_cons.mpr ⟨item.id_tag, rest.id_of_mem_tags⟩

mutual

theorem Payload.ordered_tag : {k : TagType} → (p : Payload k) → p.tag.Ordered
  | _, .list items _ => itemsOrdered_iff.mpr items.ordered_tags
  | _, .compound es => Compound.ordered_ofList es.ordered_pairs
  | _, .byte _ | _, .short _ | _, .int _ | _, .long _ | _, .float _ | _, .double _
  | _, .byteArray _ _ | _, .text _ | _, .emptyList _ | _, .intArray _ _ | _, .longArray _ _ =>
    trivial
termination_by structural _ p => p

theorem Items.ordered_tags :
    {k : TagType} → {n : Nat} → (items : Items k n) → ∀ tag ∈ items.tags, tag.Ordered
  | _, _, .nil => nofun
  | _, _, .cons item rest => List.forall_mem_cons.mpr ⟨item.ordered_tag, rest.ordered_tags⟩
termination_by structural _ _ items => items

theorem Entries.ordered_pairs : (es : Entries) → ∀ e ∈ es.pairs, e.2.Ordered
  | .nil => nofun
  | .cons _ tag rest => List.forall_mem_cons.mpr ⟨tag.ordered_tag, rest.ordered_pairs⟩
termination_by structural es => es

end

/-! ### Charge -/

mutual

@[simp] def Payload.cost : {k : TagType} → Payload k → Nat
  | _, .byte _ => 9
  | _, .short _ => 10
  | _, .int _ => 12
  | _, .long _ => 16
  | _, .float _ => 12
  | _, .double _ => 16
  | _, .byteArray vs _ => 24 + vs.length
  | _, .text t => t.cost
  | _, .emptyList _ => 37
  | _, .list (n := n) items _ => 37 + 4 * (n + 1) + items.cost
  | _, .compound es => 48 + es.cost
  | _, .intArray vs _ => 24 + 4 * vs.length
  | _, .longArray vs _ => 24 + 8 * vs.length
termination_by structural _ p => p

@[simp] def Items.cost : {k : TagType} → {n : Nat} → Items k n → Nat
  | _, _, .nil => 0
  | _, _, .cons item rest => item.cost + rest.cost
termination_by structural _ _ items => items

/-- Every entry is charged, also one whose key comes again. -/
@[simp] def Entries.cost : Entries → Nat
  | .nil => 0
  | .cons key tag rest => 28 + key.cost + tag.cost + rest.cost
termination_by structural es => es

end

/-! ### Nesting -/

mutual

@[simp] def Payload.height : {k : TagType} → Payload k → Nat
  | _, .list items _ => items.height
  | _, .compound es => es.height
  | _, _ => 0
termination_by structural _ p => p

@[simp] def Items.height : {k : TagType} → {n : Nat} → Items k n → Nat
  | _, _, .nil => 0
  | _, _, .cons item rest => max (item.height + 1) rest.height
termination_by structural _ _ items => items

@[simp] def Entries.height : Entries → Nat
  | .nil => 0
  | .cons _ tag rest => max (tag.height + 1) rest.height
termination_by structural es => es

end

/-! ### Trees -/

/-- A tree: a name that is not kept, and the entries. -/
structure Root where
  name : Text
  entries : Entries

namespace Root

def bytes (d : Root) : Bytes := Tag.compoundId :: (d.name.bytes ++ d.entries.bytes)

/-- What the entries mean: of equal keys the last. -/
def tree (d : Root) : Tree :=
  ⟨Compound.ofList d.entries.pairs, Compound.ordered_ofList d.entries.ordered_pairs⟩

/-- The sum of all charges, which stays at the largest size once it gets there. -/
def charge (d : Root) : Nat := satAdd d.name.cost (48 + d.entries.cost)

/-- How deep the tree nests, the root at depth zero. -/
def height (d : Root) : Nat := d.entries.height

end Root

end Grammar

/-! ### Of equal keys the last -/

namespace Compound

@[simp, grind =] theorem get?_cons (key k : String) (t : Tag) (rest : Compound) :
    get? key ((k, t) :: rest) = if k = key then some t else get? key rest := by
  by_cases h : k = key <;> simp [get?, h]

@[simp, grind =] theorem get?_insert (key key' : String) (tag : Tag) :
    ∀ c : Compound, get? key (insert key' tag c) = if key' = key then some tag else get? key c
  | [] => by simp [insert]
  | (k, t) :: rest => by
    have ih := get?_insert key key' tag rest
    unfold insert
    split_ifs with hlt heq <;> grind

theorem get?_foldl_insert (key : String) (es : List (String × Tag)) (c : Compound) :
    get? key (es.foldl (fun c (key, tag) => insert key tag c) c) =
      ((es.reverse.find? (·.1 = key)).map (·.2)).or (get? key c) := by
  induction es generalizing c with
  | nil => rfl
  | cons e es ih =>
    rw [List.foldl_cons, ih, get?_insert, List.reverse_cons, List.find?_append]
    by_cases h : e.1 = key <;> cases es.reverse.find? (·.1 = key) <;> simp [h]

/-- **Of equal keys the last counts.** -/
theorem get?_ofList (key : String) (es : List (String × Tag)) :
    get? key (ofList es) = (es.reverse.find? (·.1 = key)).map (·.2) := by
  have h := get?_foldl_insert key es []
  rwa [show get? key [] = none from rfl, Option.or_none] at h

end Compound

namespace Grammar

theorem Entries.find?_reverse_pairs (key : String) :
    (es : Entries) → (es.pairs.reverse.find? (·.1 = key)).map (·.2) = es.last? key
  | .nil => rfl
  | .cons k tag rest => by
    rw [pairs, last?, ← rest.find?_reverse_pairs key, List.reverse_cons, List.find?_append]
    by_cases h : k.string = key <;> cases rest.pairs.reverse.find? (·.1 = key) <;> simp [h]
termination_by structural es => es

/-- Under each key a tree holds the last tag that stands under it, whether the entries are those of
the root or of a compound deep inside. -/
@[simp] theorem Entries.get?_ofList_pairs (key : String) (es : Entries) :
    Compound.get? key (Compound.ofList es.pairs) = es.last? key := by
  rw [Compound.get?_ofList, es.find?_reverse_pairs]

end Grammar

end Wireform.Nbt
