import Wireform.Proofs.Codec.SelfDelimiting
import Wireform.Proofs.Nbt.Meaning

/-!
# Trees that are passed on

A tree that was read is written under no name, with each key once and every unit in as few bytes as
it takes.  It nests no deeper that way and shares its types and counts, but the unit zero, which may
be read from one byte, is written in two: texts that hold it can become too long to be written, and
the charge can exceed the quota that the tree was read under.  Nothing else can go wrong.
-/

namespace Wireform.Nbt

namespace Grammar

/-! ### Texts without a zero byte -/

/-- No key and no text stands in bytes of which one is zero. -/
def Root.Plain (d : Root) : Prop := ∀ t ∈ d.entries.texts, 0 ∉ t.content

variable {d : Root}

/-- Without a zero byte a text is written in no more bytes than it was read from. -/
theorem Text.size_string_le {t : Text} (h : 0 ∉ t.content) :
    ModifiedUtf8.size t.string ≤ t.content.length := ModifiedUtf8.size_lossy_groups_le h

/-- Only a text can keep a tree that was read from being written. -/
theorem Root.writable_tree_iff (d : Root) :
    EntriesWritable d.tree.entries ↔ ∀ s ∈ d.tree.texts, TextWritable s := by
  rw [Tree.writable_iff]
  exact and_iff_left (Payload.compound d.entries).regular_parts

theorem Root.textWritable_of_plain (h : d.Plain) : ∀ s ∈ d.tree.texts, TextWritable s := by
  intro s hs
  obtain ⟨t, ht, rfl⟩ := (Payload.compound d.entries).mem_texts s hs
  exact Nat.le_trans (Text.size_string_le (h t ht)) t.fits

theorem Root.charge_tree_le (h : d.Plain) : d.tree.charge ≤ d.charge := by
  have hcost : (Tag.compound d.tree.entries).cost ≤ 48 + d.entries.cost := by
    rw [← Tag.costBy_textCost]
    refine (Payload.compound d.entries).costBy_tag_le fun t ht => ?_
    have hsize := Text.size_string_le (h t ht)
    rw [textCost, Text.cost]
    omega
  have hname : 36 ≤ d.name.cost := Nat.le_add_right _ _
  rw [Tree.charge, Root.charge]
  unfold satAdd
  omega

/-! ### Zero bytes -/

section Zeros

variable {n : Nat} {hn : n ≤ ModifiedUtf8.maxBytes}

/-- A text of units zero, each in one byte. -/
def Text.zeros (n : Nat) (hn : n ≤ ModifiedUtf8.maxBytes) : Text where
  groups := List.replicate n (.one 0 (by decide))
  fits := by
    simpa [ModifiedUtf8.Group.bytes] using hn

/-- A tree of one text of units zero. -/
def Root.zeros (n : Nat) (hn : n ≤ ModifiedUtf8.maxBytes) : Root where
  name := .zeros 0 (Nat.zero_le _)
  entries := .cons (Text.zeros 0 (Nat.zero_le _)) (.text (Text.zeros n hn)) .nil

theorem Text.length_content_zeros : (Text.zeros n hn).content.length = n := by
  simp [Text.zeros, Text.content, ModifiedUtf8.Group.bytes]

/-- A unit zero is written in two bytes. -/
theorem Text.size_zeros : ModifiedUtf8.size (Text.zeros n hn).string = 2 * n := by
  have hunit : (ModifiedUtf8.unitBytes 0).length = 2 := rfl
  have hzero : (ModifiedUtf8.Group.one 0 (by decide)).unit = 0 := rfl
  rw [Text.string, ModifiedUtf8.size_lossy, Text.zeros, List.map_replicate, hzero]
  simp [hunit, Nat.mul_comm]

theorem Root.charge_zeros_le : (Root.zeros n hn).charge ≤ 184 + 2 * n := by
  have hcharge : (Root.zeros n hn).charge =
      satAdd 36 (48 + (28 + 36 + (36 + 2 * (Text.zeros n hn).content.length) + 0)) := rfl
  rw [hcharge, Text.length_content_zeros, satAdd]
  omega

theorem Root.textWritable_zeros_iff :
    (∀ s ∈ (Root.zeros n hn).tree.texts, TextWritable s) ↔ 2 * n ≤ ModifiedUtf8.maxBytes := by
  have htexts : (Root.zeros n hn).tree.texts = ["", (Text.zeros n hn).string] := rfl
  rw [htexts, List.forall_mem_cons, and_iff_right textWritable_empty, List.forall_mem_singleton,
    TextWritable, Text.size_zeros]

end Zeros

end Grammar

end Wireform.Nbt

namespace Wireform.Buffer

open Nbt

variable {b b' : Buffer} {limits : Limits} {tree : Option Tree} {rest : Bytes}

theorem read_nbt_eq_ok_iff (hl : b.layout? = none) :
    read .nbt b = .ok (.nbt tree) b' ↔ ∃ rest, Decode.nbt b.limits b.unread = .ok tree rest ∧
      b' = b.leaving rest.length := by
  have hmap : ∀ bytes rest, WireType.decode b.limits .nbt bytes = .ok (.nbt tree) rest ↔
      Decode.nbt b.limits bytes = .ok tree rest := by
    intro bytes rest
    rw [WireType.decode]
    cases hrun : Decode.nbt b.limits bytes with
    | ok tree' rest' =>
      rw [bind_of_ok hrun, pure_eq]
      simp
    | error e rest' =>
      rw [bind_of_error hrun]
      simp
  rw [read_of_checkField (checkField_of_none hl), Action.ofDecoder_eq_ok_iff]
  simp only [hmap]

theorem read_root {d : Grammar.Root} (hl : b.layout? = none) (hd : b.unread = d.bytes ++ rest)
    (hcharge : d.charge ≤ b.limits.nbtQuota) (hheight : d.height ≤ b.limits.nbtDepth) :
    read .nbt b = .ok (.nbt (some d.tree)) (b.leaving rest.length) :=
  (read_nbt_eq_ok_iff hl).mpr
    ⟨rest, nbt_eq_ok_iff.mpr (.inr ⟨d, hd, hcharge, hheight, rfl⟩), rfl⟩

/-- What was read was derived. -/
theorem exists_root_of_read {t : Tree} (hl : b.layout? = none)
    (h : read .nbt b = .ok (.nbt (some t)) b') :
    ∃ d : Grammar.Root, b.unread = d.bytes ++ b'.unread ∧ t = d.tree := by
  obtain ⟨rest, hrun, rfl⟩ := (read_nbt_eq_ok_iff hl).mp h
  rcases nbt_eq_ok_iff.mp hrun with ⟨-, htree⟩ | ⟨d, hbytes, -, -, htree⟩
  · cases htree
  · cases htree
    rw [unread_leaving hbytes]
    exact ⟨d, hbytes, rfl⟩

/-- What was derived was derived within the limits, and is what was read. -/
theorem root_of_read {d : Grammar.Root} (hl : b.layout? = none)
    (h : read .nbt b = .ok (.nbt tree) b') (hd : b.unread = d.bytes ++ rest) :
    d.charge ≤ b.limits.nbtQuota ∧ d.height ≤ b.limits.nbtDepth ∧ tree = some d.tree := by
  obtain ⟨rest', hrun, -⟩ := (read_nbt_eq_ok_iff hl).mp h
  obtain ⟨hallowed, hrefused⟩ := decodeTree_root d ⟨b.limits.nbtQuota, b.limits.nbtDepth⟩ rest
  rw [hd, nbt_root] at hrun
  by_cases hfits : d.charge ≤ b.limits.nbtQuota ∧ d.height ≤ b.limits.nbtDepth
  · rw [bind_of_ok (hallowed hfits)] at hrun
    cases hrun
    exact ⟨hfits.1, hfits.2, rfl⟩
  · obtain ⟨e, tail, herr, -⟩ := hrefused hfits
    rw [bind_of_error herr] at hrun
    cases hrun

/-- A tree, or none, can be written to a fresh buffer with some limits and is read back from it to
the end. -/
def Forwards (limits : Limits) (tree : Option Tree) : Prop :=
  ∃ s, write ⟨.nbt, .nbt tree, rfl⟩ (ofLimits limits) = .ok () s ∧
    read .nbt s = .ok (.nbt tree) (s.advance s.unreadSize)

theorem exists_write_iff :
    (∃ s, write ⟨.nbt, .nbt tree, rfl⟩ (ofLimits limits) = .ok () s) ↔
      (Encode.nbt tree).fault? = none := by
  constructor
  · rintro ⟨s, h⟩
    exact (Action.ofEmission_eq_ok_iff.mp h).1
  · exact fun h => ⟨_, Action.ofEmission_of_none h⟩

theorem forwards_iff :
    Forwards limits tree ↔ (Encode.nbt tree).fault? = none ∧ (Value.nbt tree).Within limits := by
  constructor
  · rintro ⟨s, hwrite, hread⟩
    obtain ⟨hemit, rfl⟩ := Action.ofEmission_eq_ok_iff.mp hwrite
    refine ⟨hemit, ?_⟩
    by_contra hwithin
    obtain ⟨rest, hrun, -⟩ := (read_nbt_eq_ok_iff rfl).mp hread
    obtain ⟨e, tail, herr⟩ := (decodesIf_nbt limits hemit []).2 hwithin
    rw [List.append_nil] at herr
    cases hrun.symm.trans herr
  · rintro ⟨hemit, hwithin⟩
    refine ⟨_, Action.ofEmission_of_none hemit, (read_nbt_eq_ok_iff rfl).mpr ⟨[], ?_, ?_⟩⟩
    · have hrun := (decodesIf_nbt limits hemit []).1 hwithin
      rwa [List.append_nil] at hrun
    · exact (leaving_zero _).symm

section Root

variable {d : Grammar.Root}

theorem exists_write_root_iff :
    (∃ s, write ⟨.nbt, .nbt (some d.tree), rfl⟩ (ofLimits limits) = .ok () s) ↔
      ∀ s ∈ d.tree.texts, TextWritable s :=
  exists_write_iff.trans (emit_fault?_eq_none_iff.trans d.writable_tree_iff)

/-- Of what a tree was held to when it was read, what is written can exceed only the quota. -/
theorem forwards_root_iff (hheight : d.height ≤ limits.nbtDepth) :
    Forwards limits (some d.tree) ↔
      (∀ s ∈ d.tree.texts, TextWritable s) ∧ d.tree.charge ≤ limits.nbtQuota := by
  rw [forwards_iff]
  exact and_congr (emit_fault?_eq_none_iff.trans d.writable_tree_iff)
    (and_iff_left (Nat.le_trans d.height_tree_le hheight))

theorem forwards_of_plain (hplain : d.Plain) (hcharge : d.charge ≤ limits.nbtQuota)
    (hheight : d.height ≤ limits.nbtDepth) : Forwards limits (some d.tree) :=
  (forwards_root_iff hheight).mpr ⟨Grammar.Root.textWritable_of_plain hplain,
    Nat.le_trans (Grammar.Root.charge_tree_le hplain) hcharge⟩

end Root

/-- **What was read can be written unless a text is too long**, and is then read back unless it
exceeds the quota.  Both hold if no text was read from a zero byte. -/
theorem forwards_of_read (hl : b.layout? = none) (h : read .nbt b = .ok (.nbt tree) b') :
    ((∃ s, write ⟨.nbt, .nbt tree, rfl⟩ (ofLimits b.limits) = .ok () s) ↔
      ∀ t, tree = some t → ∀ s ∈ t.texts, TextWritable s) ∧
    (Forwards b.limits tree ↔
      ∀ t, tree = some t → (∀ s ∈ t.texts, TextWritable s) ∧ t.charge ≤ b.limits.nbtQuota) ∧
    (∀ t, tree = some t → ∃ d : Grammar.Root, b.unread = d.bytes ++ b'.unread ∧ t = d.tree) ∧
    ∀ d : Grammar.Root, b.unread = d.bytes ++ b'.unread → d.Plain → Forwards b.limits tree := by
  have hplain (d : Grammar.Root) (hd : b.unread = d.bytes ++ b'.unread) (hd' : d.Plain) :
      Forwards b.limits tree := by
    obtain ⟨hcharge, hheight, rfl⟩ := root_of_read hl h hd
    exact forwards_of_plain hd' hcharge hheight
  cases tree with
  | none =>
    have hforwards : Forwards b.limits none := forwards_iff.mpr ⟨rfl, trivial⟩
    exact ⟨iff_of_true (exists_write_iff.mpr rfl) nofun, iff_of_true hforwards nofun, nofun,
      hplain⟩
  | some t =>
    obtain ⟨d, hbytes, rfl⟩ := exists_root_of_read hl h
    obtain ⟨-, hheight, -⟩ := root_of_read hl h hbytes
    simp only [Option.some.injEq, forall_eq']
    exact ⟨exists_write_root_iff, forwards_root_iff hheight, ⟨d, hbytes, rfl⟩, hplain⟩

/-- One key twice, once in more bytes than it takes. -/
def overlong : Buffer := ofBytes [10, 0, 1, 0x78, 1, 0, 2, 0xC1, 0xA1, 7, 1, 0, 1, 0x61, 8, 0]

theorem forwards_of_read_overlong :
    read .nbt overlong = .ok (.nbt (some (.ofList [("a", .byte 8)]))) (overlong.advance 16) ∧
      Forwards .standard (some (.ofList [("a", .byte 8)])) := by
  have hread : read .nbt overlong =
      .ok (.nbt (some (.ofList [("a", .byte 8)]))) (overlong.advance 16) := rfl
  refine ⟨hread, (forwards_of_read rfl hread).2.1.mpr ?_⟩
  rintro c ⟨⟩
  refine ⟨List.forall_mem_singleton.mpr ?_, ?_⟩
  · exact (by decide : ModifiedUtf8.size "a" ≤ 65535)
  · exact (by decide : Tree.charge (.ofList [("a", .byte 8)]) ≤ 2097152)

/-- A tree that was read need not pass: a key of one zero byte takes two bytes behind it, which the
quota did not allow for, and a text of many zero bytes takes more than a text may. -/
theorem not_forwards_zeros :
    (∃ b', read .nbt { ofBytes [10, 0, 0, 1, 0, 1, 0, 7, 0] with limits := ⟨32767, 159, 512⟩ } =
        .ok (.nbt (some (.ofList [("\x00", .byte 7)]))) b' ∧
      ¬ Forwards ⟨32767, 159, 512⟩ (some (.ofList [("\x00", .byte 7)]))) ∧
    ∃ (d : Grammar.Root) (b' : Buffer), read .nbt (ofBytes d.bytes) = .ok (.nbt (some d.tree)) b' ∧
      ¬ ∃ s, write ⟨.nbt, .nbt (some d.tree), rfl⟩ (ofLimits .standard) = .ok () s := by
  constructor
  · refine ⟨_, rfl, ?_⟩
    rintro ⟨s, hwrite, hread⟩
    cases hwrite
    cases hread
  · have hn : 32768 ≤ ModifiedUtf8.maxBytes := by decide
    refine ⟨.zeros 32768 hn, _, read_root rfl (List.append_nil _).symm ?_ ?_, ?_⟩
    · exact Nat.le_trans Grammar.Root.charge_zeros_le (by decide : 184 + 2 * 32768 ≤ 2097152)
    · exact (by decide : 1 ≤ 512)
    · rw [exists_write_root_iff, Grammar.Root.textWritable_zeros_iff]
      decide

end Wireform.Buffer
