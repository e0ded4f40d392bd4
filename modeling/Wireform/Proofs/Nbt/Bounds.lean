import Wireform.Proofs.Nbt.Meaning
import Wireform.Proofs.Nbt.Recognition

/-!
# What the limits bound

The depth and the quota are held against what is read, which may be more than what comes of it:
entries whose key comes again are dropped, and texts shrink.  Whatever was accepted is within them
all the same, and it is no larger than what it was read from.
-/

namespace Wireform.Buffer

open Nbt

variable {b b' : Buffer} {budget : Budget} {t : Tree}

/-- What was read was derived, within the budget, from the bytes passed over. -/
theorem exists_root_of_readTree (h : readTree budget b = .ok t b') :
    ∃ d : Grammar.Root, t = d.tree ∧ d.charge ≤ budget.quota ∧ d.height ≤ budget.depth ∧
      d.bytes.length ≤ b.unreadSize ∧ b' = b.advance d.bytes.length := by
  obtain ⟨rest, hdecode, rfl⟩ := Action.ofDecoder_eq_ok_iff.mp h
  obtain ⟨d, hunread, hcharge, hheight, rfl⟩ := decodeTree_eq_ok_iff.mp hdecode
  exact ⟨d, rfl, hcharge, hheight, length_le_unreadSize hunread, leaving_of_unread hunread⟩

/-- **The limits bound every tree that is accepted.**  If it was read from `k` bytes, it nests no
deeper than allowed, the items of each of its lists share a type, its tags, the elements of its
arrays and the units of its texts together are no more than `k`, and what it is estimated to take is
within the quota. -/
theorem bounds_of_readTree (hquota : budget.quota < sizeMax) (h : readTree budget b = .ok t b') :
    ∃ k ≤ b.unreadSize, b' = b.advance k ∧
      t.height ≤ budget.depth ∧
      (∀ part ∈ t.parts, part.Uniform) ∧
      t.parts.length + (t.parts.map Tag.elements).sum + (t.texts.map Utf16.length).sum ≤ k ∧
      t.estimate ≤ budget.quota := by
  obtain ⟨d, rfl, hcharge, hheight, hsize, hb'⟩ := exists_root_of_readTree h
  refine ⟨d.bytes.length, hsize, hb', Nat.le_trans d.height_tree_le hheight, fun part hpart => ?_,
    d.weigh_tree_le, ?_⟩
  · obtain ⟨huniform, -⟩ := d.regular_parts part hpart
    exact huniform
  · exact Nat.le_trans (d.estimate_tree_le (Nat.lt_of_le_of_lt hcharge hquota)) hcharge

/-- A text, and a number in its place. -/
def replaced : Buffer := ofBytes [10, 0, 0, 8, 0, 1, 0x61, 0, 2, 0xC0, 0x80, 1, 0, 1, 0x61, 8, 0]

/-- The text was charged as well, so that what is left is far within the quota. -/
theorem bounds_of_readTree_replaced :
    let t : Tree := .ofList [("a", .byte 8)]
    readTree ⟨265, 1⟩ replaced = .ok t (replaced.advance 17) ∧ t.height ≤ 1 ∧ t.estimate ≤ 265 := by
  intro t
  have hread : readTree ⟨265, 1⟩ replaced = .ok t (replaced.advance 17) := rfl
  have hquota : (Budget.mk 265 1).quota < sizeMax := by decide
  obtain ⟨k, -, -, hheight, -, -, hestimate⟩ := bounds_of_readTree hquota hread
  exact ⟨hread, hheight, hestimate⟩

end Wireform.Buffer
