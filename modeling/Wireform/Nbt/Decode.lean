import Wireform.Nbt.Reader
import Wireform.Nbt.Tree

/-!
# Reading trees in order

Entries are put into a compound one by one, so what the reader answers is in order: it is a tree.
-/

namespace Wireform.Nbt

namespace Reader

/-- All that a reader answers has a property. -/
def Answers (m : Reader α) (P : α → Prop) : Prop := ∀ s a s', m s = .ok a s' → P a

namespace Answers

variable {m : Reader α} {f : α → Reader β} {P : α → Prop} {Q : β → Prop}

theorem pure {a : α} (h : P a) : Answers (Pure.pure a) P := by
  rintro s a s' ⟨⟩
  exact h

theorem throw (e : ReadFault) : Answers (throw e) P := by
  rintro s a s' ⟨⟩

theorem bind (hm : Answers m P) (hf : ∀ a, P a → Answers (f a) Q) : Answers (m >>= f) Q := by
  intro s b s' h
  change EStateM.bind m f s = .ok b s' at h
  unfold EStateM.bind at h
  split at h
  case h_1 a t hrun => exact hf a (hm s a t hrun) t b s' h
  case h_2 => cases h

/-- Whatever the first reader answers. -/
theorem after (hf : ∀ a, Answers (f a) Q) : Answers (m >>= f) Q :=
  bind (fun _ _ _ _ => trivial) fun a (_ : True) => hf a

theorem go (hm : Answers m P) : ∀ (n : Nat) {acc : List α}, (∀ a ∈ acc, P a) →
    Answers (replicate.go m n acc) fun as => ∀ a ∈ as, P a
  | 0, _, hacc => pure fun a ha => hacc a (List.mem_reverse.mp ha)
  | n + 1, _, hacc => hm.bind fun _ ha => go hm n (List.forall_mem_cons.mpr ⟨ha, hacc⟩)

theorem entries {quota : Nat} {payload : UInt8 → Reader Tag}
    (hp : ∀ id, Answers (payload id) Tag.Ordered) :
    ∀ (fuel : Bytes) {c : Compound}, c.Ordered →
      Answers (Reader.entries quota payload fuel c) Compound.Ordered
  | fuel, c, hc => by
    rw [entries_eq]
    refine after fun id => ?_
    split
    · exact pure hc
    · refine after fun key => after fun _ => (hp id).bind fun tag htag => ?_
      cases fuel with
      | nil => exact throw _
      | cons b fuel => exact entries hp fuel (Compound.ordered_insert hc htag)
termination_by structural fuel => fuel

theorem compound {quota : Nat} {payload : UInt8 → Reader Tag}
    (hp : ∀ id, Answers (payload id) Tag.Ordered) :
    Answers (Reader.compound quota payload) Compound.Ordered :=
  after fun _ => after fun _ => entries hp _ Compound.ordered_nil

theorem payload (budget : Budget) : ∀ (levels : Nat) (id : UInt8),
    Answers (Reader.payload budget levels id) Tag.Ordered
  | 0, _ => throw _
  | levels + 1, id => by
    have ih := payload budget levels
    have hitems (item : UInt8) (n : Nat) : Answers (do
        return Tag.list (← replicate n (Reader.payload budget levels item))) Tag.Ordered :=
      (go (ih item) n (List.forall_mem_nil _)).bind fun _ h => pure (itemsOrdered_iff.mpr h)
    unfold Reader.payload
    split
    case h_9 =>
      refine after fun item => after fun n => after fun _ => ?_
      split
      · exact after fun _ => hitems item n
      · exact hitems item n
    case h_10 => exact (compound ih).bind fun _ h => pure h
    case h_13 => exact throw _
    all_goals repeat first | exact pure trivial | refine after fun _ => ?_

theorem tree (budget : Budget) : Answers (Reader.tree budget) Compound.Ordered := by
  refine after fun id => ?_
  split
  · exact after fun _ => after fun _ => compound (payload budget _)
  · exact after fun _ => compound (payload budget _)

end Answers

end Reader

/-- Reads a tree within a budget. -/
def decodeTree (budget : Budget) : Decoder Tree := fun bytes =>
  match hrun : Reader.tree budget ⟨0, bytes⟩ with
  | .ok entries s => .ok ⟨entries, Reader.Answers.tree budget _ _ _ hrun⟩ s.rest
  | .error e s => .error (.structureDecode e) s.rest

variable {budget : Budget} {bytes : Bytes} {t : Tree} {e : ReadFault} {s : Progress}

theorem decodeTree_of_ok (h : Reader.tree budget ⟨0, bytes⟩ = .ok t.entries s) :
    decodeTree budget bytes = .ok t s.rest := by
  unfold decodeTree
  split <;> simp_all

theorem decodeTree_of_error (h : Reader.tree budget ⟨0, bytes⟩ = .error e s) :
    decodeTree budget bytes = .error (.structureDecode e) s.rest := by
  unfold decodeTree
  split <;> simp_all

/-- The decoder answers as the reader does. -/
theorem decodeTree_cases (budget : Budget) (bytes : Bytes) :
    (∃ t s, Reader.tree budget ⟨0, bytes⟩ = .ok t.entries s ∧
      decodeTree budget bytes = .ok t s.rest) ∨
    ∃ e s, Reader.tree budget ⟨0, bytes⟩ = .error e s ∧
      decodeTree budget bytes = .error (.structureDecode e) s.rest := by
  cases hrun : Reader.tree budget ⟨0, bytes⟩ with
  | ok entries s =>
    let t : Tree := ⟨entries, Reader.Answers.tree budget _ _ _ hrun⟩
    have h : Reader.tree budget ⟨0, bytes⟩ = .ok t.entries s := hrun
    exact .inl ⟨t, s, rfl, decodeTree_of_ok h⟩
  | error e s => exact .inr ⟨e, s, rfl, decodeTree_of_error hrun⟩

end Wireform.Nbt
