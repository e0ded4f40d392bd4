import Wireform.Nbt.Decode
import Wireform.Proofs.Decoder

/-!
# The reader of trees on any bytes

Whatever the bytes are, the reader never goes back.
-/

namespace Wireform.Nbt

variable {α β : Type} {quota : Nat}

/-- `m` gives back no more bytes than it was given. -/
def Advances (m : Reader α) : Prop := ∀ s, (finalState m s).rest.length ≤ s.rest.length

namespace Advances

variable {m m' : Reader α} {f : α → Reader β}

theorem pure (a : α) : Advances (Pure.pure a) := fun _ => Nat.le_refl _

theorem throw (e : ReadFault) : Advances (throw e : Reader α) := fun _ => Nat.le_refl _

theorem get : Advances get := fun _ => Nat.le_refl _

theorem bind (hm : Advances m) (hf : ∀ a, Advances (f a)) : Advances (m >>= f) := by
  intro s
  have hle := hm s
  cases hrun : m s with
  | ok a t =>
    rw [finalState_of_ok hrun] at hle
    rw [finalState_bind_of_ok hrun]
    exact Nat.le_trans (hf a t) hle
  | error e t =>
    rw [finalState_of_error hrun] at hle
    rw [finalState_bind_of_error hrun]
    exact hle

theorem map {g : α → β} (hm : Advances m) : Advances (do return g (← m)) :=
  hm.bind fun _ => pure _

theorem ite {c : Prop} [Decidable c] (hm : Advances m) (hm' : Advances m') :
    Advances (if c then m else m') := by
  split_ifs
  · exact hm
  · exact hm'

theorem charge (cost : Nat) : Advances (.charge quota cost) := by
  refine get.bind fun s => bind ?_ fun _ => ite (throw _) (pure ())
  exact fun _ => Nat.le_refl _

theorem take (n : Nat) : Advances (.take n) := by
  intro s
  rcases Nat.lt_or_ge s.rest.length n with hlt | hle
  · have hrun : Reader.take n s = .error (.truncated n s.rest.length) s := by
      simp only [Reader.take, Decoder.take_of_lt hlt]
    exact Nat.le_of_eq (congrArg (·.rest.length) (finalState_of_error hrun))
  · have hrun : Reader.take n s = .ok (s.rest.take n) { s with rest := s.rest.drop n } := by
      simp only [Reader.take, Decoder.take_of_le hle]
    rw [finalState_of_ok hrun, List.length_drop]
    exact Nat.sub_le _ _

theorem number (width : Nat) : Advances (.number width) := (take width).map

theorem typeId : Advances .typeId := (number 1).map

theorem count : Advances .count := (number 4).bind fun _ => ite (throw _) (pure _)

theorem text : Advances (.text quota) := by
  refine (number 2).bind fun size => (charge _).bind fun _ => (take size).bind fun bytes => ?_
  cases ModifiedUtf8.decode bytes with
  | ok s => exact pure s
  | error e => exact throw e

theorem go (hm : Advances m) : ∀ (n : Nat) (acc : List α), Advances (Reader.replicate.go m n acc)
  | 0, _ => pure _
  | n + 1, _ => hm.bind fun _ => go hm n _

/-- Any number of runs in a row. -/
theorem replicate (hm : Advances m) (n : Nat) : Advances (.replicate n m) := go hm n []

theorem entries {payload : UInt8 → Reader Tag} (hp : ∀ id, Advances (payload id)) :
    ∀ (fuel : Bytes) (c : Compound), Advances (.entries quota payload fuel c)
  | fuel, c => by
    rw [Reader.entries_eq]
    refine typeId.bind fun id => ite (pure c) ?_
    refine text.bind fun key => (charge _).bind fun _ => (hp id).bind fun tag => ?_
    cases fuel with
    | nil => exact throw _
    | cons b fuel => exact entries hp fuel _
termination_by structural fuel => fuel

theorem compound {payload : UInt8 → Reader Tag} (hp : ∀ id, Advances (payload id)) :
    Advances (.compound quota payload) :=
  (charge _).bind fun _ => get.bind fun s => entries hp s.rest _

theorem payload (budget : Budget) :
    ∀ (levels : Nat) (id : UInt8), Advances (.payload budget levels id)
  | 0, _ => throw _
  | levels + 1, id => by
    have ih := payload budget levels
    have hscalar (cost width : Nat) (g : Nat → Tag) : Advances (do
        Reader.charge budget.quota cost
        return g (← Reader.number width)) := (charge cost).bind fun _ => (number width).map
    have harray (width : Nat) {read : Nat → Reader Tag} (h : ∀ n, Advances (read n)) :
        Advances (do
          let n ← Reader.count
          Reader.charge budget.quota (Cost.array n width)
          read n) := count.bind fun n => (charge _).bind fun _ => h n
    have hitems (item : UInt8) (n : Nat) : Advances (do
        return Tag.list (← Reader.replicate n (.payload budget levels item))) :=
      ((ih item).replicate n).map
    unfold Reader.payload
    split
    · exact hscalar _ 1 _
    · exact hscalar _ 2 _
    · exact hscalar _ 4 _
    · exact hscalar _ 8 _
    · exact hscalar _ 4 _
    · exact hscalar _ 8 _
    · exact harray 1 fun n => (take n).map
    · exact text.map
    · refine typeId.bind fun item => count.bind fun n => (charge _).bind fun _ => ite ?_ ?_
      · exact (throw _).bind fun _ => hitems item n
      · exact hitems item n
    · exact (compound ih).map
    · exact harray 4 fun n => ((number 4).map.replicate n).map
    · exact harray 8 fun n => ((number 8).map.replicate n).map
    · exact throw _

theorem tree (budget : Budget) : Advances (.tree budget) := by
  refine typeId.bind fun id => ite ((throw _).bind fun _ => ?_) ?_
  · exact text.bind fun _ => compound (payload budget _)
  · exact text.bind fun _ => compound (payload budget _)

end Advances

/-- **The cursor never goes back.** -/
theorem length_decodeTree_le (budget : Budget) (bytes : Bytes) :
    (finalState (decodeTree budget) bytes).length ≤ bytes.length := by
  have hle := Advances.tree budget ⟨0, bytes⟩
  rcases decodeTree_cases budget bytes with ⟨t, s, hrun, hdecode⟩ | ⟨e, s, hrun, hdecode⟩
  · rw [finalState_of_ok hrun] at hle
    rwa [finalState_of_ok hdecode]
  · rw [finalState_of_error hrun] at hle
    rwa [finalState_of_error hdecode]

end Wireform.Nbt
