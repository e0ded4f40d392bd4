import Wireform.Gate.Store
import Wireform.Proofs.Gate.Rules

/-!
# Histories of gates

An operation on a store works on the one family that its handle names, as `Operation.onGate` says,
and leaves every other family alone (`step_run`).  From that one step, by induction over the
operations: the rules of a family are those it accepted, in the order of their registration, and its
counters are those of the dispatches it saw.
-/

namespace Wireform.Gate

variable {γ τ : Type} {s s' : Store γ τ} {g : Gate γ τ} {op : Operation γ τ}
  {ops : List (Operation γ τ)} {handle family i : Nat}

/-! ### The state of a family -/

namespace Store

/-- Every handle names a family there is. -/
def Sound (s : Store γ τ) : Prop := ∀ family ∈ s.handles, family < s.families.length

/-- The state that a family shares.  A family that is yet to come has the empty gate. -/
def gateOf (s : Store γ τ) (family : Nat) : Gate γ τ := s.families[family]?.getD Gate.empty

/-- Puts a state in the place of a family's. -/
def setGate (s : Store γ τ) (family : Nat) (g : Gate γ τ) : Store γ τ :=
  { s with families := s.families.set family g }

theorem Sound.empty : (Store.empty : Store γ τ).Sound := nofun

theorem Sound.lt (hs : s.Sound) (hf : s.handles[handle]? = some family) :
    family < s.families.length := hs family (List.mem_of_getElem? hf)

theorem Sound.gate?_eq (hs : s.Sound) : s.gate? handle = s.handles[handle]?.map s.gateOf := by
  unfold gate? gateOf
  cases hf : s.handles[handle]? with
  | none => rfl
  | some family =>
    have hlt := hs.lt hf
    simp [hlt]

theorem update_eq (hf : s.handles[handle]? = some family) :
    s.update handle g = s.setGate family g := by
  rw [update, hf]
  rfl

theorem gateOf_setGate (h : family < s.families.length) :
    (s.setGate family g).gateOf i = if family = i then g else s.gateOf i := by
  unfold setGate gateOf
  rw [List.getElem?_set]
  split_ifs with hi
  · rfl
  · rfl

theorem setGate_gateOf (h : family < s.families.length) :
    s.setGate family (s.gateOf family) = s := by
  unfold setGate gateOf
  simp [h]

@[simp] theorem gateOf_new : (s.new).gateOf i = s.gateOf i := by
  unfold new gateOf
  by_cases hi : i < s.families.length
  · rw [List.getElem?_append_left hi]
  · have hle : s.families.length ≤ i := Nat.le_of_not_lt hi
    rw [List.getElem?_append_right hle, List.getElem?_eq_none hle, List.getElem?_singleton]
    split_ifs <;> rfl

end Store

/-! ### One operation -/

/-- The handle whose gate an operation changes or asks. -/
def Operation.handle? : Operation γ τ → Option Nat
  | new | clone _ => none
  | register handle _ _ _ | covers handle _ _ | dispatch handle _ _ _ => some handle

/-- The family whose gate an operation changes or asks. -/
def Operation.family? (op : Operation γ τ) (s : Store γ τ) : Option Nat := do
  s.handles[← op.handle?]?

/-- What an operation does to the gate behind its handle. -/
def Operation.onGate : Operation γ τ → EStateM Fault (Gate γ τ) (Reply τ)
  | new | clone _ => pure .done
  | register _ kind range handler => fun g =>
    match g.register kind range handler with
    | .ok g' => .ok .done g'
    | .error e => .error e g
  | covers _ kind v => fun g => .ok (.covered (g.covers kind v)) g
  | dispatch _ kind v context => do return .packet (← Gate.dispatch kind v context)

/-- A gate accepts a rule that meets none it has, and refuses any other. -/
theorem onGate_register_cases (g : Gate γ τ) (handle : Nat) (kind : String) (range : VersionRange)
    (handler : Handler γ τ) :
    ((∀ r ∈ g.rules, ¬ r.Meets ⟨kind, range, handler⟩) ∧
        (Operation.register handle kind range handler).onGate g =
          .ok .done { g with rules := g.rules ++ [⟨kind, range, handler⟩] }) ∨
      ((∃ r ∈ g.rules, r.Meets ⟨kind, range, handler⟩) ∧
        ∃ c, (Operation.register handle kind range handler).onGate g = .error (.config c) g) := by
  let rule : Rule γ τ := ⟨kind, range, handler⟩
  unfold Operation.onGate
  by_cases h : ∃ r ∈ g.rules, r.Meets rule
  · obtain ⟨c, hc⟩ := register_of_meets h
    refine .inr ⟨h, c, ?_⟩
    simp only [rule] at hc
    simp only [hc]
  · have hnot : ∀ r ∈ g.rules, ¬ r.Meets rule := by
      intro r hr hmeets
      exact h ⟨r, hr, hmeets⟩
    have hok := register_of_not_meets hnot
    refine .inl ⟨hnot, ?_⟩
    simp only [rule] at hok
    simp only [hok]

/-- An operation with a handle works on the gate of the handle's family. -/
theorem run_eq_onGate (hs : s.Sound) (op : Operation γ τ) (hf : op.family? s = some family) :
    outcome op.run s = outcome op.onGate (s.gateOf family) ∧
      finalState op.run s = s.setGate family (finalState op.onGate (s.gateOf family)) := by
  obtain ⟨handle, hop, hhandle⟩ := Option.bind_eq_some_iff.mp hf
  have hlt := hs.lt hhandle
  have hgate : s.gate? handle = some (s.gateOf family) := by
    rw [hs.gate?_eq, hhandle]
    rfl
  have hsame := Store.setGate_gateOf hlt
  cases op with
  | new => cases hop
  | clone => cases hop
  | register handle kind range handler =>
    cases hop
    unfold outcome finalState Operation.run Operation.onGate
    simp only [bind_eq, get_eq, hgate]
    cases hreg : (s.gateOf family).register kind range handler with
    | ok g => exact ⟨rfl, Store.update_eq hhandle⟩
    | error e => exact ⟨rfl, hsame.symm⟩
  | covers handle kind v =>
    cases hop
    unfold outcome finalState Operation.run Operation.onGate
    simp only [bind_eq, get_eq, hgate]
    exact ⟨rfl, hsame.symm⟩
  | dispatch handle kind v context =>
    cases hop
    unfold outcome finalState Operation.run Operation.onGate
    simp only [bind_eq, get_eq, hgate]
    cases hrun : Gate.dispatch kind v context (s.gateOf family) with
    | ok packet? g => exact ⟨rfl, Store.update_eq hhandle⟩
    | error e g => exact ⟨rfl, Store.update_eq hhandle⟩

/-- A handle that was not given out is answered without a fault and changes nothing. -/
theorem run_of_missing (hs : s.Sound) (hf : op.family? s = none) (hop : op.handle?.isSome = true) :
    ∃ reply, op.run s = .ok reply s := by
  have hgate {handle : Nat} (hh : s.handles[handle]? = none) : s.gate? handle = none := by
    rw [hs.gate?_eq, hh]
    rfl
  unfold Operation.run
  cases op with
  | new => cases hop
  | clone => cases hop
  | register =>
    simp only [bind_eq, get_eq, hgate hf]
    exact ⟨.done, rfl⟩
  | covers => exact ⟨_, rfl⟩
  | dispatch =>
    simp only [bind_eq, get_eq, hgate hf]
    exact ⟨.packet none, rfl⟩

/-- All that an operation can do to a store. -/
inductive Step (s : Store γ τ) : Operation γ τ → Store γ τ → Prop where
  | new : Step s .new s.new
  | clone (handle family : Nat) (h : s.handles[handle]? = some family) :
    Step s (.clone handle) { s with handles := s.handles ++ [family] }
  | gate (op : Operation γ τ) (family : Nat) (h : op.family? s = some family) :
    Step s op (s.setGate family (finalState op.onGate (s.gateOf family)))
  | uncloned (handle : Nat) (h : s.handles[handle]? = none) : Step s (.clone handle) s
  | missing (op : Operation γ τ) (hop : op.handle?.isSome = true) (h : op.family? s = none) :
    Step s op s

/-- **What an operation does to a store.** -/
theorem step_run (hs : s.Sound) (op : Operation γ τ) : Step s op (finalState op.run s) := by
  cases hf : op.family? s with
  | some family =>
    rw [(run_eq_onGate hs op hf).2]
    exact .gate op family hf
  | none =>
    cases op with
    | new => exact .new
    | clone handle =>
      show Step s (.clone handle) (s.clone handle)
      unfold Store.clone
      cases hh : s.handles[handle]? with
      | none => exact .uncloned handle hh
      | some family => exact .clone handle family hh
    | register | covers | dispatch =>
      obtain ⟨reply, hrun⟩ := run_of_missing hs hf rfl
      rw [finalState_of_ok hrun]
      exact .missing _ rfl hf

/-- Every operation leaves every family but its own alone. -/
theorem Step.gateOf (h : Step s op s') (hs : s.Sound) :
    s'.gateOf i =
      if op.family? s = some i then finalState op.onGate (s.gateOf i) else s.gateOf i := by
  cases h with
  | new => exact Store.gateOf_new
  | clone handle family h => rfl
  | gate _ family hf =>
    obtain ⟨handle, -, hhandle⟩ := Option.bind_eq_some_iff.mp hf
    rw [Store.gateOf_setGate (hs.lt hhandle), hf]
    simp only [Option.some.injEq]
    split_ifs with hi
    · rw [hi]
    · rfl
  | uncloned handle h => rfl
  | missing _ _ hf =>
    rw [hf]
    rfl

/-- Handles are only ever added, and a handle keeps its family. -/
theorem Step.handles (h : Step s op s') : ∃ more, s'.handles = s.handles ++ more := by
  cases h with
  | new => exact ⟨_, rfl⟩
  | clone handle family h => exact ⟨_, rfl⟩
  | gate _ family hf => exact ⟨[], (List.append_nil _).symm⟩
  | uncloned handle h => exact ⟨[], (List.append_nil _).symm⟩
  | missing _ _ hf => exact ⟨[], (List.append_nil _).symm⟩

theorem Step.sound (h : Step s op s') (hs : s.Sound) : s'.Sound := by
  cases h with
  | new =>
    intro family hmem
    show family < (s.families ++ [Gate.empty]).length
    rw [List.length_append, List.length_singleton]
    rcases List.mem_append.mp hmem with hold | hnew
    · exact Nat.lt_succ_of_lt (hs family hold)
    · rw [List.mem_singleton.mp hnew]
      exact Nat.lt_succ_self _
  | clone handle i h =>
    intro family hmem
    rcases List.mem_append.mp hmem with hold | hnew
    · exact hs family hold
    · rw [List.mem_singleton.mp hnew]
      exact hs.lt h
  | gate _ i hf =>
    intro family hmem
    show family < (s.families.set i _).length
    rw [List.length_set]
    exact hs family hmem
  | uncloned handle h => exact hs
  | missing _ _ hf => exact hs

/-! ### Many operations -/

/-- The store that operations in a row leave behind, whatever they answer. -/
def after (ops : List (Operation γ τ)) (s : Store γ τ) : Store γ τ :=
  ops.foldl (fun s op => finalState op.run s) s

/-- An operation and the store that it was carried out on. -/
structure Call (γ τ : Type) where
  op : Operation γ τ
  before : Store γ τ

/-- What a call was answered. -/
def Call.answer (c : Call γ τ) : Except Fault (Reply τ) := outcome c.op.run c.before

/-- The calls that operations in a row make. -/
def calls : List (Operation γ τ) → Store γ τ → List (Call γ τ)
  | [], _ => []
  | op :: ops, s => ⟨op, s⟩ :: calls ops (finalState op.run s)

theorem sound_after (hs : s.Sound) (ops : List (Operation γ τ)) : (after ops s).Sound := by
  induction ops generalizing s with
  | nil => exact hs
  | cons op ops ih => exact ih ((step_run hs op).sound hs)

/-- A handle keeps its family. -/
theorem getElem?_handles_after (hs : s.Sound) (ops : List (Operation γ τ))
    (h : s.handles[handle]? = some family) : (after ops s).handles[handle]? = some family := by
  induction ops generalizing s with
  | nil => exact h
  | cons op ops ih =>
    have hstep := step_run hs op
    refine ih (hstep.sound hs) ?_
    obtain ⟨more, hmore⟩ := hstep.handles
    rw [hmore, List.getElem?_append_left (List.getElem?_eq_some_iff.mp h).1]
    exact h

/-- Every call stands between the operations before it and those after it. -/
theorem exists_split_of_mem_calls {c : Call γ τ} (hc : c ∈ calls ops s) :
    ∃ front back, ops = front ++ c.op :: back ∧ c.before = after front s ∧
      after ops s = after back (finalState c.op.run c.before) := by
  induction ops generalizing s with
  | nil => cases hc
  | cons op ops ih =>
    rcases List.mem_cons.mp hc with rfl | hc
    · exact ⟨[], ops, rfl, rfl, rfl⟩
    · obtain ⟨front, back, hops, hbefore, hafter⟩ := ih hc
      exact ⟨op :: front, back, congrArg (op :: ·) hops, hbefore, hafter⟩

theorem sound_of_mem_calls {c : Call γ τ} (hs : s.Sound) (hc : c ∈ calls ops s) :
    c.before.Sound := by
  obtain ⟨front, back, -, hbefore, -⟩ := exists_split_of_mem_calls hc
  rw [hbefore]
  exact sound_after hs front

/-- A handle keeps the family that it has after a call to the end. -/
theorem getElem?_handles_of_mem_calls {c : Call γ τ} (hs : s.Sound) (hc : c ∈ calls ops s)
    (h : (finalState c.op.run c.before).handles[handle]? = some family) :
    (after ops s).handles[handle]? = some family := by
  have hbefore := sound_of_mem_calls hs hc
  obtain ⟨front, back, -, -, hafter⟩ := exists_split_of_mem_calls hc
  rw [hafter]
  exact getElem?_handles_after ((step_run hbefore c.op).sound hbefore) back h

/-- A clone is a handle of the family that it was cloned from. -/
theorem handle_of_clone (hf : s.handles[handle]? = some family) :
    ∃ clone, outcome (Operation.clone handle).run s = .ok (.handle clone) ∧
      (finalState (Operation.clone handle).run s).handles[clone]? = some family := by
  have hclone : s.clone handle = { s with handles := s.handles ++ [family] } := by
    rw [Store.clone, hf]
  refine ⟨s.handles.length, ?_, ?_⟩
  · show Except.ok (Reply.handle ((s.clone handle).handles.length - 1)) = _
    rw [hclone]
    simp
  · show (s.clone handle).handles[s.handles.length]? = some family
    rw [hclone]
    exact List.getElem?_concat_length

/-- A new gate is a handle of a family of its own. -/
theorem handle_of_new (hs : s.Sound) :
    ∃ handle family, outcome (Operation.new : Operation γ τ).run s = .ok (.handle handle) ∧
      (finalState (Operation.new : Operation γ τ).run s).handles[handle]? = some family ∧
      ∀ other : Nat, s.handles[other]? ≠ some family := by
  refine ⟨s.handles.length, s.families.length, ?_, ?_, ?_⟩
  · show Except.ok (Reply.handle (s.new.handles.length - 1)) = _
    simp [Store.new]
  · exact List.getElem?_concat_length
  · intro other hother
    exact Nat.lt_irrefl _ (hs.lt hother)

end Wireform.Gate
