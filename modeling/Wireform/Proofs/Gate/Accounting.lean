import Wireform.Proofs.Gate.History
import Mathlib.Data.List.Induction

/-!
# Accounting

The counters of a family are the tally of the dispatches that its handles saw: each dispatch is
counted once, with the handler's answer if a rule covered it and as a miss if none did.  Nothing but
a dispatch through one of its own handles changes the counters of a family.
-/

namespace Wireform.Gate

variable {γ τ : Type} {s : Store γ τ} {op : Operation γ τ} {m : Metrics}
  {ops : List (Operation γ τ)} {handle family i : Nat}

/-! ### Dispatches -/

/-- A dispatch, with the gate as it found it. -/
structure Dispatch (γ τ : Type) where
  gate : Gate γ τ
  kind : String
  version : Version
  context : γ

namespace Dispatch

/-- What the handler answered, if a rule covered the dispatch. -/
def answer? (d : Dispatch γ τ) : Option (Except Fault τ) :=
  d.gate.handled? d.kind d.version d.context

/-- The gate had no rule for the kind and the version. -/
def missed (d : Dispatch γ τ) : Bool := !d.gate.covers d.kind d.version

/-- The handler gave a packet. -/
def succeeded (d : Dispatch γ τ) : Bool := d.answer?.any (·.isOk)

/-- The fault that the handler raised. -/
def fault? (d : Dispatch γ τ) : Option Fault :=
  match d.answer? with
  | some (.error e) => some e
  | _ => none

/-- The handler raised a fault. -/
def failed (d : Dispatch γ τ) : Bool := d.fault?.isSome

/-- The handler raised a fault that desynchronises. -/
def desynchronised (d : Dispatch γ τ) : Bool := d.fault?.any (·.desynchronises)

end Dispatch

/-- The dispatch that a family saw in a call. -/
def Call.dispatch? (family : Nat) (c : Call γ τ) : Option (Dispatch γ τ) :=
  match c.op with
  | .dispatch handle kind v context =>
    if c.before.handles[handle]? = some family then
      some ⟨c.before.gateOf family, kind, v, context⟩
    else none
  | _ => none

/-- The dispatches that a family saw. -/
def dispatches (family : Nat) (cs : List (Call γ τ)) : List (Dispatch γ τ) :=
  cs.filterMap (·.dispatch? family)

/-- The dispatches, and how many of them ended in which way. -/
def tally (ds : List (Dispatch γ τ)) : Metrics where
  dispatches := ds.length
  misses := ds.countP (·.missed)
  successes := ds.countP (·.succeeded)
  failures := ds.countP (·.failed)
  decodeFaults := ds.countP (·.desynchronised)

/-! ### Counting -/

/-- Every dispatch was a miss, a success or a failure, and every decode fault a failure. -/
def Metrics.Balanced (m : Metrics) : Prop :=
  m.dispatches = m.misses + m.successes + m.failures ∧ m.decodeFaults ≤ m.failures

theorem Metrics.Balanced.record (h : m.Balanced) (answer? : Option (Except Fault τ)) :
    (m.record answer?).Balanced := by
  obtain ⟨hsum, hle⟩ := h
  cases answer? with
  | none =>
    refine ⟨?_, hle⟩
    show m.dispatches + 1 = m.misses + 1 + m.successes + m.failures
    omega
  | some answer =>
    cases answer with
    | ok packet =>
      refine ⟨?_, hle⟩
      show m.dispatches + 1 = m.misses + (m.successes + 1) + m.failures
      omega
    | error e =>
      constructor
      · show m.dispatches + 1 = m.misses + m.successes + (m.failures + 1)
        omega
      · show (if e.desynchronises then m.decodeFaults + 1 else m.decodeFaults) ≤ m.failures + 1
        split_ifs <;> omega

/-- What `covers` answers and what a dispatch does agree on the misses. -/
@[simp] theorem Dispatch.missed_eq (d : Dispatch γ τ) : d.missed = d.answer?.isNone := by
  rw [missed, covers_eq_isSome_rule?, answer?, handled?]
  cases d.gate.rule? d.kind d.version <;> rfl

/-- One more dispatch is one more in the tally, as the gate records it. -/
@[simp] theorem tally_concat (ds : List (Dispatch γ τ)) (d : Dispatch γ τ) :
    tally (ds ++ [d]) = (tally ds).record d.answer? := by
  unfold tally
  simp only [List.length_append, List.length_singleton, List.countP_append, List.countP_singleton,
    Dispatch.missed_eq, Dispatch.succeeded, Dispatch.failed, Dispatch.desynchronised,
    Dispatch.fault?]
  cases d.answer? with
  | none => rfl
  | some answer =>
    cases answer with
    | ok packet => rfl
    | error e =>
      unfold Metrics.record Metrics.dispatch Metrics.failure
      cases he : e.desynchronises <;> simp [he, Except.isOk, Except.toBool]

@[simp] theorem foldl_record_eq_tally (ds : List (Dispatch γ τ)) :
    ds.foldl (fun m d => m.record d.answer?) .zero = tally ds := by
  induction ds using List.reverseRecOn with
  | nil => rfl
  | append_singleton ds d ih => rw [List.foldl_concat, ih, tally_concat]

theorem balanced_tally (ds : List (Dispatch γ τ)) : (tally ds).Balanced := by
  induction ds using List.reverseRecOn with
  | nil => exact ⟨rfl, Nat.le_refl 0⟩
  | append_singleton ds d ih =>
    rw [tally_concat]
    exact ih.record d.answer?

/-! ### Runs -/

theorem metrics_onGate (op : Operation γ τ) (g : Gate γ τ) :
    (finalState op.onGate g).metrics = match op with
      | .dispatch _ kind v context => g.metrics.record (g.handled? kind v context)
      | _ => g.metrics := by
  cases op with
  | register handle kind range handler =>
    rcases onGate_register_cases g handle kind range handler with ⟨-, hrun⟩ | ⟨-, c, hrun⟩
    · rw [finalState_of_ok hrun]
    · rw [finalState_of_error hrun]
  | dispatch handle kind v context =>
    rw [Operation.onGate, finalState_map, finalState_dispatch]
  | new | clone | covers => rfl

/-- An operation changes the counters of a family by the dispatch that the family saw, if any. -/
theorem metrics_step (hs : s.Sound) (op : Operation γ τ) (i : Nat) :
    ((finalState op.run s).gateOf i).metrics =
      (Call.dispatch? i ⟨op, s⟩).elim (s.gateOf i).metrics
        fun d => (s.gateOf i).metrics.record d.answer? := by
  rw [(step_run hs op).gateOf hs]
  unfold Call.dispatch?
  split_ifs with hf
  · rw [metrics_onGate]
    cases op with
    | dispatch handle kind v context =>
      have hhandle : s.handles[handle]? = some i := hf
      simp only [hhandle, if_pos]
      rfl
    | new | clone | register | covers => rfl
  · cases op with
    | dispatch handle kind v context =>
      have hhandle : ¬ s.handles[handle]? = some i := hf
      simp only [if_neg hhandle]
      rfl
    | new | clone | register | covers => rfl

theorem metrics_after (hs : s.Sound) (ops : List (Operation γ τ)) (i : Nat) :
    ((after ops s).gateOf i).metrics =
      (dispatches i (calls ops s)).foldl (fun m d => m.record d.answer?) (s.gateOf i).metrics := by
  induction ops generalizing s with
  | nil => rfl
  | cons op ops ih =>
    have hrest := ih ((step_run hs op).sound hs)
    rw [metrics_step hs op i] at hrest
    rw [calls, dispatches, List.filterMap_cons]
    cases hd : Call.dispatch? i ⟨op, s⟩ with
    | none =>
      rw [hd] at hrest
      exact hrest
    | some d =>
      rw [hd] at hrest
      exact hrest

/-- How a handle accounts for the dispatches of its family. -/
structure Store.Accounts (s : Store γ τ) (handle family : Nat) (ds : List (Dispatch γ τ)) :
    Prop where
  counters : s.metrics? handle = some (tally ds)
  balanced : (tally ds).Balanced
  shared (other : Nat) (h : s.handles[other]? = some family) : s.metrics? other = s.metrics? handle
  kept (op : Operation γ τ)
    (h : ∀ other kind v context, op = .dispatch other kind v context →
      s.handles[other]? ≠ some family) :
    (finalState op.run s).metrics? handle = s.metrics? handle

theorem metrics?_eq (hs : s.Sound) (hf : s.handles[handle]? = some family) :
    s.metrics? handle = some (s.gateOf family).metrics := by
  rw [Store.metrics?, hs.gate?_eq, hf]
  rfl

/-- **The counters of a family account for its dispatches.**  After any operations, what a handle
reports is the tally of the dispatches that its family saw, and each of them is counted once.  Every
handle of the family reports the same, and nothing but a dispatch through one of them changes it.
The handles of the family are the gate and its clones: a clone joins the family of its gate, and a
new gate has a family to itself. -/
theorem accounts_after (ops : List (Operation γ τ))
    (hf : (after ops .empty).handles[handle]? = some family) :
    let s := after ops .empty
    s.Accounts handle family (dispatches family (calls ops .empty)) ∧
      (∀ c ∈ calls ops .empty, ∀ other : Nat, c.op = .clone other →
        c.before.handles[other]? = some family →
        ∃ clone, c.answer = .ok (.handle clone) ∧ s.handles[clone]? = some family) ∧
      ∀ c ∈ calls ops .empty, c.op = .new →
        ∃ new own, c.answer = .ok (.handle new) ∧ s.handles[new]? = some own ∧
          ∀ other : Nat, c.before.handles[other]? ≠ some own := by
  intro s
  have hs : s.Sound := sound_after .empty ops
  have hcounters : (s.gateOf family).metrics = tally (dispatches family (calls ops .empty)) := by
    rw [← foldl_record_eq_tally]
    exact metrics_after .empty ops family
  refine ⟨⟨?_, balanced_tally _, ?_, ?_⟩, ?_, ?_⟩
  · rw [metrics?_eq hs hf, hcounters]
  · intro other hother
    rw [metrics?_eq hs hother, metrics?_eq hs hf]
  · intro op hop
    have hstep := step_run hs op
    have hf' : (finalState op.run s).handles[handle]? = some family :=
      getElem?_handles_after hs [op] hf
    have hnone : Call.dispatch? family ⟨op, s⟩ = none := by
      unfold Call.dispatch?
      split
      · exact if_neg (hop _ _ _ _ ‹_›)
      · rfl
    rw [metrics?_eq (hstep.sound hs) hf', metrics?_eq hs hf, metrics_step hs, hnone]
    rfl
  · intro c hc other hop hother
    obtain ⟨clone, hanswer, hclone⟩ := handle_of_clone hother
    rw [← hop] at hanswer hclone
    exact ⟨clone, hanswer, getElem?_handles_of_mem_calls .empty hc hclone⟩
  · intro c hc hop
    obtain ⟨new, own, hanswer, hnew, hother⟩ := handle_of_new (sound_of_mem_calls .empty hc)
    rw [← hop] at hanswer hnew
    exact ⟨new, own, hanswer, getElem?_handles_of_mem_calls .empty hc hnew, hother⟩

/-- A clone dispatches to a handler that fails, and its gate a kind without rules; a dispatch on
another gate does not count. -/
theorem accounts_after_failure :
    let ops : List (Operation Nat Nat) := [.new, .clone 0, .new,
      .register 0 "update" .all fun _ => .error .malformedVarInt,
      .dispatch 1 "update" Version.v1_8 5, .dispatch 0 "spawn" Version.v1_8 5,
      .dispatch 2 "update" Version.v1_8 5]
    (after ops .empty).handles[1]? = some 0 ∧
      tally (dispatches 0 (calls ops .empty)) = ⟨2, 1, 0, 1, 1⟩ ∧
      (after ops .empty).Accounts 1 0 (dispatches 0 (calls ops .empty)) := by
  intro ops
  have hf : (after ops .empty).handles[1]? = some 0 := rfl
  have htally : tally (dispatches 0 (calls ops .empty)) = ⟨2, 1, 0, 1, 1⟩ := rfl
  exact ⟨hf, htally, (accounts_after ops hf).1⟩

end Wireform.Gate
