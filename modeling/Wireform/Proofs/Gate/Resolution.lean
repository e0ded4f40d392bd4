import Wireform.Proofs.Gate.History

/-!
# Resolution

At any time a version of the protocol has at most one handler for a kind of packet.  The rules of a
family exclude each other in every store that operations lead to, since registering refuses whatever
meets a rule that is there.  So registrations in a row are all accepted if and only if the rules,
old and new, exclude each other, which does not depend on their order; nor does what is looked up.
-/

namespace Wireform.Gate

variable {γ τ : Type} {s : Store γ τ} {g : Gate γ τ} {rule : Rule γ τ} {op : Operation γ τ}
  {ops : List (Operation γ τ)} {regs regs' : List (Nat × Rule γ τ)} {handle family i : Nat}
  {kind : String} {v : Version} {context : γ}

/-! ### Accepted rules -/

/-- Registers a rule through a handle. -/
def Operation.registering (handle : Nat) (rule : Rule γ τ) : Operation γ τ :=
  .register handle rule.kind rule.range rule.handler

/-- The rule that an operation registers. -/
def Operation.rule? : Operation γ τ → Option (Rule γ τ)
  | register _ kind range handler => some ⟨kind, range, handler⟩
  | _ => none

/-- The rule that a family accepted in a call. -/
def Call.accepted? (family : Nat) (c : Call γ τ) : Option (Rule γ τ) :=
  if c.op.family? c.before = some family ∧ c.answer.isOk = true then c.op.rule? else none

/-- The rules that a family accepted, in the order of their registration. -/
def accepted (family : Nat) (cs : List (Call γ τ)) : List (Rule γ τ) :=
  cs.filterMap (·.accepted? family)

@[simp] theorem accepted_cons (c : Call γ τ) (cs : List (Call γ τ)) :
    accepted i (c :: cs) = (c.accepted? i).toList ++ accepted i cs := by
  simp only [accepted, List.filterMap_eq_flatMap_toList, List.flatMap_cons]

/-- Registrations of rules in a row, each through a handle. -/
def registrations (regs : List (Nat × Rule γ τ)) : List (Operation γ τ) :=
  regs.map fun reg => .registering reg.1 reg.2

/-- No operation of a run is answered with a fault. -/
def Succeed (ops : List (Operation γ τ)) (s : Store γ τ) : Prop :=
  ∀ c ∈ calls ops s, c.answer.isOk = true

/-! ### What a gate does -/

/-- A gate gains the rule of a registration that it accepts, and no other. -/
theorem rules_onGate (op : Operation γ τ) (g : Gate γ τ) :
    (finalState op.onGate g).rules =
      g.rules ++ (if (outcome op.onGate g).isOk = true then op.rule? else none).toList := by
  cases op with
  | new => exact (List.append_nil _).symm
  | clone => exact (List.append_nil _).symm
  | register handle kind range handler =>
    rcases onGate_register_cases g handle kind range handler with ⟨-, hrun⟩ | ⟨-, c, hrun⟩
    · rw [finalState_of_ok hrun, outcome_of_ok hrun]
      rfl
    · rw [finalState_of_error hrun, outcome_of_error hrun]
      exact (List.append_nil _).symm
  | covers => exact (List.append_nil _).symm
  | dispatch handle kind v context =>
    rw [Operation.onGate, finalState_map, finalState_dispatch]
    simp [Operation.rule?]

theorem exclusive_onGate (op : Operation γ τ) (h : Exclusive g.rules) :
    Exclusive (finalState op.onGate g).rules := by
  cases op with
  | new => exact h
  | clone => exact h
  | register handle kind range handler =>
    rcases onGate_register_cases g handle kind range handler with ⟨hnot, hrun⟩ | ⟨-, c, hrun⟩
    · rw [finalState_of_ok hrun]
      exact Exclusive.append_singleton_iff.mpr ⟨h, hnot⟩
    · rw [finalState_of_error hrun]
      exact h
  | covers => exact h
  | dispatch handle kind v context =>
    rw [Operation.onGate, finalState_map, finalState_dispatch]
    exact h

/-! ### What a store does -/

/-- Every family's rules exclude each other. -/
def AllExclusive (s : Store γ τ) : Prop := ∀ i, Exclusive (s.gateOf i).rules

theorem allExclusive_empty : AllExclusive (Store.empty : Store γ τ) := fun _ => Exclusive.nil

theorem allExclusive_after (hs : s.Sound) (hex : AllExclusive s) (ops : List (Operation γ τ)) :
    AllExclusive (after ops s) := by
  induction ops generalizing s with
  | nil => exact hex
  | cons op ops ih =>
    have hstep := step_run hs op
    refine ih (hstep.sound hs) fun i => ?_
    rw [hstep.gateOf hs]
    split_ifs
    · exact exclusive_onGate op (hex i)
    · exact hex i

theorem rules_step (hs : s.Sound) (op : Operation γ τ) (i : Nat) :
    ((finalState op.run s).gateOf i).rules =
      (s.gateOf i).rules ++ (Call.accepted? i ⟨op, s⟩).toList := by
  rw [(step_run hs op).gateOf hs]
  unfold Call.accepted? Call.answer
  by_cases hf : op.family? s = some i
  · rw [if_pos hf, rules_onGate, (run_eq_onGate hs _ hf).1]
    simp only [hf, true_and]
  · simp [hf]

/-- The rules of a family are those that it accepted. -/
theorem rules_after (hs : s.Sound) (ops : List (Operation γ τ)) (i : Nat) :
    ((after ops s).gateOf i).rules = (s.gateOf i).rules ++ accepted i (calls ops s) := by
  induction ops generalizing s with
  | nil => exact (List.append_nil _).symm
  | cons op ops ih =>
    have hrest := ih ((step_run hs op).sound hs)
    rw [rules_step hs op i, List.append_assoc] at hrest
    rw [calls, accepted_cons]
    exact hrest

/-- A registration is answered without a fault, or meets a rule, is a fault of configuration and
changes nothing. -/
theorem registering_cases (hs : s.Sound) (hf : s.handles[handle]? = some family)
    (rule : Rule γ τ) :
    ((∀ r ∈ (s.gateOf family).rules, ¬ r.Meets rule) ∧
        outcome (Operation.registering handle rule).run s = .ok .done) ∨
      ((∃ r ∈ (s.gateOf family).rules, r.Meets rule) ∧
        (∃ c, outcome (Operation.registering handle rule).run s = .error (.config c)) ∧
        finalState (Operation.registering handle rule).run s = s) := by
  obtain ⟨houtcome, hstate⟩ := run_eq_onGate hs (Operation.registering handle rule) hf
  rw [houtcome, hstate]
  rcases onGate_register_cases (s.gateOf family) handle rule.kind rule.range rule.handler with
    ⟨hnot, hrun⟩ | ⟨hmeets, c, hrun⟩
  · exact .inl ⟨hnot, outcome_of_ok hrun⟩
  · refine .inr ⟨hmeets, ⟨c, outcome_of_error hrun⟩, ?_⟩
    have hsame : finalState (Operation.registering handle rule).onGate (s.gateOf family) =
        s.gateOf family := finalState_of_error hrun
    rw [hsame, Store.setGate_gateOf (hs.lt hf)]

/-! ### Registrations in any order -/

/-- The rules that registrations are to give to a family. -/
def intended (s : Store γ τ) (family : Nat) (regs : List (Nat × Rule γ τ)) : List (Rule γ τ) :=
  (regs.filter fun reg => s.handles[reg.1]? = some family).map (·.2)

theorem intended_perm (hp : regs.Perm regs') : (intended s i regs).Perm (intended s i regs') :=
  (hp.filter _).map _

@[simp] theorem intended_cons (reg : Nat × Rule γ τ) (regs : List (Nat × Rule γ τ)) :
    intended s i (reg :: regs) =
      (if s.handles[reg.1]? = some i then some reg.2 else none).toList ++ intended s i regs := by
  unfold intended
  by_cases h : s.handles[reg.1]? = some i
  · simp [h]
  · simp [h]

@[simp] theorem succeed_cons_iff :
    Succeed (op :: ops) s ↔
      (outcome op.run s).isOk = true ∧ Succeed ops (finalState op.run s) := List.forall_mem_cons

theorem handles_registering (hs : s.Sound) (handle : Nat) (rule : Rule γ τ) :
    (finalState (Operation.registering handle rule).run s).handles = s.handles := by
  have hstep := step_run hs (Operation.registering handle rule)
  unfold Operation.registering at hstep ⊢
  generalize finalState (Operation.run _) s = s' at hstep ⊢
  cases hstep with
  | gate => rfl
  | missing => rfl

/-- A registration that is accepted makes an intended rule one that is there. -/
theorem rules_append_intended (hs : s.Sound) (reg : Nat × Rule γ τ) (regs : List (Nat × Rule γ τ))
    (hok : (outcome (Operation.registering reg.1 reg.2).run s).isOk = true) :
    let s' := finalState (Operation.registering reg.1 reg.2).run s
    (s'.gateOf i).rules ++ intended s' i regs =
      (s.gateOf i).rules ++ intended s i (reg :: regs) := by
  intro s'
  have hsame : intended s' i regs = intended s i regs := by
    unfold intended
    rw [handles_registering hs]
  have haccepted : Call.accepted? i ⟨Operation.registering reg.1 reg.2, s⟩ =
      if s.handles[reg.1]? = some i then some reg.2 else none := by
    unfold Call.accepted? Call.answer
    simp only [hok, and_true]
    rfl
  rw [rules_step hs, hsame, haccepted, intended_cons, List.append_assoc]

/-- A rule is accepted if it excludes the rules that are there. -/
theorem isOk_registering_of_exclusive (hs : s.Sound) (reg : Nat × Rule γ τ)
    (hex : ∀ i, Exclusive ((s.gateOf i).rules ++ intended s i (reg :: regs))) :
    (outcome (Operation.registering reg.1 reg.2).run s).isOk = true := by
  cases hf : (Operation.registering reg.1 reg.2).family? s with
  | none =>
    obtain ⟨reply, hrun⟩ := run_of_missing hs hf rfl
    rw [outcome_of_ok hrun]
    rfl
  | some family =>
    have hfamily : s.handles[reg.1]? = some family := hf
    rcases registering_cases hs hfamily reg.2 with ⟨-, hok⟩ | ⟨⟨r, hr, hmeets⟩, -⟩
    · rw [hok]
      rfl
    · have hpair := (List.pairwise_append.mp (hex family)).2.2
      have hmem : reg.2 ∈ intended s family (reg :: regs) := by
        rw [intended_cons, if_pos hfamily]
        exact List.mem_cons_self
      exact absurd hmeets (hpair r hr reg.2 hmem)

/-- Registrations in a row are all accepted if and only if the rules, old and new, exclude each
other. -/
theorem succeed_registrations_iff (hs : s.Sound) (hex : AllExclusive s) :
    Succeed (registrations regs) s ↔
      ∀ i, Exclusive ((s.gateOf i).rules ++ intended s i regs) := by
  induction regs generalizing s with
  | nil =>
    constructor
    · intro _ i
      exact (List.append_nil _).symm ▸ hex i
    · exact fun _ => nofun
  | cons reg regs ih =>
    let op := Operation.registering reg.1 reg.2
    have hsound := (step_run hs op).sound hs
    have hnext : AllExclusive (finalState op.run s) := allExclusive_after hs hex [op]
    show Succeed (op :: registrations regs) s ↔ _
    rw [succeed_cons_iff, ih hsound hnext]
    constructor
    · rintro ⟨hok, hrest⟩ i
      rw [← rules_append_intended hs reg regs hok]
      exact hrest i
    · intro hall
      have hok := isOk_registering_of_exclusive hs reg hall
      refine ⟨hok, fun i => ?_⟩
      rw [rules_append_intended hs reg regs hok]
      exact hall i

/-- Registrations that are all accepted give each family the rules intended for it. -/
theorem rules_after_registrations (hs : s.Sound) (h : Succeed (registrations regs) s) :
    ((after (registrations regs) s).gateOf i).rules = (s.gateOf i).rules ++ intended s i regs := by
  induction regs generalizing s with
  | nil => exact (List.append_nil _).symm
  | cons reg regs ih =>
    obtain ⟨hok, hrest⟩ := succeed_cons_iff.mp h
    rw [← rules_append_intended hs reg regs hok]
    exact ih ((step_run hs _).sound hs) hrest

/-! ### Resolving -/

theorem outcome_covers (hs : s.Sound) (hf : s.handles[handle]? = some family) :
    outcome (Operation.covers handle kind v).run s =
      .ok (.covered ((s.gateOf family).rules.any (·.covers kind v))) := by
  rw [(run_eq_onGate hs (.covers handle kind v) hf).1]
  rfl

theorem outcome_dispatch_run (hs : s.Sound) (hf : s.handles[handle]? = some family) :
    outcome (Operation.dispatch handle kind v context).run s =
      match (s.gateOf family).rules.find? (·.covers kind v) with
      | none => .ok (.packet none)
      | some r => (r.handler context).map fun packet => .packet (some packet) := by
  rw [(run_eq_onGate hs (.dispatch handle kind v context) hf).1, Operation.onGate, outcome_map,
    outcome_dispatch, handled?, rule?]
  cases (s.gateOf family).rules.find? (·.covers kind v) with
  | none => rfl
  | some r =>
    show ((r.handler context).map some).map Reply.packet =
      (r.handler context).map fun packet => Reply.packet (some packet)
    cases r.handler context <;> rfl

/-- How a handle resolves versions, if these are the rules that its family accepted. -/
structure Store.Resolves (s : Store γ τ) (handle : Nat) (rules : List (Rule γ τ)) : Prop where
  state : (s.gate? handle).map (·.rules) = some rules
  refuses (rule : Rule γ τ) :
    (∃ e, outcome (Operation.registering handle rule).run s = .error e) ↔
      ∃ r ∈ rules, r.Meets rule
  refused (rule : Rule γ τ) (e : Fault)
    (h : outcome (Operation.registering handle rule).run s = .error e) :
    (∃ c, e = .config c) ∧ finalState (Operation.registering handle rule).run s = s
  unique (kind : String) (v : Version) :
    (rules.filter fun r => r.kind = kind ∧ r.range.contains v = true).length ≤ 1
  asked (kind : String) (v : Version) :
    outcome (Operation.covers handle kind v).run s =
      .ok (.covered (decide (∃ r ∈ rules, r.kind = kind ∧ r.range.contains v = true)))
  missed (kind : String) (v : Version) (context : γ)
    (h : ∀ r ∈ rules, r.kind = kind → ¬ r.range.contains v = true) :
    outcome (Operation.dispatch handle kind v context).run s = .ok (.packet none)
  handled (kind : String) (v : Version) (context : γ) (r : Rule γ τ) (hr : r ∈ rules)
    (hkind : r.kind = kind) (hv : r.range.contains v = true) :
    outcome (Operation.dispatch handle kind v context).run s =
      (r.handler context).map fun packet => .packet (some packet)

theorem resolves_of_allExclusive (hs : s.Sound) (hex : AllExclusive s)
    (hf : s.handles[handle]? = some family) : s.Resolves handle (s.gateOf family).rules where
  state := by
    rw [hs.gate?_eq, hf]
    rfl
  refuses rule := by
    rcases registering_cases hs hf rule with ⟨hnot, hok⟩ | ⟨hmeets, ⟨c, herror⟩, -⟩
    · constructor
      · rintro ⟨e, he⟩
        rw [hok] at he
        cases he
      · rintro ⟨r, hr, h⟩
        exact absurd h (hnot r hr)
    · exact ⟨fun _ => hmeets, fun _ => ⟨_, herror⟩⟩
  refused rule e h := by
    rcases registering_cases hs hf rule with ⟨-, hok⟩ | ⟨-, ⟨c, herror⟩, hsame⟩
    · rw [hok] at h
      cases h
    · rw [herror] at h
      cases h
      exact ⟨⟨c, rfl⟩, hsame⟩
  unique kind v := by
    simp only [← Rule.covers_iff, Bool.decide_eq_true]
    exact (hex family).length_filter_covers_le_one
  asked kind v := by
    simp only [← Rule.covers_iff, ← List.any_eq_true, Bool.decide_eq_true]
    exact outcome_covers hs hf
  missed kind v context h := by
    have hnone : ∀ r ∈ (s.gateOf family).rules, ¬ r.covers kind v = true := by
      intro r hr hcovers
      obtain ⟨hkind, hv⟩ := Rule.covers_iff.mp hcovers
      exact h r hr hkind hv
    rw [outcome_dispatch_run hs hf, List.find?_eq_none.mpr hnone]
  handled kind v context r hr hkind hv := by
    have hcovers := Rule.covers_iff.mpr ⟨hkind, hv⟩
    rw [outcome_dispatch_run hs hf, (hex family).find?_eq_some_iff.mpr ⟨hr, hcovers⟩]

/-- **A version resolves to at most one handler.**  After any operations, the rules that a family
accepted decide what each of its handles answers: a registration is refused, and without effect, if
and only if it meets one of them, and at most one of them is for a kind and has a version in its
range, the one that answers its dispatches.  Registrations that are all accepted are so in any other
order, after which every handle answers the same. -/
theorem resolves_after (ops : List (Operation γ τ))
    (hf : (after ops .empty).handles[handle]? = some family) :
    let s := after ops .empty
    s.Resolves handle (accepted family (calls ops .empty)) ∧
      ∀ regs regs' : List (Nat × Rule γ τ), regs.Perm regs' → Succeed (registrations regs) s →
        Succeed (registrations regs') s ∧ ∀ (kind : String) (v : Version),
          outcome (Operation.covers handle kind v).run (after (registrations regs') s) =
            outcome (Operation.covers handle kind v).run (after (registrations regs) s) ∧
          ∀ context : γ,
            outcome (Operation.dispatch handle kind v context).run (after (registrations regs') s) =
              outcome (Operation.dispatch handle kind v context).run
                (after (registrations regs) s) := by
  intro s
  have hs : s.Sound := sound_after .empty ops
  have hex : AllExclusive s := allExclusive_after .empty allExclusive_empty ops
  constructor
  · have hrules : (s.gateOf family).rules = accepted family (calls ops .empty) :=
      rules_after .empty ops family
    rw [← hrules]
    exact resolves_of_allExclusive hs hex hf
  · intro regs regs' hp hsucceed
    have hall := (succeed_registrations_iff hs hex).mp hsucceed
    have hperm (i : Nat) : ((s.gateOf i).rules ++ intended s i regs).Perm
        ((s.gateOf i).rules ++ intended s i regs') := (intended_perm hp).append_left _
    have hsucceed' : Succeed (registrations regs') s :=
      (succeed_registrations_iff hs hex).mpr fun i => (hall i).perm (hperm i)
    refine ⟨hsucceed', fun kind v => ?_⟩
    have hrules := rules_after_registrations (i := family) hs hsucceed
    have hrules' := rules_after_registrations (i := family) hs hsucceed'
    have hf₁ := getElem?_handles_after hs (registrations regs) hf
    have hf₂ := getElem?_handles_after hs (registrations regs') hf
    have hs₁ := sound_after hs (registrations regs)
    have hs₂ := sound_after hs (registrations regs')
    have hfind := (hall family).find?_perm (hperm family) kind v
    constructor
    · rw [outcome_covers hs₁ hf₁, outcome_covers hs₂ hf₂, hrules, hrules', (hperm family).any_eq]
    · intro context
      rw [outcome_dispatch_run hs₁ hf₁, outcome_dispatch_run hs₂ hf₂, hrules, hrules', hfind]

/-- A gate and its clone share two handlers that divide the versions among them; a third one, for
versions of both, is refused. -/
theorem resolves_after_overlap :
    let update (range : VersionRange) (answer : Nat) : Rule Nat Nat :=
      ⟨"update", range, fun n => .ok (answer + n)⟩
    let ops : List (Operation Nat Nat) := [.new, .clone 0,
      .registering 0 (update (.upTo Version.v1_14_4) 10),
      .registering 1 (update (.since Version.v1_15) 20),
      .registering 0 (update (.between Version.v1_17 Version.v1_9) 30)]
    (after ops .empty).handles[1]? = some 0 ∧
      (accepted 0 (calls ops .empty)).map (·.range) =
        [.upTo Version.v1_14_4, .since Version.v1_15] ∧
      (after ops .empty).Resolves 1 (accepted 0 (calls ops .empty)) := by
  intro update ops
  have hf : (after ops .empty).handles[1]? = some 0 := rfl
  have haccepted : (accepted 0 (calls ops .empty)).map (·.range) =
      [.upTo Version.v1_14_4, .since Version.v1_15] := rfl
  exact ⟨hf, haccepted, (resolves_after ops hf).1⟩

end Wireform.Gate
