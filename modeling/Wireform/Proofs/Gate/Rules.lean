import Wireform.Gate
import Wireform.Proofs.Decoder
import Mathlib.Data.List.Perm.Basic

/-!
# Rules that exclude each other

Two rules meet if they are of one kind and some version lies in both ranges.  `register` refuses
exactly the rules that meet one it has, so the rules of a gate exclude each other; then at most one
of them covers a kind and a version, and the lookup finds that one in whatever order they stand.
-/

namespace Wireform.Gate

variable {γ τ : Type} {g : Gate γ τ} {r r' rule : Rule γ τ} {rules rules' : List (Rule γ τ)}
  {kind : String} {v : Version}

/-! ### Meeting -/

/-- The rules are of one kind and some version lies in both ranges. -/
def Rule.Meets (r r' : Rule γ τ) : Prop :=
  r.kind = r'.kind ∧ ∃ v, r.range.contains v = true ∧ r'.range.contains v = true

theorem Rule.Meets.symm (h : r.Meets r') : r'.Meets r := by
  obtain ⟨hkind, v, hv, hv'⟩ := h
  exact ⟨hkind.symm, v, hv', hv⟩

@[simp, grind =]
theorem Rule.covers_iff : r.covers kind v = true ↔ r.kind = kind ∧ r.range.contains v = true := by
  simp [covers]

theorem Rule.meets_of_covers (h : r.covers kind v = true) (h' : r'.covers kind v = true) :
    r.Meets r' := by
  obtain ⟨hkind, hv⟩ := covers_iff.mp h
  obtain ⟨hkind', hv'⟩ := covers_iff.mp h'
  exact ⟨hkind.trans hkind'.symm, v, hv, hv'⟩

/-- What `register` checks, on the bounds of the ranges. -/
theorem Rule.meets_iff :
    r.Meets rule ↔ (r.kind == rule.kind && r.range.overlaps rule.range) = true := by
  rw [Bool.and_eq_true, beq_iff_eq, VersionRange.overlaps_iff]
  rfl

/-- No two of the rules meet. -/
def Exclusive (rules : List (Rule γ τ)) : Prop := rules.Pairwise fun r r' => ¬ r.Meets r'

namespace Exclusive

theorem nil : Exclusive ([] : List (Rule γ τ)) := List.Pairwise.nil

@[simp] theorem append_singleton_iff :
    Exclusive (rules ++ [rule]) ↔ Exclusive rules ∧ ∀ r ∈ rules, ¬ r.Meets rule := by
  simp [Exclusive, List.pairwise_append]

theorem perm (h : Exclusive rules) (hp : rules.Perm rules') : Exclusive rules' :=
  hp.pairwise h fun hr hmeets => hr hmeets.symm

/-- The lookup finds the rule that covers, wherever it stands. -/
theorem find?_eq_some_iff (h : Exclusive rules) :
    rules.find? (·.covers kind v) = some r ↔ r ∈ rules ∧ r.covers kind v = true := by
  constructor
  · intro hfind
    have hcovers := List.find?_some hfind
    exact ⟨List.mem_of_find?_eq_some hfind, hcovers⟩
  · rintro ⟨hr, hcovers⟩
    induction rules with
    | nil => cases hr
    | cons first rest ih =>
      obtain ⟨hfirst, hrest⟩ := List.pairwise_cons.mp h
      rcases List.mem_cons.mp hr with rfl | hr
      · exact List.find?_cons_of_pos hcovers
      · have hnot : ¬ first.covers kind v = true := by
          intro hc
          exact hfirst r hr (Rule.meets_of_covers hc hcovers)
        rw [List.find?_cons, Bool.eq_false_iff.mpr hnot]
        exact ih hrest hr

theorem find?_perm (h : Exclusive rules) (hp : rules.Perm rules') (kind : String) (v : Version) :
    rules.find? (·.covers kind v) = rules'.find? (·.covers kind v) := by
  ext r
  rw [h.find?_eq_some_iff, (h.perm hp).find?_eq_some_iff, hp.mem_iff]

/-- At most one of the rules covers a kind and a version. -/
theorem length_filter_covers_le_one (h : Exclusive rules) :
    (rules.filter (·.covers kind v)).length ≤ 1 := by
  have hpair : (rules.filter (·.covers kind v)).Pairwise fun r r' => ¬ r.Meets r' := h.filter _
  have hcovers : ∀ r ∈ rules.filter (·.covers kind v), r.covers kind v = true := by
    intro r hr
    exact (List.mem_filter.mp hr).2
  generalize rules.filter (·.covers kind v) = found at hpair hcovers
  match found with
  | [] => exact Nat.zero_le 1
  | [_] => exact Nat.le_refl 1
  | r :: r' :: _ =>
    have hnot := (List.pairwise_cons.mp hpair).1 r' List.mem_cons_self
    have hmeets := Rule.meets_of_covers (hcovers r (by simp)) (hcovers r' (by simp))
    exact absurd hmeets hnot

end Exclusive

/-! ### Registering -/

theorem register_of_not_meets (h : ∀ r ∈ g.rules, ¬ r.Meets rule) :
    g.register rule.kind rule.range rule.handler =
      .ok { g with rules := g.rules ++ [rule] } := by
  have hfind : g.rules.find? (fun r => r.kind == rule.kind && r.range.overlaps rule.range)
      = none := by
    rw [List.find?_eq_none]
    intro r hr hmeets
    exact h r hr (Rule.meets_iff.mpr hmeets)
  rw [register, hfind]

theorem register_of_meets (h : ∃ r ∈ g.rules, r.Meets rule) :
    ∃ c, g.register rule.kind rule.range rule.handler = .error (.config c) := by
  obtain ⟨r, hr, hmeets⟩ := h
  cases hfind : g.rules.find? (fun r => r.kind == rule.kind && r.range.overlaps rule.range) with
  | none => exact absurd (Rule.meets_iff.mp hmeets) (List.find?_eq_none.mp hfind r hr)
  | some r' => exact ⟨_, by rw [register, hfind]⟩

/-! ### Looking up and dispatching -/

/-- Asking whether a rule covers and looking the rule up agree. -/
theorem covers_eq_isSome_rule? : g.covers kind v = (g.rule? kind v).isSome := by
  rw [covers, rule?, List.isSome_find?]

/-- What the rule for a kind and a version makes of the context, if there is a rule. -/
def handled? (g : Gate γ τ) (kind : String) (v : Version) (context : γ) : Option (Except Fault τ) :=
  (g.rule? kind v).map (·.handler context)

/-- Counts a dispatch by what came of it. -/
def Metrics.record (m : Metrics) : Option (Except Fault τ) → Metrics
  | none => m.dispatch.miss
  | some (.ok _) => m.dispatch.success
  | some (.error e) => m.dispatch.failure e.desynchronises

/-- A dispatch answers with what the rule makes of the context. -/
@[simp] theorem outcome_dispatch (g : Gate γ τ) (kind : String) (v : Version) (context : γ) :
    outcome (dispatch kind v context) g = match g.handled? kind v context with
      | none => .ok none
      | some answer => answer.map some := by
  unfold outcome dispatch handled?
  cases g.rule? kind v with
  | none => rfl
  | some r =>
    cases hr : r.handler context with
    | ok packet => simp [hr, Except.map]
    | error e => simp [hr, Except.map]

/-- A dispatch changes the counters alone. -/
@[simp] theorem finalState_dispatch (g : Gate γ τ) (kind : String) (v : Version) (context : γ) :
    finalState (dispatch kind v context) g =
      { g with metrics := g.metrics.record (g.handled? kind v context) } := by
  unfold finalState dispatch handled?
  cases g.rule? kind v with
  | none => rfl
  | some r =>
    cases hr : r.handler context with
    | ok packet => simp [hr, Metrics.record]
    | error e => simp [hr, Metrics.record]

end Wireform.Gate
