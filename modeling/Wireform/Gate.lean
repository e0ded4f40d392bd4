import Wireform.Fault
import Wireform.Gate.Metrics

/-!
# Version gates

A gate decides by the kind of a packet and the version of a client whether the packet has to be
rebuilt for that client, and which handler rebuilds it. Handlers are registered for ranges of
versions; the ranges of one kind may not overlap, so a version has at most one handler. A dispatch
that no rule matches lets the packet through unchanged.

`γ` is what a handler gets to see and `τ` the packet it gives back.
-/

namespace Wireform

namespace Gate

/-- Rebuilds a packet, or fails to. -/
abbrev Handler (γ τ : Type) := γ → Except Fault τ

/-- A handler for the versions of a range. -/
structure Rule (γ τ : Type) where
  kind : String
  range : VersionRange
  handler : Handler γ τ

/-- Whether a rule is for a kind and a version. -/
def Rule.covers (r : Rule γ τ) (kind : String) (v : Version) : Bool :=
  r.kind == kind && r.range.contains v

end Gate

/-- Rules in the order of their registration, and the counters. -/
structure Gate (γ τ : Type) where
  rules : List (Gate.Rule γ τ)
  metrics : Gate.Metrics
  deriving Inhabited

namespace Gate

variable {γ τ : Type}

/-- The gate without rules. -/
def empty : Gate γ τ := ⟨[], .zero⟩

/-- The first rule that is for a kind and a version. -/
def rule? (g : Gate γ τ) (kind : String) (v : Version) : Option (Rule γ τ) :=
  g.rules.find? (·.covers kind v)

/-- Adds a rule, unless a rule for the same kind meets its range. -/
def register (g : Gate γ τ) (kind : String) (range : VersionRange) (handler : Handler γ τ) :
    Except Fault (Gate γ τ) :=
  match g.rules.find? fun r => r.kind == kind && r.range.overlaps range with
  | some r => .error (.config (.overlap range r.range))
  | none => .ok { g with rules := g.rules ++ [⟨kind, range, handler⟩] }

/-- Whether any rule is for a kind and a version. -/
def covers (g : Gate γ τ) (kind : String) (v : Version) : Bool := g.rules.any (·.covers kind v)

/-- Runs the handler for a kind and a version, if there is one, and counts how it went. -/
def dispatch (kind : String) (v : Version) (context : γ) :
    EStateM Fault (Gate γ τ) (Option τ) := fun g =>
  let counted := g.metrics.dispatch
  match g.rule? kind v with
  | none => .ok none { g with metrics := counted.miss }
  | some rule =>
    match rule.handler context with
    | .ok packet => .ok (some packet) { g with metrics := counted.success }
    | .error e => .error e { g with metrics := counted.failure e.desynchronises }

end Gate

end Wireform
