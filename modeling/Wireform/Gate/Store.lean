import Wireform.Gate

/-!
# Stores of gates

A clone of a gate shares its rules and its counters with the gate. A store keeps the shared states,
one per family of clones, and hands out handles: each handle names a family, and a clone is one more
handle of the same family.
-/

namespace Wireform.Gate

/-- Families of clones, and the family of each handle. -/
structure Store (γ τ : Type) where
  families : List (Gate γ τ)
  handles : List Nat
  deriving Inhabited

/-- What can be done to the gates of a store. -/
inductive Operation (γ τ : Type) where
  | new
  | clone (handle : Nat)
  | register (handle : Nat) (kind : String) (range : VersionRange) (handler : Handler γ τ)
  | covers (handle : Nat) (kind : String) (version : Version)
  | dispatch (handle : Nat) (kind : String) (version : Version) (context : γ)

/-- What an operation answers. -/
inductive Reply (τ : Type) where
  | handle (handle : Nat)
  | done
  | covered (b : Bool)
  | packet (packet? : Option τ)
  deriving Inhabited

namespace Store

variable {γ τ : Type}

/-- The store without gates. -/
def empty : Store γ τ := ⟨[], []⟩

/-- The state behind a handle. -/
def gate? (s : Store γ τ) (handle : Nat) : Option (Gate γ τ) := do
  s.families[← s.handles[handle]?]?

/-- The counters that a handle reports. -/
def metrics? (s : Store γ τ) (handle : Nat) : Option Metrics := (s.gate? handle).map (·.metrics)

/-- Puts a state behind a handle, and so behind all of its family. -/
def update (s : Store γ τ) (handle : Nat) (g : Gate γ τ) : Store γ τ :=
  match s.handles[handle]? with
  | none => s
  | some family => { s with families := s.families.set family g }

/-- Adds a gate of its own family. -/
def new (s : Store γ τ) : Store γ τ :=
  ⟨s.families ++ [Gate.empty], s.handles ++ [s.families.length]⟩

/-- Adds a handle of the family that a handle has. -/
def clone (s : Store γ τ) (handle : Nat) : Store γ τ :=
  match s.handles[handle]? with
  | none => s
  | some family => { s with handles := s.handles ++ [family] }

end Store

/-- Carries an operation out. A handle that was not given out changes nothing. -/
def Operation.run : Operation γ τ → EStateM Fault (Store γ τ) (Reply τ)
  | new => do
    modify Store.new
    return .handle ((← get).handles.length - 1)
  | clone handle => do
    modify (·.clone handle)
    return .handle ((← get).handles.length - 1)
  | register handle kind range handler => do
    match (← get).gate? handle with
    | none => return .done
    | some g =>
      match g.register kind range handler with
      | .ok g => modify (·.update handle g)
      | .error e => throw e
      return .done
  | covers handle kind version => do
    return .covered (((← get).gate? handle).any (·.covers kind version))
  | dispatch handle kind version context => do
    match (← get).gate? handle with
    | none => return .packet none
    | some g =>
      match Gate.dispatch kind version context g with
      | .ok packet? g =>
        modify (·.update handle g)
        return .packet packet?
      | .error e g =>
        modify (·.update handle g)
        throw e

end Wireform.Gate
