/-!
# Metrics

What a gate counts: the dispatches, how each of them ended, and how many failures were decode
faults.
-/

namespace Wireform.Gate

/-- The counters of a gate, as numbers without a bound.  Counters of 64 bits that wrap around agree
with them as long as there are fewer than `2 ^ 64` dispatches, which no other counter exceeds. -/
structure Metrics where
  dispatches : Nat
  misses : Nat
  successes : Nat
  failures : Nat
  decodeFaults : Nat
  deriving DecidableEq, Repr

namespace Metrics

/-- Nothing counted. -/
def zero : Metrics := ⟨0, 0, 0, 0, 0⟩

instance : Inhabited Metrics := ⟨zero⟩

/-- Counts a dispatch. -/
def dispatch (m : Metrics) : Metrics := { m with dispatches := m.dispatches + 1 }

/-- Counts a dispatch that no rule matched. -/
def miss (m : Metrics) : Metrics := { m with misses := m.misses + 1 }

/-- Counts a packet from a handler. -/
def success (m : Metrics) : Metrics := { m with successes := m.successes + 1 }

/-- Counts a fault from a handler. -/
def failure (m : Metrics) (decodeFault : Bool) : Metrics :=
  { m with
    failures := m.failures + 1
    decodeFaults := if decodeFault then m.decodeFaults + 1 else m.decodeFaults }

end Metrics

end Wireform.Gate
