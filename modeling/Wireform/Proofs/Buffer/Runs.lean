import Wireform.Proofs.Buffer.Changes
import Wireform.Proofs.Synthesis.Programs

/-!
# Runs of operations on a buffer

Whatever is done to a buffer, in any order and with any faults on the way, the cursor stays within
the bytes: every buffer carries the proof that it does, and an operation that moves the cursor has
to give one.  What else an operation may change along the way is read off `change_run`, and a run is
one operation after another.
-/

namespace Wireform

open Buffer (Operation)

/-- What an operation keeps to, in a run and whatever it answers. -/
structure Event.Orderly (e : Event) : Prop where
  before : e.before.cursor ≤ e.before.size
  after : e.after.cursor ≤ e.after.size
  unread : e.after.cursor + e.after.unreadSize = e.after.size
  reads : e.op.reads = true →
    (e.after.bytes, e.after.limits, e.after.layout?) =
      (e.before.bytes, e.before.limits, e.before.layout?) ∧ e.before.cursor ≤ e.after.cursor
  writes : e.op.writes = true → ∃ more, e.after = e.before.extend more
  lowers : e.after.cursor < e.before.cursor →
    e.op = .clear ∨ ∃ position, e.op = .setCursor position

/-- **One operation.** -/
theorem Event.orderly_run (op : Operation) (b : Buffer) :
    Event.Orderly ⟨op, b, finalState op.run b⟩ := by
  have hchange := Buffer.change_run op b
  generalize finalState op.run b = b' at hchange
  have hbounds := b.cursor_le
  have hafter := b'.cursor_le
  have hunread := b'.cursor_add_unreadSize
  cases hchange with
  | read _ _ hop hmoves =>
    obtain ⟨n, hn, rfl⟩ := hmoves
    have hle : b.cursor ≤ (b.advance n).cursor :=
      Buffer.cursor_advance hn ▸ Nat.le_add_right _ _
    refine ⟨hbounds, hafter, hunread, fun _ => ⟨rfl, hle⟩, fun hwrites => ?_, fun hlt => ?_⟩
    · exact absurd ⟨hop, hwrites⟩ op.not_reads_and_writes
    · exact absurd hle (Nat.not_le_of_lt hlt)
  | write _ more hop =>
    refine ⟨hbounds, hafter, hunread, fun hreads => ?_, fun _ => ⟨more, rfl⟩, fun hlt => ?_⟩
    · exact absurd ⟨hreads, hop⟩ op.not_reads_and_writes
    · exact absurd hlt (Nat.lt_irrefl _)
  | refused position =>
    exact ⟨hbounds, hafter, hunread, nofun, nofun, fun _ => .inr ⟨position, rfl⟩⟩
  | cursor position _ =>
    exact ⟨hbounds, hafter, hunread, nofun, nofun, fun _ => .inr ⟨position, rfl⟩⟩
  | clear => exact ⟨hbounds, hafter, hunread, nofun, nofun, fun _ => .inl rfl⟩
  | limits limits =>
    exact ⟨hbounds, hafter, hunread, nofun, nofun, fun hlt => absurd hlt (Nat.lt_irrefl _)⟩

/-- **Every run is orderly.**  Every operation of every program, also one that fails half way,
leaves the cursor within the bytes.  Reads change nothing but the cursor and never move it back,
writes only append, and only setting the cursor and clearing lower it. -/
theorem orderly_events (b : Buffer) (prog : Program α) :
    b.cursor ≤ b.size ∧ (∀ e ∈ prog.events b, e.Orderly) ∧
      (finalState prog.run b).cursor ≤ (finalState prog.run b).size := by
  refine ⟨b.cursor_le, ?_, Buffer.cursor_le _⟩
  induction prog generalizing b with
  | ret r => exact nofun
  | step op next ih =>
    exact List.forall_mem_cons.mpr ⟨Event.orderly_run op b, fun e he => ih _ _ e he⟩

/-- A number is cut short by the end of the bytes, its last byte is appended, and the cursor is
moved back: then it can be read. -/
theorem orderly_events_retry :
    let prog : Program Unit := .step (.read .varInt) fun _ =>
      .step (.append [1]) fun _ =>
      .step (.setCursor 0) fun _ => .step (.read .varInt) fun _ => .ret (.ok ())
    (prog.events (.ofBytes [0x80])).map (·.after.cursor) = [1, 1, 0, 2] ∧
      ∀ e ∈ prog.events (.ofBytes [0x80]), e.Orderly := by
  intro prog
  have hcursors : (prog.events (.ofBytes [0x80])).map (·.after.cursor) = [1, 1, 0, 2] := rfl
  exact ⟨hcursors, (orderly_events _ prog).2.1⟩

end Wireform
