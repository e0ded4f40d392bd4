import Wireform.Proofs.Nbt.Parts
import Wireform.Proofs.Synthesis.Encoding
import Mathlib.Algebra.Ring.Nat

/-!
# Encoding is concatenation

A list of fields holds what was pushed and accepted, in order.  It is encoded field by field, each
as it is written alone, behind offsets that the search of the layout finds again; and encoding fails
only where a field holds a tree that has no written form.
-/

namespace Wireform

/-! ### Pushing -/

namespace PendingFields

/-- The fields as pairs of a wire type and a value. -/
def pairs (p : PendingFields) : List (WireType × Value) := p.fields.map fun f => (f.tag, f.value)

/-- Pushes pairs one after another; one that is refused leaves the list as it was. -/
def pushAll (p : PendingFields) : List (WireType × Value) → PendingFields
  | [] => p
  | (t, v) :: rest =>
    match p.push t v with
    | .ok p' => p'.pushAll rest
    | .error _ => p.pushAll rest

/-- The pairs among them whose push succeeds. -/
def accepted (p : PendingFields) : List (WireType × Value) → List (WireType × Value)
  | [] => []
  | (t, v) :: rest =>
    match p.push t v with
    | .ok p' => (t, v) :: p'.accepted rest
    | .error _ => p.accepted rest

variable {p : PendingFields} {t : WireType} {v : Value}

theorem push_of_fits (h : v.Fits t) : p.push t v = .ok ⟨p.fields ++ [⟨t, v, h⟩]⟩ := by
  rw [push, Field.make, dif_pos h]
  rfl

theorem push_of_not_fits (h : ¬ v.Fits t) :
    p.push t v = .error (.typeMismatch (.native t v.kind)) := by
  rw [push, Field.make, dif_neg h]
  rfl

/-- What is in the list is what was pushed and accepted. -/
@[simp] theorem pairs_pushAll : ∀ (p : PendingFields) (attempts : List (WireType × Value)),
    (p.pushAll attempts).pairs = p.pairs ++ p.accepted attempts
  | p, [] => (List.append_nil _).symm
  | p, (t, v) :: rest => by
    by_cases h : v.Fits t
    · rw [pushAll, accepted, push_of_fits h]
      show (pushAll _ rest).pairs = p.pairs ++ (t, v) :: accepted _ rest
      rw [pairs_pushAll, pairs, pairs, List.map_append, List.append_assoc]
      rfl
    · rw [pushAll, accepted, push_of_not_fits h]
      exact pairs_pushAll p rest

/-- What is accepted does not depend on what is in the list. -/
theorem accepted_eq_filter : ∀ (p : PendingFields) (attempts : List (WireType × Value)),
    p.accepted attempts = attempts.filter fun a => a.2.Fits a.1
  | p, [] => rfl
  | p, (t, v) :: rest => by
    by_cases h : v.Fits t
    · rw [accepted, push_of_fits h, List.filter_cons, if_pos (decide_eq_true h)]
      exact congrArg ((t, v) :: ·) (accepted_eq_filter _ rest)
    · rw [accepted, push_of_not_fits h, List.filter_cons, if_neg (by simpa using h)]
      exact accepted_eq_filter p rest

end PendingFields

/-! ### Fields by themselves -/

namespace Field

variable {f : Field} {e : Fault}

/-- The bytes of a field written to an empty buffer. -/
def alone (f : Field) : Bytes := (finalState (Buffer.write f) .empty).bytes

@[simp] theorem alone_eq (f : Field) : f.alone = f.emit.bytes := by
  rw [alone, Buffer.write, Buffer.finalState_ofEmission]
  rfl

theorem write_empty (h : f.emit.fault? = none) :
    Buffer.write f .empty = .ok () (.ofBytes f.alone) := by
  rw [alone_eq]
  exact Buffer.Action.ofEmission_of_none h

/-- Fields fail as trees do. -/
theorem structureEncode_of_emit (h : f.emit.fault? = some e) :
    ∃ cause, e = .structureEncode cause := by
  by_cases htree : ∃ t, f.value = .nbt (some t)
  · obtain ⟨t, ht⟩ := htree
    rw [emit_of_tree ht] at h
    have hw : ¬ Nbt.EntriesWritable t.entries := by
      intro hw
      rw [Nbt.emit_fault?_eq_none_iff.mpr hw] at h
      cases h
    obtain ⟨cause, hcause⟩ := Nbt.emit_of_not_writable hw
    rw [hcause] at h
    exact ⟨cause, (Option.some.inj h).symm⟩
  · have hok := (emit_fault?_eq_none_iff f).mpr fun t ht => absurd ⟨t, ht⟩ htree
    rw [hok] at h
    cases h

/-- A field has no written form if it holds a tree that has none. -/
theorem emit_fault?_ne_none_iff :
    f.emit.fault? ≠ none ↔ ∃ t, f.value = .nbt (some t) ∧ ¬ Nbt.EntriesWritable t.entries := by
  rw [Ne, emit_fault?_eq_none_iff]
  simp

end Field

/-! ### Fields in a row -/

variable {fs : List Field} {s : Synthesizer} {p : PendingFields} {e : Fault}

/-- A layout that tells where each of some fields in a row starts. -/
structure Layout.Lists (l : Layout) (fs : List Field) : Prop where
  /-- Each field starts at the sum of the lengths of those before it. -/
  fields : ∀ i, l.fields[i]? = fs[i]?.map fun f =>
    (((fs.take i).map fun g => g.alone.length).sum, f.tag)
  ascending : l.Ascending
  /-- A field is found at an offset exactly if it starts there. -/
  found : ∀ offset i t, l.find? offset = some (i, t) ↔ l.fields[i]? = some (offset, t)

/-- A buffer of fields in a row, each as it is written alone, of which none has been read. -/
structure Buffer.Concatenates (b : Buffer) (fs : List Field) : Prop where
  written : ∀ f ∈ fs, Buffer.write f .empty = .ok () (.ofBytes f.alone)
  bytes : b.bytes = fs.flatMap Field.alone
  cursor : b.cursor = 0
  layout : ∃ l, b.layout? = some l ∧ l.Lists fs

theorem getElem?_starts_eq : ∀ (fs : List Field) (base i : Nat),
    (starts base fs)[i]? = fs[i]?.map fun f =>
      (base + ((fs.take i).map fun g => g.alone.length).sum, f.tag)
  | [], _, _ => rfl
  | f :: rest, base, 0 => rfl
  | f :: rest, base, i + 1 => by
    simp [getElem?_starts_eq rest, List.take_succ_cons, Nat.add_assoc]

theorem lists_layoutOf (h : Encodable fs) : (layoutOf fs).Lists fs where
  fields i := by
    rw [layoutOf, List.getElem?_toArray, getElem?_starts_eq]
    simp only [Nat.zero_add]
  ascending := ascending_layoutOf h
  found _ _ _ := Layout.find?_eq_some_iff (ascending_layoutOf h)

namespace Synthesizer

theorem concatenates_of_encode {b : Buffer} (h : s.encode p = .ok b) :
    b.Concatenates p.fields := by
  obtain ⟨henc, rfl⟩ := encode_eq_ok_iff.mp h
  exact {
    written := fun f hf => f.write_empty (henc f hf)
    bytes := by
      show fieldBytes p.fields = p.fields.flatMap Field.alone
      rw [fieldBytes, funext Field.alone_eq]
    cursor := rfl
    layout := ⟨layoutOf p.fields, rfl, lists_layoutOf henc⟩ }

/-- The fault of a list is the fault of a field. -/
theorem exists_of_writeFields_error : ∀ {fs : List Field} {layout : Layout} {b : Buffer},
    writeFields fs layout b = .error e → ∃ f ∈ fs, f.emit.fault? = some e
  | [], _, _, h => by cases h
  | f :: rest, layout, b, h => by
    rw [writeFields, Buffer.write] at h
    cases hf : f.emit.fault? with
    | none =>
      rw [Buffer.Action.ofEmission_of_none hf] at h
      obtain ⟨g, hg, hge⟩ := exists_of_writeFields_error h
      exact ⟨g, List.mem_cons_of_mem _ hg, hge⟩
    | some e' =>
      rw [Buffer.Action.ofEmission_of_some hf] at h
      cases h
      exact ⟨f, List.mem_cons_self, hf⟩

theorem exists_encode_error_iff :
    (∃ e, s.encode p = .error e) ↔ ∃ f ∈ p.fields, f.emit.fault? ≠ none := by
  constructor
  · rintro ⟨e, h⟩
    obtain ⟨f, hf, hfault⟩ := exists_of_writeFields_error h
    exact ⟨f, hf, by simp [hfault]⟩
  · rintro ⟨f, hf, hfault⟩
    exact s.encode_of_not_encodable fun henc => hfault (henc f hf)

/-- **Encoding is concatenation, and only trees are in its way.**  A list holds what was pushed and
accepted, in order.  It cannot be encoded if and only if it holds a tree that has, wherever in it, a
text that is too long, a list of several types, or a list or an array of too many; otherwise the
fields stand in a row, each as it is written alone, and the layout finds each where it starts. -/
theorem encode_pushed (s : Synthesizer) :
    (∀ attempts : List (WireType × Value),
      (PendingFields.empty.pushAll attempts).pairs = PendingFields.empty.accepted attempts ∧
        PendingFields.empty.accepted attempts = attempts.filter fun a => a.2.Fits a.1) ∧
    ∀ p : PendingFields,
      ((∃ e, s.encode p = .error e) ↔ ∃ t, .nbt (some t) ∈ p.values ∧
        ((∃ text ∈ t.texts, ModifiedUtf8.maxBytes < ModifiedUtf8.size text) ∨
          ∃ part ∈ t.parts, ¬ part.Uniform ∨ Nbt.Writer.maxCount < part.count)) ∧
      (∀ e, s.encode p = .error e → ∃ cause, e = .structureEncode cause) ∧
      ∀ b, s.encode p = .ok b → b.Concatenates p.fields := by
  refine ⟨fun attempts => ?_, fun p => ⟨?_, fun e h => ?_, fun b => concatenates_of_encode⟩⟩
  · exact ⟨PendingFields.pairs_pushAll .empty attempts,
      PendingFields.accepted_eq_filter .empty attempts⟩
  · rw [exists_encode_error_iff]
    simp only [Field.emit_fault?_ne_none_iff, Nbt.Tree.not_writable_iff, PendingFields.values,
      List.mem_map]
    constructor
    · rintro ⟨f, hf, t, ht, hobstacle⟩
      exact ⟨t, ⟨f, hf, ht⟩, hobstacle⟩
    · rintro ⟨t, ⟨f, hf, ht⟩, hobstacle⟩
      exact ⟨f, hf, t, ht, hobstacle⟩
  · obtain ⟨f, -, hfault⟩ := exists_of_writeFields_error h
    exact f.structureEncode_of_emit hfault

/-- Of three pushes one is refused, and the other two fields stand in a row.  A tree with a list of
two types cannot be encoded. -/
theorem encode_pushed_two :
    let attempts : List (WireType × Value) :=
      [(.short, .int16 1), (.string, .int16 2), (.boolean, .bool true)]
    let p := PendingFields.empty.pushAll attempts
    let mixed : Nbt.Tree := .ofList [("a", .list [.byte 1, .short 1])]
    p.pairs = [(.short, .int16 1), (.boolean, .bool true)] ∧
      (∃ b, standard.encode p = .ok b ∧ b.bytes = [0, 1, 1] ∧ b.Concatenates p.fields) ∧
      ∃ cause, standard.encode ⟨[⟨.nbt, .nbt (some mixed), rfl⟩]⟩ =
        .error (.structureEncode cause) := by
  intro attempts p mixed
  obtain ⟨hpush, hencode⟩ := encode_pushed standard
  obtain ⟨-, -, hok⟩ := hencode p
  obtain ⟨hfails, hcause, -⟩ := hencode ⟨[⟨.nbt, .nbt (some mixed), rfl⟩]⟩
  have hparts : mixed.parts = .compound mixed.entries :: .list [.byte 1, .short 1] ::
      [.byte 1, .short 1] := rfl
  have hpart : .list [.byte 1, .short 1] ∈ mixed.parts := by simp [hparts]
  have hlist : ¬ (Nbt.Tag.list [.byte 1, .short 1]).Uniform := by
    intro h
    exact absurd (h (.byte 1) (by simp) (.short 1) (by simp)) (by decide)
  obtain ⟨e, he⟩ := hfails.mpr ⟨mixed, List.mem_cons_self, .inr ⟨_, hpart, .inl hlist⟩⟩
  obtain ⟨cause, rfl⟩ := hcause e he
  exact ⟨(hpush attempts).1.trans rfl, ⟨_, rfl, rfl, hok _ rfl⟩, cause, he⟩

end Synthesizer

end Wireform
