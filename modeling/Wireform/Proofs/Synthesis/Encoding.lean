import Wireform.Synthesizer
import Wireform.Proofs.Buffer
import Wireform.Proofs.Layout
import Wireform.Proofs.Codec.RoundTrip

/-!
# The buffer of a list of fields

Encoding writes the fields in a row and notes where each of them starts.  No field is empty, so the
offsets ascend, and the field that is found at an offset is the one that was written there.
-/

namespace Wireform

variable {fs pre post : List Field} {f : Field} {offset index : Nat} {t : WireType}
  {limits : Limits} {b : Buffer}

/-! ### Fields in a row -/

/-- The bytes of fields in a row. -/
def fieldBytes (fs : List Field) : Bytes := fs.flatMap (·.emit.bytes)

@[simp] theorem fieldBytes_nil : fieldBytes [] = [] := rfl

@[simp] theorem fieldBytes_cons (f : Field) (fs : List Field) :
    fieldBytes (f :: fs) = f.emit.bytes ++ fieldBytes fs := rfl

@[simp] theorem fieldBytes_append (pre post : List Field) :
    fieldBytes (pre ++ post) = fieldBytes pre ++ fieldBytes post := List.flatMap_append

/-- Fields that can all be written. -/
def Encodable (fs : List Field) : Prop := ∀ f ∈ fs, f.emit.fault? = none

@[simp] theorem encodable_append : Encodable (pre ++ post) ↔ Encodable pre ∧ Encodable post :=
  List.forall_mem_append

theorem length_fieldBytes_pos (fs : List Field) (h : f.emit.fault? = none) :
    0 < (fieldBytes (f :: fs)).length := by
  have hf := List.length_pos_of_ne_nil (f.emit_bytes_ne_nil h)
  rw [fieldBytes_cons, List.length_append]
  omega

theorem eq_nil_of_length {more : List Field} (h : Encodable (pre ++ more))
    (hlen : (fieldBytes pre).length = (fieldBytes (pre ++ more)).length) : more = [] := by
  cases more with
  | nil => rfl
  | cons f more =>
    have hpos := length_fieldBytes_pos more (h f (by simp))
    rw [fieldBytes_append, List.length_append] at hlen
    omega

/-- The length of their bytes tells how many fields there are. -/
theorem eq_of_length_fieldBytes {pre' post' : List Field} (h : Encodable (pre ++ post))
    (heq : pre ++ post = pre' ++ post')
    (hlen : (fieldBytes pre).length = (fieldBytes pre').length) : pre = pre' ∧ post = post' := by
  have h' := encodable_append.mp (heq ▸ h)
  have h := encodable_append.mp h
  rcases List.append_eq_append_iff.mp heq with ⟨more, rfl, rfl⟩ | ⟨more, rfl, rfl⟩
  · rw [eq_nil_of_length h'.1 hlen]
    simp
  · rw [eq_nil_of_length h.1 hlen.symm]
    simp

/-! ### Where fields start -/

/-- Where each of some fields starts, the first of them at `offset`. -/
@[simp] def starts : Nat → List Field → List (Nat × WireType)
  | _, [] => []
  | offset, f :: rest => (offset, f.tag) :: starts (offset + f.emit.bytes.length) rest

/-- The layout of fields in a row. -/
def layoutOf (fs : List Field) : Layout := ⟨(starts 0 fs).toArray⟩

theorem le_of_mem_starts {e : Nat × WireType} :
    ∀ {fs : List Field} {offset : Nat}, e ∈ starts offset fs → offset ≤ e.1
  | f :: rest, offset, h => by
    rcases List.mem_cons.mp h with rfl | h
    · exact Nat.le_refl _
    · exact Nat.le_trans (Nat.le_add_right _ _) (le_of_mem_starts h)

theorem lt_of_mem_starts {e : Nat × WireType} : ∀ {fs : List Field} {base : Nat}, Encodable fs →
    e ∈ starts base fs → e.1 < base + (fieldBytes fs).length
  | f :: rest, base, h, he => by
    obtain ⟨hf, hrest⟩ := List.forall_mem_cons.mp h
    have hpos := length_fieldBytes_pos rest hf
    rw [fieldBytes_cons, List.length_append] at hpos ⊢
    rcases List.mem_cons.mp he with rfl | he
    · show base < _
      omega
    · have ih := lt_of_mem_starts hrest he
      omega

@[simp] theorem starts_append : ∀ (base : Nat) (pre post : List Field),
    starts base (pre ++ post) = starts base pre ++ starts (base + (fieldBytes pre).length) post
  | base, [], post => rfl
  | base, f :: pre, post => by
    simp [starts_append, Nat.add_assoc]

theorem pairwise_starts : ∀ {fs : List Field} (offset : Nat), Encodable fs →
    (starts offset fs).Pairwise (·.1 < ·.1)
  | [], _, _ => List.Pairwise.nil
  | f :: rest, offset, h => by
    obtain ⟨hf, hrest⟩ := List.forall_mem_cons.mp h
    have hpos := List.length_pos_of_ne_nil (f.emit_bytes_ne_nil hf)
    refine List.pairwise_cons.mpr ⟨fun e he => ?_, pairwise_starts _ hrest⟩
    have hle := le_of_mem_starts he
    show offset < e.1
    omega

theorem ascending_layoutOf (h : Encodable fs) : (layoutOf fs).Ascending := pairwise_starts 0 h

/-- The fields of a layout are the fields in order, each at the length of those before it. -/
theorem getElem?_starts : ∀ {fs : List Field} {base index : Nat},
    (starts base fs)[index]? = some (offset, t) ↔
      ∃ pre f post, fs = pre ++ f :: post ∧ pre.length = index ∧ f.tag = t ∧
        base + (fieldBytes pre).length = offset
  | [], base, index => by simp
  | g :: rest, base, 0 => by
    constructor
    · intro h
      cases h
      exact ⟨[], g, rest, rfl, rfl, rfl, rfl⟩
    · rintro ⟨pre, f, post, heq, hlen, rfl, rfl⟩
      rw [List.length_eq_zero_iff.mp hlen] at heq ⊢
      cases heq
      rfl
  | g :: rest, base, index + 1 => by
    show (starts (base + g.emit.bytes.length) rest)[index]? = some (offset, t) ↔ _
    rw [getElem?_starts]
    constructor
    · rintro ⟨pre, f, post, rfl, rfl, rfl, rfl⟩
      refine ⟨g :: pre, f, post, rfl, rfl, rfl, ?_⟩
      simp [Nat.add_assoc]
    · rintro ⟨pre, f, post, heq, hlen, rfl, rfl⟩
      obtain ⟨g', pre, rfl⟩ := List.exists_cons_of_length_eq_add_one hlen
      cases heq
      refine ⟨pre, f, post, rfl, Nat.succ.inj hlen, rfl, ?_⟩
      simp [Nat.add_assoc]

/-- **What is found at an offset is the field that was written there.** -/
theorem find?_layoutOf_eq_some_iff (h : Encodable fs) :
    (layoutOf fs).find? offset = some (index, t) ↔
      ∃ pre f post, fs = pre ++ f :: post ∧ pre.length = index ∧ f.tag = t ∧
        (fieldBytes pre).length = offset := by
  rw [Layout.find?_eq_some_iff (ascending_layoutOf h), layoutOf, List.getElem?_toArray,
    getElem?_starts]
  simp only [Nat.zero_add]

/-! ### Encoding -/

namespace Synthesizer

theorem writeFields_of_encodable : ∀ {fs : List Field} (layout : Layout) (b : Buffer),
    Encodable fs → writeFields fs layout b = .ok { b.extend (fieldBytes fs) with
      layout? := some ⟨layout.fields ++ (starts b.size fs).toArray⟩ }
  | [], layout, b, _ => by simp [writeFields, Buffer.extend]
  | f :: rest, layout, b, h => by
    obtain ⟨hf, hrest⟩ := List.forall_mem_cons.mp h
    have hwrite : Buffer.write f b = _ := Buffer.Action.ofEmission_of_none hf
    rw [writeFields, hwrite]
    simp only []
    rw [writeFields_of_encodable _ _ hrest]
    simp [Layout.push, Buffer.size, Buffer.extend]

theorem writeFields_of_not_encodable : ∀ {fs : List Field} (layout : Layout) (b : Buffer),
    ¬ Encodable fs → ∃ e, writeFields fs layout b = .error e
  | [], _, _, h => absurd (fun _ hf => absurd hf (List.not_mem_nil)) h
  | f :: rest, layout, b, h => by
    cases hf : f.emit.fault? with
    | none =>
      have hwrite : Buffer.write f b = _ := Buffer.Action.ofEmission_of_none hf
      rw [writeFields, hwrite]
      exact writeFields_of_not_encodable _ _ fun hrest => h (List.forall_mem_cons.mpr ⟨hf, hrest⟩)
    | some e =>
      have hwrite : Buffer.write f b = _ := Buffer.Action.ofEmission_of_some hf
      exact ⟨e, by rw [writeFields, hwrite]⟩

/-- The buffer of fields of which those in `pre` have been read. -/
def between (limits : Limits) (pre post : List Field) : Buffer :=
  .split (fieldBytes pre) (fieldBytes post) limits (some (layoutOf (pre ++ post)))

/-- **Encoding succeeds if and only if every field can be written**, and gives the bytes of the
fields in a row, none of them read, with their layout. -/
theorem encode_of_encodable (s : Synthesizer) {p : PendingFields} (h : Encodable p.fields) :
    s.encode p = .ok (between s.limits [] p.fields) := by
  rw [encode, writeFields_of_encodable _ _ h]
  simp [between, Buffer.split, Buffer.extend, Buffer.ofLimits, Buffer.size, Layout.empty, layoutOf]

theorem encode_of_not_encodable (s : Synthesizer) {p : PendingFields} (h : ¬ Encodable p.fields) :
    ∃ e, s.encode p = .error e := writeFields_of_not_encodable _ _ h

@[simp] theorem encode_eq_ok_iff {s : Synthesizer} {p : PendingFields} {b : Buffer} :
    s.encode p = .ok b ↔ Encodable p.fields ∧ b = between s.limits [] p.fields := by
  by_cases henc : Encodable p.fields
  · rw [encode_of_encodable s henc, Except.ok.injEq, and_iff_right henc]
    exact eq_comm
  · obtain ⟨e, he⟩ := encode_of_not_encodable s henc
    rw [he]
    exact ⟨nofun, fun h => absurd h.1 henc⟩

theorem synthesize_of_encodable (s : Synthesizer) {p : PendingFields} (h : Encodable p.fields)
    (build : Buffer.Action α) :
    s.synthesize p build = match (do
        let a ← build
        Buffer.checkAllRead
        return a : Buffer.Action α) (between s.limits [] p.fields) with
      | .ok a _ => .ok a
      | .error e _ => .error e := by
  rw [synthesize, encode_of_encodable s h]
  rfl

/-- A synthesis answers what its reader and the check behind it answer on the fields written. -/
theorem synthesize_eq_outcome (s : Synthesizer) {p : PendingFields} (h : Encodable p.fields)
    (build : Buffer.Action α) :
    s.synthesize p build = outcome (do
        let a ← build
        Buffer.checkAllRead
        return a : Buffer.Action α) (between s.limits [] p.fields) := by
  rw [synthesize_of_encodable s h, outcome]
  split
  · next hrun => rw [hrun]
  · next hrun => rw [hrun]

/-- A synthesis that succeeds has written every field and read to the end. -/
theorem read_of_synthesize {s : Synthesizer} {p : PendingFields} {build : Buffer.Action α} {a : α}
    (h : s.synthesize p build = .ok a) :
    Encodable p.fields ∧ (finalState build (between s.limits [] p.fields)).size ≤
      (finalState build (between s.limits [] p.fields)).cursor := by
  by_cases henc : Encodable p.fields
  · refine ⟨henc, ?_⟩
    rw [synthesize_of_encodable s henc] at h
    cases hrun : build (between s.limits [] p.fields) with
    | ok a' b' =>
      rw [finalState_of_ok hrun]
      rw [bind_of_ok hrun] at h
      by_contra hunread
      obtain ⟨e, he⟩ := Buffer.checkAllRead_of_unread (Nat.lt_of_not_le hunread)
      rw [bind_of_error he] at h
      cases h
    | error e b' =>
      rw [bind_of_error hrun] at h
      cases h
  · obtain ⟨e, he⟩ := encode_of_not_encodable s henc
    rw [synthesize, he] at h
    cases h

end Synthesizer

end Wireform
