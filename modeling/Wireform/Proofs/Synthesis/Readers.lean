import Wireform.Proofs.Synthesis.Encoding

/-!
# Synthesis by typed readers

A typed reader asks for one value after another, each of a wire type, and what it asks for may
depend on what it was answered.  On the buffer of a list of fields every read ends where the next
field starts, so the reader is answered with the values of the list, one by one, as long as it asks
for their types.
-/

namespace Wireform

/-- A program of typed reads. -/
inductive TypedReader (α : Type) where
  | done (a : α)
  | read (t : WireType) (next : Value → TypedReader α)

namespace TypedReader

variable {α : Type}

/-- Reads until it is done, up to the first fault. -/
def run : TypedReader α → Buffer.Action α
  | done a => return a
  | read t next => do
    let v ← Buffer.read t
    (next v).run

/-- The values that the reads return, up to the first fault. -/
@[simp] def returned : TypedReader α → Buffer → List Value
  | done _, _ => []
  | read t next, b =>
    match Buffer.read t b with
    | .ok v b' => v :: (next v).returned b'
    | .error _ _ => []

/-- The wire types that are asked for when the answers are these values. -/
@[simp] def asked : TypedReader α → List Value → List WireType
  | done _, _ => []
  | read t _, [] => [t]
  | read t next, v :: vs => t :: (next v).asked vs

/-- What comes of it when the answers are these values. -/
@[simp] def result? : TypedReader α → List Value → Option α
  | done a, _ => some a
  | read _ _, [] => none
  | read _ next, v :: vs => (next v).result? vs

end TypedReader

namespace Synthesizer

variable {α : Type} {limits : Limits} {pre post : List Field} {f : Field}

/-! ### One read -/

@[simp] theorem unread_between : (between limits pre post).unread = fieldBytes post :=
  Buffer.unread_split _ _ _ _

@[simp] theorem size_between :
    (between limits pre post).size = (fieldBytes pre).length + (fieldBytes post).length :=
  List.length_append

/-- The field after `pre` is what the layout finds, and nothing else. -/
theorem find?_between (h : Encodable (pre ++ post)) (t : WireType) :
    (∃ i, (layoutOf (pre ++ post)).find? (fieldBytes pre).length = some (i, t)) ↔
      ∃ f rest, post = f :: rest ∧ f.tag = t := by
  constructor
  · rintro ⟨i, hfind⟩
    obtain ⟨pre', f, rest, heq, -, ht, hlen⟩ := (find?_layoutOf_eq_some_iff h).mp hfind
    obtain ⟨-, hpost⟩ := eq_of_length_fieldBytes h heq hlen.symm
    exact ⟨f, rest, hpost, ht⟩
  · rintro ⟨f, rest, rfl, ht⟩
    exact ⟨pre.length, (find?_layoutOf_eq_some_iff h).mpr ⟨pre, f, rest, rfl, rfl, ht, rfl⟩⟩

/-- A read of the type of the next field is a run of its decoder. -/
theorem read_between (limits : Limits) (h : Encodable (pre ++ f :: post)) :
    Buffer.read f.tag (between limits pre (f :: post)) =
      Buffer.Action.ofDecoder (f.tag.decode limits) (between limits pre (f :: post)) :=
  Buffer.read_of_checkField (Buffer.checkField_of_found (b := between limits pre (f :: post)) rfl
    ((find?_between h f.tag).mpr ⟨f, post, rfl, rfl⟩))

/-- A read of the next field passes over it, if it asks for its type and the limits accept it. -/
theorem read_between_cons (limits : Limits) (h : Encodable (pre ++ f :: post))
    (hf : f.value.Declarable) (t : WireType) :
    (t = f.tag ∧ f.value.Within limits →
      Buffer.read t (between limits pre (f :: post)) =
        .ok f.value (between limits (pre ++ [f]) post)) ∧
    (¬ (t = f.tag ∧ f.value.Within limits) →
      ∃ e b, Buffer.read t (between limits pre (f :: post)) = .error e b) := by
  have hemit := h f (by simp)
  have hunread : (between limits pre (f :: post)).unread = f.emit.bytes ++ fieldBytes post := by
    simp
  by_cases ht : t = f.tag
  · subst ht
    obtain ⟨hok, herr⟩ := WireType.decodesIf_emit limits f.fits hf hemit (fieldBytes post)
    rw [read_between limits h]
    refine ⟨fun hw => ?_, fun hw => ?_⟩
    · rw [Buffer.Action.ofDecoder_of_front hunread (hok hw.2)]
      simp [between]
    · obtain ⟨e, rest, hrun⟩ := herr fun hw' => hw ⟨rfl, hw'⟩
      exact ⟨e, _, Buffer.Action.ofDecoder_of_error (hunread ▸ hrun)⟩
  · refine ⟨fun hw => absurd hw.1 ht, fun _ => ?_⟩
    have hnot : ¬ ∃ i,
        (layoutOf (pre ++ f :: post)).find? (fieldBytes pre).length = some (i, t) := by
      rw [find?_between h]
      rintro ⟨g, rest, heq, rfl⟩
      cases heq
      exact ht rfl
    obtain ⟨m, hcheck⟩ :=
      Buffer.checkField_of_not_found (b := between limits pre (f :: post)) rfl hnot
    exact ⟨.typeMismatch m, _, bind_of_error hcheck⟩

/-- Behind the last field every read is refused. -/
theorem read_between_nil (limits : Limits) (h : Encodable (pre ++ [])) (t : WireType) :
    ∃ e b, Buffer.read t (between limits pre []) = .error e b := by
  have hnot : ¬ ∃ i, (layoutOf (pre ++ [])).find? (fieldBytes pre).length = some (i, t) := by
    rw [find?_between h]
    rintro ⟨f, rest, heq, -⟩
    cases heq
  obtain ⟨m, hcheck⟩ := Buffer.checkField_of_not_found (b := between limits pre []) rfl hnot
  exact ⟨.typeMismatch m, _, bind_of_error hcheck⟩

/-! ### All reads -/

/-- The reader, and the check that it read everything. -/
def complete (r : TypedReader α) : Buffer.Action α := do
  let a ← r.run
  Buffer.checkAllRead
  return a

@[simp] theorem complete_done (a : α) (b : Buffer) :
    complete (.done a) b = (do
      Buffer.checkAllRead
      return a : Buffer.Action α) b := rfl

theorem complete_of_ok {t : WireType} {next : Value → TypedReader α} {b b' : Buffer} {v : Value}
    (h : Buffer.read t b = .ok v b') : complete (.read t next) b = complete (next v) b' := by
  have hrun : (TypedReader.read t next).run b = (next v).run b' := by
    rw [TypedReader.run, bind_of_ok h]
  rw [complete, complete, bind_eq, bind_eq, hrun]

theorem complete_of_error {t : WireType} {next : Value → TypedReader α} {b b' : Buffer} {e : Fault}
    (h : Buffer.read t b = .error e b') : complete (.read t next) b = .error e b' := by
  have hrun : (TypedReader.read t next).run b = .error e b' := by
    rw [TypedReader.run, bind_of_error h]
  rw [complete, bind_of_error hrun]

theorem synthesize_of_complete (s : Synthesizer) {p : PendingFields} (h : Encodable p.fields)
    {r : TypedReader α} {a : α} {b : Buffer}
    (hrun : complete r (between s.limits [] p.fields) = .ok a b) :
    s.synthesize p r.run = .ok a :=
  (synthesize_eq_outcome s h r.run).trans (outcome_of_ok hrun)

theorem synthesize_of_complete_error (s : Synthesizer) {p : PendingFields}
    (h : Encodable p.fields) {r : TypedReader α} {e : Fault} {b : Buffer}
    (hrun : complete r (between s.limits [] p.fields) = .error e b) :
    s.synthesize p r.run = .error e :=
  (synthesize_eq_outcome s h r.run).trans (outcome_of_error hrun)

/-- The reader asks for the types of these fields and the limits accept them. -/
def Suits (limits : Limits) (r : TypedReader α) (fs : List Field) : Prop :=
  r.asked (fs.map (·.value)) = fs.map (·.tag) ∧ ∀ f ∈ fs, f.value.Within limits

@[simp] theorem suits_done (a : α) : Suits limits (.done a) post ↔ post = [] := by
  cases post with
  | nil => simp [Suits]
  | cons f rest => simp [Suits]

@[simp] theorem not_suits_nil (t : WireType) (next : Value → TypedReader α) :
    ¬ Suits limits (.read t next) [] := by
  simp [Suits]

@[simp] theorem suits_cons (t : WireType) (next : Value → TypedReader α) :
    Suits limits (.read t next) (f :: post) ↔
      (t = f.tag ∧ f.value.Within limits) ∧ Suits limits (next f.value) post := by
  simp [Suits, and_and_and_comm]

/-- A reader that suits the fields after `pre` is answered with their values and leaves nothing
unread; any other fails.  By induction over the reader: each read takes one field off the list. -/
theorem complete_between (limits : Limits) (r : TypedReader α) :
    ∀ {pre post : List Field}, Encodable (pre ++ post) →
    (∀ f ∈ post, f.value.Declarable) →
    (Suits limits r post →
      ∃ a b, complete r (between limits pre post) = .ok a b ∧
        r.result? (post.map (·.value)) = some a ∧
        r.returned (between limits pre post) = post.map (·.value)) ∧
    (¬ Suits limits r post → ∃ e b, complete r (between limits pre post) = .error e b) := by
  induction r with
  | done a =>
    intro pre post h _
    rw [suits_done, complete_done]
    refine ⟨?_, fun hpost => ?_⟩
    · rintro rfl
      have hall : (between limits pre []).size ≤ (between limits pre []).cursor := by
        rw [size_between]
        exact Nat.le_refl _
      rw [bind_of_ok (Buffer.checkAllRead_of_read hall)]
      exact ⟨a, _, rfl, rfl, rfl⟩
    · obtain ⟨f, rest, rfl⟩ := List.exists_cons_of_ne_nil hpost
      have hsome : (between limits pre (f :: rest)).cursor <
          (between limits pre (f :: rest)).size := by
        have hpos := length_fieldBytes_pos rest (h f (by simp))
        rw [size_between]
        exact Nat.lt_add_of_pos_right hpos
      obtain ⟨m, hm⟩ := Buffer.checkAllRead_of_unread hsome
      exact ⟨.typeMismatch m, _, bind_of_error hm⟩
  | read t next ih =>
    intro pre post h hdecl
    cases post with
    | nil =>
      obtain ⟨e, b, hread⟩ := read_between_nil limits h t
      exact ⟨fun hs => absurd hs (not_suits_nil t next), fun _ => ⟨e, b, complete_of_error hread⟩⟩
    | cons f rest =>
      obtain ⟨hok, herr⟩ := read_between_cons limits h (hdecl f List.mem_cons_self) t
      rw [suits_cons]
      by_cases hf : t = f.tag ∧ f.value.Within limits
      · have hread := hok hf
        have h' : Encodable ((pre ++ [f]) ++ rest) := by simpa using h
        obtain ⟨hok', herr'⟩ := ih f.value h' fun g hg => hdecl g (List.mem_cons_of_mem _ hg)
        rw [complete_of_ok hread]
        refine ⟨fun hs => ?_, fun hs => herr' fun hs' => hs ⟨hf, hs'⟩⟩
        obtain ⟨a, b, hrun, hresult, hreturned⟩ := hok' hs.2
        refine ⟨a, b, hrun, hresult, ?_⟩
        simp [hread, hreturned]
      · obtain ⟨e, b, hread⟩ := herr hf
        exact ⟨fun hs => absurd hs.1 hf, fun _ => ⟨e, b, complete_of_error hread⟩⟩

/-- **Synthesis by a typed reader is exact.**  It succeeds if and only if every tree can be written,
the reader asks for the types of the fields in order, and the limits accept every field; its reads
then return the values of the fields, one by one. -/
theorem synthesize_typedReader (s : Synthesizer) {p : PendingFields}
    (hp : ∀ f ∈ p.fields, f.value.Declarable) (r : TypedReader α) :
    ((∃ a, s.synthesize p r.run = .ok a) ↔
      (∀ f ∈ p.fields, ∀ t, f.value = .nbt (some t) → t.emit.fault? = none) ∧
        r.asked p.values = p.tags ∧ ∀ f ∈ p.fields, f.value.Within s.limits) ∧
    ∀ a, s.synthesize p r.run = .ok a → ∃ b, s.encode p = .ok b ∧ r.returned b = p.values ∧
      r.result? p.values = some a := by
  have hwritable : (∀ f ∈ p.fields, ∀ t, f.value = .nbt (some t) → t.emit.fault? = none) ↔
      Encodable p.fields :=
    forall₂_congr fun f _ => f.emit_fault?_eq_none_iff.symm
  rw [hwritable]
  by_cases henc : Encodable p.fields
  · obtain ⟨hok, herr⟩ := complete_between s.limits r (List.nil_append p.fields ▸ henc) hp
    by_cases hs : Suits s.limits r p.fields
    · obtain ⟨a, b, hrun, hresult, hreturned⟩ := hok hs
      rw [synthesize_of_complete s henc hrun]
      refine ⟨⟨fun _ => ⟨henc, hs⟩, fun _ => ⟨a, rfl⟩⟩, ?_⟩
      rintro _ ⟨⟩
      exact ⟨_, encode_of_encodable s henc, hreturned, hresult⟩
    · obtain ⟨e, b, hrun⟩ := herr hs
      rw [synthesize_of_complete_error s henc hrun]
      refine ⟨⟨?_, fun h => absurd h.2 hs⟩, fun _ h => by cases h⟩
      rintro ⟨a, ⟨⟩⟩
  · obtain ⟨e, he⟩ := encode_of_not_encodable s henc
    have hfail : s.synthesize p r.run = .error e := by
      rw [synthesize, he]
      rfl
    rw [hfail]
    refine ⟨⟨?_, fun h => absurd h.1 henc⟩, fun _ h => by cases h⟩
    rintro ⟨a, ⟨⟩⟩

/-- A reader that asks for a text behind the number one. -/
theorem synthesize_typedReader_text :
    let p : PendingFields := ⟨[⟨.varInt, .int32 1, rfl⟩, ⟨.string, .text "hi", rfl⟩]⟩
    let r : TypedReader Value := .read .varInt fun
      | .int32 1 => .read .string .done
      | v => .done v
    (∀ f ∈ p.fields, f.value.Declarable) ∧ ∃ a, standard.synthesize p r.run = .ok a := by
  intro p r
  have hp : ∀ f ∈ p.fields, f.value.Declarable := by
    refine List.forall_mem_cons.mpr ⟨trivial, List.forall_mem_cons.mpr ⟨?_, nofun⟩⟩
    show (Utf8.encode "hi").length ≤ maxDeclared
    decide
  have hw : ∀ f ∈ p.fields, f.value.Within standard.limits := by
    refine List.forall_mem_cons.mpr ⟨trivial, List.forall_mem_cons.mpr ⟨?_, nofun⟩⟩
    show Utf16.length "hi" ≤ Limits.defaultStringUnits
    decide
  have hnbt : ∀ f ∈ p.fields, ∀ t, f.value = .nbt (some t) → t.emit.fault? = none := by
    exact List.forall_mem_cons.mpr ⟨nofun, List.forall_mem_cons.mpr ⟨nofun, nofun⟩⟩
  exact ⟨hp, (synthesize_typedReader standard hp r).1.mpr ⟨hnbt, rfl, hw⟩⟩

end Synthesizer

end Wireform
