import Wireform.Proofs.Synthesis.Operations

/-!
# Synthesis by any program

A program does one operation after another, whatever they are, and may look at every answer, faults
included, before it goes on.  The ledger of a run says for each field what became of it: accepted by
a typed read or skip that was checked against the layout, or bypassed by another operation.  If the
synthesis succeeds the ledger holds all fields in order, and only clearing the buffer and reading a
tree without a check ever bypass a field.
-/

namespace Wireform

open Buffer (Operation Reply Effect)

/-- A program of operations on a buffer. -/
inductive Program (α : Type) where
  | ret (r : Except Fault α)
  | step (op : Operation) (next : Except Fault Reply → Program α)

/-- What an operation did. -/
structure Event where
  op : Operation
  before : Buffer
  after : Buffer

namespace Program

variable {α : Type}

/-- Carries a program out. -/
def run : Program α → Buffer.Action α
  | ret (.ok a) => return a
  | ret (.error e) => throw e
  | step op next => fun b => (next (outcome op.run b)).run (finalState op.run b)

/-- What the operations of a program do. -/
def events : Program α → Buffer → List Event
  | ret _, _ => []
  | step op next, b =>
    ⟨op, b, finalState op.run b⟩ :: (next (outcome op.run b)).events (finalState op.run b)

end Program

/-- The fields that start at the cursor or behind it, as long as there is a layout. -/
def Buffer.pending (b : Buffer) : List (Nat × WireType) :=
  match b.layout? with
  | none => []
  | some l => l.fields.toList.filter (b.cursor ≤ ·.1)

namespace Event

/-- The wire type of a typed read or skip that was checked against the layout and passed. -/
def accepted? (e : Event) : Option WireType := do
  let t ← e.op.asks?
  if e.before.layout?.isSome && Buffer.passes t e.before then some t else none

/-- The fields that an operation other than a typed read or skip went past or dropped. -/
def bypassed (e : Event) : List (Nat × WireType) :=
  if e.op.asks?.isSome then []
  else e.before.pending.filter fun field => e.after.layout?.isNone || field.1 < e.after.cursor

/-- The wire types of the fields that an operation accounts for. -/
def taken (e : Event) : List WireType := e.accepted?.toList ++ e.bypassed.map (·.2)

end Event

variable {fs pre post : List Field} {f : Field} {b s : Buffer} {op : Operation} {α : Type}

/-! ### Fields that are not reached -/

/-- Behind the starts of the fields in `pre` and not behind their end. -/
theorem filter_starts {c : Nat} (hlow : ∀ e ∈ starts 0 pre, e.1 < c)
    (hc : c ≤ (fieldBytes pre).length) :
    (starts 0 (pre ++ post)).filter (c ≤ ·.1) = starts (fieldBytes pre).length post := by
  rw [starts_append, List.filter_append, Nat.zero_add]
  have hpre : (starts 0 pre).filter (c ≤ ·.1) = [] := by
    rw [List.filter_eq_nil_iff]
    intro e he hle
    have := hlow e he
    have := of_decide_eq_true hle
    omega
  have hpost : (starts (fieldBytes pre).length post).filter (c ≤ ·.1) =
      starts (fieldBytes pre).length post := by
    rw [List.filter_eq_self]
    intro e he
    have := le_of_mem_starts he
    exact decide_eq_true (by omega)
  rw [hpre, hpost, List.nil_append]

/-- In an ascending list what is below a bound comes first. -/
theorem filter_lt_append_filter_le (c : Nat) : ∀ {es : List (Nat × WireType)},
    es.Pairwise (·.1 < ·.1) → es.filter (·.1 < c) ++ es.filter (c ≤ ·.1) = es
  | [], _ => rfl
  | e :: es, h => by
    obtain ⟨he, hes⟩ := List.pairwise_cons.mp h
    by_cases hc : e.1 < c
    · rw [List.filter_cons_of_pos (by simpa using hc),
        List.filter_cons_of_neg (by simpa using hc), List.cons_append,
        filter_lt_append_filter_le c hes]
    · have hnone : es.filter (·.1 < c) = [] := by
        rw [List.filter_eq_nil_iff]
        intro e' he' hlt
        have := he e' he'
        have := of_decide_eq_true hlt
        omega
      have hall : es.filter (c ≤ ·.1) = es := by
        rw [List.filter_eq_self]
        intro e' he'
        have := he e' he'
        exact decide_eq_true (by omega)
      rw [List.filter_cons_of_neg (by simpa using hc), List.filter_cons_of_pos (by simpa using hc),
        hnone, hall, List.nil_append]

/-! ### One operation -/

/-- A buffer that still has its layout still has its fields. -/
def Holds (fs : List Field) (b : Buffer) : Prop :=
  ∀ l, b.layout? = some l → l = layoutOf fs ∧ fieldBytes fs <+: b.bytes

theorem pending_of_none (h : b.layout? = none) : b.pending = [] := by
  rw [Buffer.pending, h]

theorem pending_of_layout (h : b.layout? = some (layoutOf fs)) :
    b.pending = (starts 0 fs).filter (b.cursor ≤ ·.1) := by
  rw [Buffer.pending, h]
  rfl

theorem le_of_mem_pending {e : Nat × WireType} (h : e ∈ b.pending) : b.cursor ≤ e.1 := by
  unfold Buffer.pending at h
  cases hl : b.layout? with
  | none =>
    rw [hl] at h
    cases h
  | some l =>
    rw [hl] at h
    exact of_decide_eq_true (List.mem_filter.mp h).2

/-- The ledger of one operation. -/
def Balanced (fs : List Field) (e : Event) : Prop :=
  Holds fs e.after ∧ e.before.pending.map (·.2) = e.taken ++ e.after.pending.map (·.2)

theorem taken_of_refused {t : WireType} (ht : op.asks? = some t) (hp : Buffer.passes t b = false) :
    Event.taken ⟨op, b, s⟩ = [] := by
  simp [Event.taken, Event.accepted?, Event.bypassed, ht, hp]

theorem taken_of_accepted {t : WireType} {l : Layout} (hl : b.layout? = some l)
    (ht : op.asks? = some t) (hp : Buffer.passes t b = true) : Event.taken ⟨op, b, s⟩ = [t] := by
  simp [Event.taken, Event.accepted?, Event.bypassed, ht, hp, hl]

theorem taken_of_untyped (ht : op.asks? = none) :
    Event.taken ⟨op, b, s⟩ =
      (b.pending.filter fun field => s.layout?.isNone || field.1 < s.cursor).map (·.2) := by
  simp [Event.taken, Event.accepted?, Event.bypassed, ht]

/-- An operation without a check that goes forward, or stays. -/
theorem balanced_of_forward (h : Encodable fs) (hl : b.layout? = some (layoutOf fs))
    (ht : op.asks? = none) (hs : s.layout? = b.layout?) (hle : b.cursor ≤ s.cursor)
    (hholds : Holds fs s) : Balanced fs ⟨op, b, s⟩ := by
  refine ⟨hholds, ?_⟩
  have hsorted : b.pending.Pairwise (·.1 < ·.1) := by
    rw [pending_of_layout hl]
    exact (pairwise_starts 0 h).filter _
  have hafter : s.pending = b.pending.filter (s.cursor ≤ ·.1) := by
    rw [pending_of_layout hl, pending_of_layout (hs.trans hl), List.filter_filter]
    refine List.filter_congr fun e _ => ?_
    rw [← Bool.decide_and]
    exact decide_eq_decide.mpr ⟨fun hc => ⟨hc, Nat.le_trans hle hc⟩, fun hc => hc.1⟩
  have hpassed : (b.pending.filter fun e => s.layout?.isNone || e.1 < s.cursor) =
      b.pending.filter (·.1 < s.cursor) := by
    rw [hs.trans hl]
    rfl
  show b.pending.map (·.2) = Event.taken ⟨op, b, s⟩ ++ s.pending.map (·.2)
  rw [taken_of_untyped ht, hpassed, hafter, ← List.map_append,
    filter_lt_append_filter_le s.cursor hsorted]

theorem filter_starts_at (h : Encodable pre) :
    (starts 0 (pre ++ f :: post)).filter ((fieldBytes pre).length ≤ ·.1) =
      ((fieldBytes pre).length, f.tag) ::
        starts ((fieldBytes pre).length + f.emit.bytes.length) post :=
  filter_starts (fun _ he => Nat.zero_add (fieldBytes pre).length ▸ lt_of_mem_starts h he)
    (Nat.le_refl _)

theorem filter_starts_within (h : Encodable pre) {c : Nat} (hlow : (fieldBytes pre).length < c)
    (hhigh : c ≤ (fieldBytes pre).length + f.emit.bytes.length) :
    (starts 0 (pre ++ f :: post)).filter (c ≤ ·.1) =
      starts ((fieldBytes pre).length + f.emit.bytes.length) post := by
  have hlen : (fieldBytes (pre ++ [f])).length = (fieldBytes pre).length + f.emit.bytes.length := by
    simp
  have hsplit : pre ++ f :: post = (pre ++ [f]) ++ post := by simp
  rw [hsplit, filter_starts (fun e he => ?_) (hlen ▸ hhigh), hlen]
  rw [starts_append, List.mem_append] at he
  rcases he with he | he
  · have := lt_of_mem_starts h he
    omega
  · have hstart : e = (0 + (fieldBytes pre).length, f.tag) := List.mem_singleton.mp he
    rw [hstart]
    omega

/-- A typed read or skip that passed takes the field at the cursor, and gets no further. -/
theorem balanced_of_accepted (h : Encodable fs) {t : WireType} {n : Nat} (hb : Holds fs b)
    (hl : b.layout? = some (layoutOf fs)) (ht : op.asks? = some t)
    (hp : Buffer.passes t b = true) (hn : Buffer.Advances t b n) :
    Balanced fs ⟨op, b, b.leaving n⟩ := by
  obtain ⟨-, hbytes⟩ := hb _ hl
  refine ⟨hb, ?_⟩
  obtain ⟨i, hfind⟩ := (Buffer.passes_iff hl).mp hp
  obtain ⟨pre, f, post, rfl, -, rfl, hcursor⟩ := (find?_layoutOf_eq_some_iff h).mp hfind
  obtain ⟨extra, hextra⟩ := hbytes
  have hunread : b.unread = f.emit.bytes ++ (fieldBytes post ++ extra) := by
    rw [Buffer.unread, ← hextra, ← hcursor, fieldBytes_append, List.append_assoc, List.drop_left,
      fieldBytes_cons, List.append_assoc]
  obtain ⟨hlow, hhigh⟩ := hn f _ rfl (h f (by simp)) hunread
  have hsize : b.cursor + b.unread.length = b.size := by
    rw [Buffer.length_unread, Buffer.cursor_add_unreadSize]
  rw [hunread, List.length_append] at hsize hhigh
  have hpre : Encodable pre := (encodable_append.mp h).1
  have hbefore := pending_of_layout hl
  rw [← hcursor, filter_starts_at hpre] at hbefore
  have hafter : (b.leaving n).pending = _ := pending_of_layout hl
  rw [Buffer.cursor_leaving, filter_starts_within hpre (by omega) (by omega)] at hafter
  show b.pending.map (·.2) = Event.taken ⟨op, b, b.leaving n⟩ ++ (b.leaving n).pending.map (·.2)
  rw [taken_of_accepted hl ht hp, hbefore, hafter]
  rfl

theorem balanced_of_none (hl : b.layout? = none) (hs : s.layout? = none) :
    Balanced fs ⟨op, b, s⟩ := by
  refine ⟨fun l hl' => absurd (hs.symm.trans hl') nofun, ?_⟩
  have haccepted : Event.accepted? ⟨op, b, s⟩ = none := by
    simp [Event.accepted?, hl]
  have hbypassed : Event.bypassed ⟨op, b, s⟩ = [] := by
    simp [Event.bypassed, pending_of_none hl]
  show b.pending.map (·.2) = Event.taken ⟨op, b, s⟩ ++ s.pending.map (·.2)
  rw [Event.taken, haccepted, hbypassed, pending_of_none hl, pending_of_none hs]
  rfl

/-- **The ledger of one operation balances.** -/
theorem balanced_run (h : Encodable fs) (hb : Holds fs b) (op : Operation) :
    Balanced fs ⟨op, b, finalState op.run b⟩ := by
  cases hl : b.layout? with
  | none => exact balanced_of_none hl (Buffer.StaysBare.run op b hl)
  | some l =>
    obtain ⟨rfl, hbytes⟩ := hb l hl
    have heffect := Buffer.effect_run hl op
    generalize finalState op.run b = s at heffect
    cases heffect with
    | idle _ more limits ht =>
      exact balanced_of_forward h hl ht rfl (Nat.le_refl _) fun l hl' =>
        ⟨(hb l hl').1, hbytes.trans (List.prefix_append _ _)⟩
    | refused _ t ht hp =>
      refine ⟨hb, ?_⟩
      rw [taken_of_refused ht hp]
      rfl
    | accepted _ t n ht hp hn => exact balanced_of_accepted h hb hl ht hp hn
    | tree budget n hn =>
      have hle : b.cursor ≤ (b.leaving n).cursor := by
        have hfull := b.cursor_add_unreadSize
        rw [Buffer.length_unread] at hn
        rw [Buffer.cursor_leaving]
        omega
      exact balanced_of_forward h hl rfl rfl hle hb
    | clear =>
      refine ⟨fun l hl' => absurd hl' (Option.some_ne_none l).symm, ?_⟩
      have hall : (b.pending.filter fun e => (Buffer.ofLimits b.limits).layout?.isNone ||
          e.1 < (Buffer.ofLimits b.limits).cursor) = b.pending :=
        List.filter_eq_self.mpr fun _ _ => rfl
      have hnone : (Buffer.ofLimits b.limits).pending = [] := rfl
      rw [taken_of_untyped rfl, hall, hnone, List.map_nil, List.append_nil]

/-- Only clearing and reading a tree bypass fields. -/
theorem op_of_bypassed (h : Event.bypassed ⟨op, b, finalState op.run b⟩ ≠ []) :
    op = .clear ∨ ∃ budget, op = .readTree budget := by
  cases hl : b.layout? with
  | none =>
    refine absurd ?_ h
    simp [Event.bypassed, pending_of_none hl]
  | some l =>
    have heffect := Buffer.effect_run hl op
    generalize finalState op.run b = s at heffect h
    cases heffect with
    | idle _ more limits ht =>
      refine absurd ?_ h
      simp only [Event.bypassed, ht]
      rw [if_neg (by simp), List.filter_eq_nil_iff]
      intro e he hlt
      have hle := le_of_mem_pending he
      have hlayout : Option.isNone { b.extend more with limits }.layout? = false := by
        rw [Buffer.layout?_extend, hl]
        rfl
      rw [hlayout] at hlt
      exact absurd hle (Nat.not_le_of_lt (of_decide_eq_true hlt))
    | refused _ t ht hp =>
      refine absurd ?_ h
      simp [Event.bypassed, ht]
    | accepted _ t n ht hp hn =>
      refine absurd ?_ h
      simp [Event.bypassed, ht]
    | tree budget n hn => exact .inr ⟨budget, rfl⟩
    | clear => exact .inl rfl

/-! ### Runs -/

/-- What a program leaves pending is what its operations did not account for.  By induction over the
program, one operation at a time. -/
theorem balanced_events (h : Encodable fs) (prog : Program α) :
    ∀ {b : Buffer}, Holds fs b → Holds fs (finalState prog.run b) ∧
      b.pending.map (·.2) =
        (prog.events b).flatMap Event.taken ++ (finalState prog.run b).pending.map (·.2) := by
  induction prog with
  | ret r =>
    intro b hb
    cases r <;> exact ⟨hb, rfl⟩
  | step op next ih =>
    intro b hb
    obtain ⟨hafter, hledger⟩ := balanced_run h hb op
    obtain ⟨hend, hrest⟩ := ih (outcome op.run b) hafter
    refine ⟨hend, ?_⟩
    rw [hledger, hrest, Program.events, List.flatMap_cons, List.append_assoc]
    rfl

theorem after_of_mem_events (prog : Program α) : ∀ {b : Buffer} {e : Event}, e ∈ prog.events b →
    e = ⟨e.op, e.before, finalState e.op.run e.before⟩ := by
  induction prog with
  | ret r =>
    intro b e he
    cases he
  | step op next ih =>
    intro b e he
    rcases List.mem_cons.mp he with rfl | he
    · rfl
    · exact ih _ he

theorem length_taken (es : List Event) :
    (es.flatMap Event.taken).length =
      (es.filterMap Event.accepted?).length + (es.flatMap Event.bypassed).length := by
  induction es with
  | nil => rfl
  | cons e es ih =>
    rw [List.flatMap_cons, List.flatMap_cons, List.length_append, List.length_append, ih,
      Event.taken, List.length_append, List.length_map, List.filterMap_cons]
    cases e.accepted? with
    | none =>
      simp only [Option.toList_none, List.length_nil]
      omega
    | some t =>
      simp only [Option.toList_some, List.length_cons, List.length_nil]
      omega

/-- The types that were accepted are all there is if and only if nothing was bypassed. -/
theorem accepted_eq_taken_iff (es : List Event) :
    es.filterMap Event.accepted? = es.flatMap Event.taken ↔ ∀ e ∈ es, e.bypassed = [] := by
  constructor
  · intro heq
    have hlen := length_taken es
    rw [← heq] at hlen
    have hnil : es.flatMap Event.bypassed = [] := List.eq_nil_of_length_eq_zero (by omega)
    exact List.flatMap_eq_nil_iff.mp hnil
  · intro h
    rw [List.filterMap_eq_flatMap_toList]
    refine List.flatMap_congr fun e he => ?_
    rw [Event.taken, h e he, List.map_nil, List.append_nil]

theorem holds_between (limits : Limits) (fs : List Field) :
    Holds fs (Synthesizer.between limits [] fs) := by
  rintro l ⟨⟩
  exact ⟨rfl, List.prefix_refl _⟩

@[simp] theorem pending_between (limits : Limits) (fs : List Field) :
    (Synthesizer.between limits [] fs).pending.map (·.2) = fs.map (·.tag) := by
  have hall : (Synthesizer.between limits [] fs).pending = starts 0 fs :=
    List.filter_eq_self.mpr fun e _ => decide_eq_true (Nat.zero_le e.1)
  have hmap : ∀ (fs : List Field) (base : Nat), (starts base fs).map (·.2) = fs.map (·.tag) := by
    intro fs
    induction fs with
    | nil => exact fun _ => rfl
    | cons f rest ih => exact fun base => congrArg (f.tag :: ·) (ih _)
  rw [hall, hmap]

/-- A buffer that was read to its end has nothing pending. -/
theorem pending_of_read (h : Encodable fs) (hb : Holds fs b) (hread : b.size ≤ b.cursor) :
    b.pending = [] := by
  cases hl : b.layout? with
  | none => exact pending_of_none hl
  | some l =>
    obtain ⟨rfl, hbytes⟩ := hb l hl
    rw [pending_of_layout hl, List.filter_eq_nil_iff]
    intro e he hle
    have hlt := lt_of_mem_starts h he
    have hle' := of_decide_eq_true hle
    have hlen := hbytes.length_le
    unfold Buffer.size at hread
    omega

/-- **The ledger of a synthesis.**  Every field is accounted for, in order.  The types that were
checked and accepted are those of the fields if and only if no operation bypassed one, and only
clearing the buffer and reading a tree ever do. -/
theorem synthesize_program (s : Synthesizer) {p : PendingFields} (prog : Program α) {a : α}
    (h : s.synthesize p prog.run = .ok a) :
    ∃ b, s.encode p = .ok b ∧ (prog.events b).flatMap Event.taken = p.tags ∧
      ((prog.events b).filterMap Event.accepted? = p.tags ↔ ∀ e ∈ prog.events b, e.bypassed = []) ∧
      ∀ e ∈ prog.events b, e.bypassed ≠ [] →
        e.op = .clear ∨ ∃ budget, e.op = .readTree budget := by
  obtain ⟨henc, hread⟩ := Synthesizer.read_of_synthesize h
  refine ⟨_, s.encode_of_encodable henc, ?_⟩
  obtain ⟨hend, hledger⟩ := balanced_events henc prog (holds_between s.limits p.fields)
  rw [pending_of_read henc hend hread, List.map_nil, List.append_nil, pending_between] at hledger
  have htags : (prog.events _).flatMap Event.taken = p.tags := hledger.symm
  refine ⟨htags, ?_, fun e he hne => ?_⟩
  · rw [← htags]
    exact accepted_eq_taken_iff _
  · rw [after_of_mem_events prog he] at hne
    exact op_of_bypassed hne

/-- The ledger of a program that clears the buffer: the field is in it as bypassed. -/
theorem synthesize_program_clearing :
    let p : PendingFields := ⟨[⟨.varInt, .int32 1, rfl⟩]⟩
    let prog : Program Unit := .step .clear fun _ => .ret (.ok ())
    Synthesizer.standard.synthesize p prog.run = .ok () ∧ ∃ b,
      Synthesizer.standard.encode p = .ok b ∧ (prog.events b).flatMap Event.taken = [.varInt] := by
  intro p prog
  have hok : Synthesizer.standard.synthesize p prog.run = .ok () := rfl
  obtain ⟨b, hb, htaken, -⟩ := synthesize_program Synthesizer.standard prog hok
  exact ⟨hok, b, hb, htaken⟩

/-- Clearing the buffer gets around the check: the synthesis succeeds and no field was read. -/
theorem accepted_of_clear :
    let p : PendingFields := ⟨[⟨.varInt, .int32 1, rfl⟩]⟩
    let prog : Program Unit := .step .clear fun _ => .ret (.ok ())
    Synthesizer.standard.synthesize p prog.run = .ok () ∧
      ∀ b, (prog.events b).filterMap Event.accepted? ≠ p.tags :=
  ⟨rfl, fun _ => nofun⟩

/-- So does reading a tree: it is not checked against the layout. -/
theorem accepted_of_readTree :
    let p : PendingFields := ⟨[⟨.nbt, .nbt (some .empty), rfl⟩]⟩
    let prog : Program Unit := .step (.readTree ⟨84, 0⟩) fun _ => .ret (.ok ())
    Synthesizer.standard.synthesize p prog.run = .ok () ∧
      ∀ b, (prog.events b).filterMap Event.accepted? ≠ p.tags :=
  ⟨rfl, fun _ => nofun⟩

end Wireform
