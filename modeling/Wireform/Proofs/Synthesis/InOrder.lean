import Wireform.Proofs.Codec.Consumption
import Wireform.Proofs.Synthesis.Readers

/-!
# Fields read in their order

The plainest reader of a list of fields asks for their types one after the other.  Fields that read
back are read off the front, so that the first that does not decides.  One that is read in part
leaves the cursor where no field starts, and nothing can be read from there.
-/

namespace Wireform.Synthesizer

variable {limits : Limits} {p : PendingFields} {pre front post : List Field} {f : Field}
  {t : WireType} {v : Value} {c n : Nat}

/-- Reads values of these types one after the other, and checks that nothing is left. -/
def readAll (ts : List WireType) : Buffer.Action (List Value) := do
  let vs ← ts.mapM Buffer.read
  Buffer.checkAllRead
  return vs

@[simp] theorem readAll_nil : readAll [] = (do
      Buffer.checkAllRead
      return [] : Buffer.Action (List Value)) := by
  rw [readAll, List.mapM_nil, pure_bind]

theorem readAll_cons_of_ok {ts : List WireType} {b b' : Buffer} (h : Buffer.read t b = .ok v b') :
    readAll (t :: ts) b = (do return v :: (← readAll ts) : Buffer.Action _) b' := by
  simp only [readAll, List.mapM_cons, bind_assoc, pure_bind]
  rw [bind_of_ok h]

theorem readAll_cons_of_error {ts : List WireType} {b b' : Buffer} {e : Fault}
    (h : Buffer.read t b = .error e b') : readAll (t :: ts) b = .error e b' := by
  simp only [readAll, List.mapM_cons, bind_assoc]
  rw [bind_of_error h]

/-- Fields that read back are read off the front, one by one. -/
theorem readAll_between (limits : Limits) : ∀ {front pre post : List Field},
    Encodable (pre ++ (front ++ post)) →
    (∀ f ∈ front, f.value.Declarable ∧ f.value.Within limits) →
    readAll ((front ++ post).map (·.tag)) (between limits pre (front ++ post)) =
      (do return front.map (·.value) ++ (← readAll (post.map (·.tag))) : Buffer.Action _)
        (between limits (pre ++ front) post)
  | [], pre, post, _, _ => by simp
  | f :: front, pre, post, h, hfront => by
    obtain ⟨⟨hdecl, hwithin⟩, hrest⟩ := List.forall_mem_cons.mp hfront
    rw [List.cons_append] at h
    have hread := (read_between_cons limits h hdecl f.tag).1 ⟨rfl, hwithin⟩
    have h' : Encodable ((pre ++ [f]) ++ (front ++ post)) := by simpa using h
    have ih := readAll_between limits h' hrest
    rw [List.append_assoc, List.singleton_append] at ih
    rw [List.cons_append, List.map_cons, readAll_cons_of_ok hread, bind_eq, ih, bind_eq, bind_eq]
    cases readAll (post.map (·.tag)) (between limits (pre ++ f :: front) post) <;> rfl

/-- No field starts within another. -/
theorem not_find?_within (h : Encodable (pre ++ f :: post)) (hlow : (fieldBytes pre).length < c)
    (hhigh : c < (fieldBytes (pre ++ [f])).length) (t : WireType) :
    ¬ ∃ i, (layoutOf (pre ++ f :: post)).find? c = some (i, t) := by
  rintro ⟨i, hfind⟩
  obtain ⟨pre', g, rest, heq, -, -, rfl⟩ := (find?_layoutOf_eq_some_iff h).mp hfind
  rcases List.append_eq_append_iff.mp heq with ⟨more, rfl, hmore⟩ | ⟨more, rfl, hmore⟩
  · cases more with
    | nil => simp at hlow
    | cons f' more =>
      cases hmore
      simp only [fieldBytes_append, fieldBytes_cons, fieldBytes_nil, List.length_append,
        List.length_nil] at hhigh
      omega
  · simp only [fieldBytes_append, List.length_append] at hlow
    omega

/-- Nothing is read from within a field, and something is left there. -/
theorem readAll_within (limits : Limits) (h : Encodable (pre ++ f :: post))
    (hlow : (fieldBytes post).length < n) (hhigh : n < (fieldBytes (f :: post)).length)
    (ts : List WireType) :
    ∃ e b, readAll ts ((between limits pre (f :: post)).leaving n) = .error e b := by
  let b : Buffer := (between limits pre (f :: post)).leaving n
  have hcursor : b.cursor = (fieldBytes pre).length + (fieldBytes (f :: post)).length - n :=
    congrArg (· - n) size_between
  rw [fieldBytes_cons, List.length_append] at hhigh hcursor
  cases ts with
  | nil =>
    have hunread : b.cursor < b.size := by
      rw [hcursor, Buffer.size_leaving, size_between, fieldBytes_cons, List.length_append]
      omega
    obtain ⟨m, hm⟩ := Buffer.checkAllRead_of_unread hunread
    rw [readAll_nil]
    exact ⟨_, _, bind_of_error hm⟩
  | cons t ts =>
    have hlayout : b.layout? = some (layoutOf (pre ++ f :: post)) := rfl
    have hnot := not_find?_within h (c := b.cursor) (by omega) (by simp; omega) t
    obtain ⟨m, hm⟩ := Buffer.checkField_of_not_found hlayout hnot
    exact ⟨_, _, readAll_cons_of_error (bind_of_error hm)⟩

/-- A set that is too large to be counted is refused, or read in part and what follows refused. -/
theorem readAll_oversized (limits : Limits) (h : Encodable (pre ++ f :: post)) {x : BitSet}
    (hf : f.value = .bitSet x) (hx : maxDeclared < x.words.length) :
    ∃ e b, readAll ((f :: post).map (·.tag)) (between limits pre (f :: post)) = .error e b := by
  cases hrun : Buffer.read f.tag (between limits pre (f :: post)) with
  | error e b => exact ⟨e, b, readAll_cons_of_error hrun⟩
  | ok v b =>
    rw [List.map_cons, readAll_cons_of_ok hrun]
    rw [read_between limits h, Buffer.Action.ofDecoder_eq_ok_iff, unread_between,
      fieldBytes_cons] at hrun
    obtain ⟨rest, hdecode, rfl⟩ := hrun
    have hconsumes : Consumes (f.tag.decode limits) 1 (f.emit.bytes.length - 1)
        (f.emit.bytes ++ fieldBytes post) := by
      obtain ⟨t, v, hfits⟩ := f
      subst hf
      cases t <;> cases hfits
      exact (consumes_oversized hx _).map _
    unfold Consumes at hconsumes
    rw [finalState_of_ok hdecode, List.length_append] at hconsumes
    have hlow : (fieldBytes post).length < rest.length := by omega
    have hhigh : rest.length < (fieldBytes (f :: post)).length := by
      simp
      omega
    obtain ⟨e, b, hrefused⟩ := readAll_within limits h hlow hhigh (post.map (·.tag))
    exact ⟨e, b, bind_of_error hrefused⟩

/-- A tree for which the quota is too small is refused. -/
theorem read_of_quota_lt (h : Encodable (pre ++ f :: post)) {tree : Nbt.Tree}
    (hf : f.value = .nbt (some tree)) (hname : 36 ≤ limits.nbtQuota)
    (hquota : limits.nbtQuota < 84) :
    ∃ b, Buffer.read f.tag (between limits pre (f :: post)) =
      .error (.structureDecode (.overQuota 84 limits.nbtQuota)) b := by
  have hemit := h f (by simp)
  have hrun : f.tag.decode limits (between limits pre (f :: post)).unread =
      .error (.structureDecode (.overQuota 84 limits.nbtQuota))
        (Nbt.entriesEncoding tree.entries ++ fieldBytes post) := by
    simp
    obtain ⟨t, v, hfits⟩ := f
    subst hf
    cases t <;> cases hfits
    have hbytes : (Field.emit ⟨.nbt, .nbt (some tree), rfl⟩).bytes = Nbt.treeEncoding tree :=
      bytes_nbt hemit
    have hnbt := nbt_treeEncoding limits tree (fieldBytes post)
    have htree : Nbt.decodeTree ⟨limits.nbtQuota, limits.nbtDepth⟩
        (Nbt.treeEncoding tree ++ fieldBytes post) = _ :=
      Nbt.decodeTree_of_quota_lt hname hquota (Nbt.entriesEncoding tree.entries ++ fieldBytes post)
    rw [bind_of_error htree] at hnbt
    rw [hbytes]
    exact bind_of_error hnbt
  exact ⟨_, (read_between limits h).trans (Buffer.Action.ofDecoder_of_error hrun)⟩

/-! ### Synthesis -/

/-- Synthesis by the types of the fields runs `readAll` on the fields written. -/
theorem synthesize_mapM (s : Synthesizer) (h : Encodable p.fields) :
    s.synthesize p (p.tags.mapM Buffer.read) =
      outcome (readAll p.tags) (between s.limits [] p.fields) :=
  synthesize_eq_outcome s h _

theorem synthesize_of_served (s : Synthesizer) (h : Encodable p.fields)
    (hserved : ∀ f ∈ p.fields, f.value.Declarable ∧ f.value.Within s.limits) :
    s.synthesize p (p.tags.mapM Buffer.read) = .ok p.values := by
  have hread : (between s.limits p.fields []).size ≤ (between s.limits p.fields []).cursor := by
    rw [size_between]
    exact Nat.le_refl _
  have henc : Encodable ([] ++ (p.fields ++ [])) := by simpa using h
  have hrun := readAll_between s.limits henc hserved
  rw [List.append_nil, List.nil_append, List.map_nil, readAll_nil, bind_assoc,
    bind_of_ok (Buffer.checkAllRead_of_read hread), pure_bind, pure_eq, List.append_nil] at hrun
  rw [synthesize_mapM s h]
  exact outcome_of_ok hrun

end Wireform.Synthesizer
