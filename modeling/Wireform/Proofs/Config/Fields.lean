import Wireform.Proofs.Config.Texts
import Wireform.Proofs.Synthesis.InOrder

/-!
# Fields within settings

What a synthesis by the types of the fields, read in their order, comes to with settings that have
no problem, if texts are within the settings and trees are empty.  The smallest tree is charged 84,
36 for its name and 48 for itself, and settings may allow no more than 64; the words of a set are
counted in 32 bits.  A list of fields reads back exactly if neither is in the way, and is refused
otherwise.
-/

namespace Wireform

/-! ### Plain values -/

namespace Value

/-- Texts of no more than so many units, and no tree but the empty one. -/
def Plain (units : Nat) : Value → Prop
  | text x => Utf16.length x ≤ units
  | identifier i => Utf16.length i.space ≤ units ∧ Utf16.length i.path ≤ units
  | nbt (some t) => t = .empty
  | _ => True

end Value

open Config (CodecSettings)

namespace Synthesizer

variable {s : CodecSettings} {p : PendingFields} {pre post : List Field} {f : Field} {v : Value}

/-! ### One field -/

/-- A plain value reads back if it is no tree that the quota is too small for, and no set that is
too large to be counted. -/
theorem served_iff (h : s.problems = []) (hv : v.Plain s.stringUnits) :
    v.Declarable ∧ v.Within s.limits ↔
      (∀ x, v = .bitSet x → x.words.length ≤ maxDeclared) ∧
        (v = .nbt (some .empty) → 84 ≤ s.nbtQuota) := by
  cases v
  case text x => exact iff_of_true ⟨CodecSettings.length_encode_le h hv, hv⟩ ⟨nofun, nofun⟩
  case identifier i =>
    exact iff_of_true ⟨⟨CodecSettings.length_encode_le h hv.1,
      CodecSettings.length_encode_le h hv.2⟩, hv⟩ ⟨nofun, nofun⟩
  case bitSet x =>
    refine ⟨fun hx => ⟨?_, nofun⟩, fun hx => ⟨hx.1 x rfl, trivial⟩⟩
    rintro _ ⟨⟩
    exact hx.1
  case nbt tree =>
    cases tree with
    | none => exact iff_of_true ⟨trivial, trivial⟩ ⟨nofun, nofun⟩
    | some t =>
      obtain rfl : t = .empty := hv
      exact ⟨fun hw => ⟨nofun, fun _ => hw.2.1⟩, fun hw => ⟨trivial, hw.2 rfl, Nat.zero_le _⟩⟩
  all_goals exact iff_of_true ⟨trivial, trivial⟩ ⟨nofun, nofun⟩

theorem emit_fault?_of_plain {units : Nat} (h : f.value.Plain units) : f.emit.fault? = none := by
  rw [Field.emit_fault?_eq_none_iff]
  intro t ht
  rw [ht] at h
  obtain rfl : t = .empty := h
  rfl

/-- A plain field that does not read back is refused with all that follows it. -/
theorem readAll_refused (h : s.problems = []) (henc : Encodable (pre ++ f :: post))
    (hf : f.value.Plain s.stringUnits) (hnot : ¬ (f.value.Declarable ∧ f.value.Within s.limits)) :
    ∃ e b, readAll ((f :: post).map (·.tag)) (between s.limits pre (f :: post)) = .error e b ∧
      ((∀ x, f.value = .bitSet x → x.words.length ≤ maxDeclared) →
        e = .structureDecode (.overQuota 84 s.nbtQuota)) := by
  by_cases hcounted : ∀ x, f.value = .bitSet x → x.words.length ≤ maxDeclared
  · have hquota := (CodecSettings.problems_eq_nil_iff.mp h).2.1.1
    rw [served_iff h hf, and_iff_right hcounted, Classical.not_imp, Nat.not_le] at hnot
    have hname : 36 ≤ s.limits.nbtQuota :=
      Nat.le_trans (by decide : 36 ≤ CodecSettings.minQuota) hquota
    obtain ⟨b, hread⟩ := read_of_quota_lt henc hnot.1 hname hnot.2
    exact ⟨_, b, readAll_cons_of_error hread, fun _ => rfl⟩
  · obtain ⟨x, hx, hlarge⟩ : ∃ x, f.value = .bitSet x ∧ maxDeclared < x.words.length := by
      simpa using hcounted
    obtain ⟨e, b, hrun⟩ := readAll_oversized s.limits henc hx hlarge
    exact ⟨e, b, hrun, fun hall => absurd hall hcounted⟩

/-! ### All fields -/

/-- The fields in front of the first that does not read back do, so that it decides. -/
theorem synthesize_of_not_served (h : s.problems = [])
    (hp : ∀ f ∈ p.fields, f.value.Plain s.stringUnits)
    (hnot : ¬ ∀ f ∈ p.fields, f.value.Declarable ∧ f.value.Within s.limits) :
    ∃ e, (ofSettings s).synthesize p (p.tags.mapM Buffer.read) = .error e ∧
      ((∀ f ∈ p.fields, ∀ x, f.value = .bitSet x → x.words.length ≤ maxDeclared) →
        e = .structureDecode (.overQuota 84 s.nbtQuota)) := by
  classical
  have henc : Encodable p.fields := fun f hf => emit_fault?_of_plain (hp f hf)
  obtain ⟨f, hfind⟩ : ∃ f, p.fields.find?
      (fun f => ¬ (f.value.Declarable ∧ f.value.Within s.limits)) = some f := by
    rw [← Option.isSome_iff_exists, List.find?_isSome]
    simpa only [not_forall, exists_prop, decide_eq_true_eq] using hnot
  obtain ⟨hf, front, post, hfields, hfront⟩ := List.find?_eq_some_iff_append.mp hfind
  have hmem : f ∈ p.fields := by simp [hfields]
  have hserved : ∀ g ∈ front, g.value.Declarable ∧ g.value.Within s.limits := by simpa using hfront
  have hall : Encodable ([] ++ (front ++ f :: post)) := hfields ▸ henc
  obtain ⟨e, b, hrefused, hcause⟩ := readAll_refused h hall (hp f hmem) (of_decide_eq_true hf)
  have hrun := readAll_between s.limits hall hserved
  rw [List.nil_append, bind_of_error hrefused, ← hfields] at hrun
  exact ⟨e, (synthesize_mapM (ofSettings s) henc).trans (outcome_of_error hrun),
    fun hcounted => hcause (hcounted f hmem)⟩

/-- **What settings without problems do to a list of plain fields.**  Read in order the fields read
back, unless the quota is too small for a tree among them or a set is too large to be counted; they
are refused then. -/
theorem synthesize_plain (h : s.problems = [])
    (hp : ∀ f ∈ p.fields, f.value.Plain s.stringUnits) :
    let answer := (ofSettings s).synthesize p (p.tags.mapM Buffer.read)
    let counted := ∀ f ∈ p.fields, ∀ x, f.value = .bitSet x → x.words.length ≤ maxDeclared
    let allowed := ∀ f ∈ p.fields, f.value = .nbt (some .empty) → 84 ≤ s.nbtQuota
    (counted ∧ allowed → answer = .ok p.values) ∧
      (counted ∧ ¬ allowed → answer = .error (.structureDecode (.overQuota 84 s.nbtQuota))) ∧
      (¬ counted → ∃ e, answer = .error e) := by
  intro answer counted allowed
  have hserved : (∀ f ∈ p.fields, f.value.Declarable ∧ f.value.Within s.limits) ↔
      counted ∧ allowed := by
    rw [← forall₂_and]
    exact forall₂_congr fun f hf => served_iff h (hp f hf)
  by_cases hall : counted ∧ allowed
  · have hok : answer = .ok p.values :=
      synthesize_of_served (ofSettings s) (fun f hf => emit_fault?_of_plain (hp f hf))
        (hserved.mpr hall)
    exact ⟨fun _ => hok, fun hnot => absurd hall.2 hnot.2, fun hnot => absurd hall.1 hnot⟩
  · obtain ⟨e, herr, hcause⟩ := synthesize_of_not_served h hp (mt hserved.mp hall)
    refine ⟨fun hyes => absurd hyes hall, fun hcounted => ?_, fun _ => ⟨e, herr⟩⟩
    rw [← hcause hcounted.1]
    exact herr

/-- The empty tree in the smallest quota it fits. -/
theorem synthesize_plain_eighty_four :
    let s : CodecSettings := { CodecSettings.standard with nbtQuota := 84 }
    let p : PendingFields := ⟨[⟨.nbt, .nbt (some .empty), rfl⟩, ⟨.string, .text "hi", rfl⟩]⟩
    s.problems = [] ∧ (∀ f ∈ p.fields, f.value.Plain s.stringUnits) ∧
      (ofSettings s).synthesize p (p.tags.mapM Buffer.read) = .ok p.values := by
  intro s p
  have hproblems : s.problems = [] := by decide
  have hp : ∀ f ∈ p.fields, f.value.Plain s.stringUnits := by
    refine List.forall_mem_cons.mpr ⟨rfl, List.forall_mem_singleton.mpr ?_⟩
    exact (by decide : Utf16.length "hi" ≤ 32767)
  have hcounted : ∀ f ∈ p.fields, ∀ x, f.value = .bitSet x → x.words.length ≤ maxDeclared :=
    List.forall_mem_cons.mpr ⟨nofun, List.forall_mem_singleton.mpr nofun⟩
  have hallowed : ∀ f ∈ p.fields, f.value = .nbt (some .empty) → 84 ≤ s.nbtQuota :=
    fun _ _ _ => Nat.le_refl 84
  exact ⟨hproblems, hp, (synthesize_plain hproblems hp).1 ⟨hcounted, hallowed⟩⟩

/-- The smallest quota without a problem is too small for every tree: settings that pass the check
cannot be used for fields that hold one. -/
theorem not_synthesize_plain :
    let s : CodecSettings := { CodecSettings.standard with nbtQuota := CodecSettings.minQuota }
    let p : PendingFields := ⟨[⟨.nbt, .nbt (some .empty), rfl⟩]⟩
    s.problems = [] ∧ (∀ f ∈ p.fields, f.value.Plain s.stringUnits) ∧
      (ofSettings s).synthesize p (p.tags.mapM Buffer.read) =
        .error (.structureDecode (.overQuota 84 64)) := by
  intro s p
  have henc : Encodable ([] ++ p.fields) := List.forall_mem_singleton.mpr rfl
  have hname : 36 ≤ s.limits.nbtQuota := (by decide : 36 ≤ CodecSettings.minQuota)
  have hquota : s.limits.nbtQuota < 84 := (by decide : CodecSettings.minQuota < 84)
  obtain ⟨b, hread⟩ := read_of_quota_lt henc rfl hname hquota
  exact ⟨by decide, List.forall_mem_singleton.mpr rfl,
    (synthesize_mapM (ofSettings s) henc).trans (outcome_of_error (readAll_cons_of_error hread))⟩

end Synthesizer

end Wireform
