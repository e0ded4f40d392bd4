import Wireform.Buffer
import Wireform.Proofs.Decoder

/-!
# Actions on buffers

A buffer cut at its cursor, and what actions made of decoders and of emissions do to it.
-/

namespace Wireform.Buffer

variable {b b' : Buffer} {e : Emission} {d : Decoder α} {a : α} {fault : Fault} {rest : Bytes}

@[simp] theorem length_unread (b : Buffer) : b.unread.length = b.unreadSize := List.length_drop

theorem cursor_le (b : Buffer) : b.cursor ≤ b.size := b.inBounds

@[simp] theorem cursor_add_unreadSize (b : Buffer) : b.cursor + b.unreadSize = b.size :=
  Nat.add_sub_cancel' b.inBounds

@[simp] theorem size_sub_unreadSize (b : Buffer) : b.size - b.unreadSize = b.cursor :=
  Nat.sub_sub_self b.inBounds

/-! ### Positions -/

/-- The buffer with its cursor at a position, or at the end if the position is past it. -/
def seek (b : Buffer) (position : Nat) : Buffer :=
  { b with cursor := min position b.size, inBounds := Nat.min_le_right _ _ }

/-- The buffer with its cursor moved on over `n` bytes, or to the end if fewer are left. -/
def advance (b : Buffer) (n : Nat) : Buffer := b.seek (b.cursor + n)

/-- A buffer of which `front` has been read and `rest` has not. -/
def split (front rest : Bytes) (limits : Limits) (layout? : Option Layout) : Buffer :=
  ⟨front ++ rest, front.length, limits, layout?, by simp⟩

/-- What was written behind `b` when `b'` came of it, not yet read, with `after` behind it. -/
def behind (b b' : Buffer) (after : Bytes) : Buffer := (b'.extend after).seek b.size

variable {m n : Nat} {front : Bytes}

@[simp] theorem bytes_seek (b : Buffer) (k : Nat) : (b.seek k).bytes = b.bytes := rfl
@[simp] theorem cursor_seek (b : Buffer) (k : Nat) : (b.seek k).cursor = min k b.size := rfl
@[simp] theorem limits_seek (b : Buffer) (k : Nat) : (b.seek k).limits = b.limits := rfl
@[simp] theorem layout?_seek (b : Buffer) (k : Nat) : (b.seek k).layout? = b.layout? := rfl
@[simp] theorem size_seek (b : Buffer) (k : Nat) : (b.seek k).size = b.size := rfl

@[simp] theorem bytes_advance (b : Buffer) (n : Nat) : (b.advance n).bytes = b.bytes := rfl
@[simp] theorem limits_advance (b : Buffer) (n : Nat) : (b.advance n).limits = b.limits := rfl
@[simp] theorem layout?_advance (b : Buffer) (n : Nat) : (b.advance n).layout? = b.layout? := rfl
@[simp] theorem size_advance (b : Buffer) (n : Nat) : (b.advance n).size = b.size := rfl

theorem cursor_advance (h : n ≤ b.unreadSize) : (b.advance n).cursor = b.cursor + n := by
  have hfull := b.cursor_add_unreadSize
  show min (b.cursor + n) b.size = b.cursor + n
  omega

theorem leaving_eq_seek (b : Buffer) (n : Nat) : b.leaving n = b.seek (b.size - n) :=
  Buffer.ext rfl (Nat.min_eq_left (Nat.sub_le _ _)).symm rfl rfl

@[simp] theorem leaving_leaving (b : Buffer) (m n : Nat) :
    (b.leaving m).leaving n = b.leaving n := rfl

theorem leaving_eq_advance (h : n ≤ b.unreadSize) :
    b.leaving n = b.advance (b.unreadSize - n) := by
  have hfull := b.cursor_add_unreadSize
  rw [leaving_eq_seek, advance]
  congr 1
  omega

@[simp] theorem leaving_zero (b : Buffer) : b.leaving 0 = b.advance b.unreadSize :=
  leaving_eq_advance (Nat.zero_le _)

@[simp] theorem seek_seek (b : Buffer) (j k : Nat) : (b.seek j).seek k = b.seek k := rfl

@[simp] theorem advance_advance (b : Buffer) (m n : Nat) :
    (b.advance m).advance n = b.advance (m + n) := by
  refine Buffer.ext rfl ?_ rfl rfl
  show min (min (b.cursor + m) b.size + n) b.size = min (b.cursor + (m + n)) b.size
  omega

@[simp] theorem advance_zero (b : Buffer) : b.advance 0 = b :=
  Buffer.ext rfl (Nat.min_eq_left b.inBounds) rfl rfl

@[simp] theorem unread_seek (b : Buffer) (k : Nat) : (b.seek k).unread = b.bytes.drop k :=
  List.drop_eq_drop_min.symm

@[simp] theorem unread_advance (b : Buffer) (n : Nat) :
    (b.advance n).unread = b.unread.drop n := by
  rw [advance, unread_seek, unread, List.drop_drop]

theorem advance_inj (hm : m ≤ b.unreadSize) (hn : n ≤ b.unreadSize) :
    b.advance m = b.advance n ↔ m = n := by
  refine ⟨fun h => ?_, fun h => h ▸ rfl⟩
  have hcursor := congrArg Buffer.cursor h
  rwa [cursor_advance hm, cursor_advance hn, Nat.add_left_cancel_iff] at hcursor

@[simp] theorem unreadSize_advance (b : Buffer) (n : Nat) :
    (b.advance n).unreadSize = b.unreadSize - n := by
  rw [← length_unread, unread_advance, List.length_drop, length_unread]

@[simp] theorem unread_split (front rest : Bytes) (limits : Limits) (layout? : Option Layout) :
    (split front rest limits layout?).unread = rest := List.drop_left

theorem length_le_unreadSize (h : b.unread = front ++ rest) : front.length ≤ b.unreadSize := by
  rw [← length_unread, h, List.length_append]
  exact Nat.le_add_right _ _

@[simp] theorem advance_split (front mid rest : Bytes) (limits : Limits)
    (layout? : Option Layout) :
    (split front (mid ++ rest) limits layout?).advance mid.length =
      split (front ++ mid) rest limits layout? := by
  refine Buffer.ext (List.append_assoc _ _ _).symm ?_ rfl rfl
  simp [advance, split, size]

/-- Behind bytes that are there the cursor is as far on as they are long. -/
theorem leaving_of_unread (h : b.unread = front ++ rest) :
    b.leaving rest.length = b.advance front.length := by
  have hlength : b.unreadSize = front.length + rest.length := by
    rw [← length_unread, h, List.length_append]
  rw [leaving_eq_advance (hlength ▸ Nat.le_add_left _ _), hlength, Nat.add_sub_cancel]

/-- What a decoder leaves is what is unread behind it. -/
theorem unread_leaving (h : b.unread = front ++ rest) : (b.leaving rest.length).unread = rest := by
  simp [leaving_of_unread h, h]

/-! ### What was written -/

@[simp] theorem unread_behind (b : Buffer) (more after : Bytes) :
    (b.behind (b.extend more) after).unread = more ++ after := by
  simp [behind, size]

/-- Once it is read the cursor is where the writing ended. -/
theorem leaving_behind (b : Buffer) (more after : Bytes) :
    (b.behind (b.extend more) after).leaving after.length =
      (b.behind (b.extend more) after).seek (b.extend more).size := by
  rw [leaving_eq_seek]
  simp [behind]

/-- What has been read of a fresh buffer is in front of what has not. -/
theorem leaving_ofBytes (front rest : Bytes) (limits : Limits) :
    leaving { ofBytes (front ++ rest) with limits } rest.length = split front rest limits none :=
  Buffer.ext rfl (by simp [size, ofBytes, split]) rfl rfl

@[simp] theorem leaving_unreadSize (b : Buffer) : b.leaving b.unreadSize = b :=
  Buffer.ext rfl b.size_sub_unreadSize rfl rfl

namespace Action

theorem ofEmission_of_none (h : e.fault? = none) :
    ofEmission e b = .ok () (b.extend e.bytes) := by
  unfold ofEmission
  rw [h]

theorem ofEmission_of_some (h : e.fault? = some fault) :
    ofEmission e b = .error fault (b.extend e.bytes) := by
  unfold ofEmission
  rw [h]

/-- An emission is appended in full or up to its fault. -/
@[simp] theorem ofEmission_eq_ok_iff :
    ofEmission e b = .ok () b' ↔
      e.fault? = none ∧ b' = b.extend e.bytes := by
  cases h : e.fault? with
  | none =>
    rw [ofEmission_of_none h, EStateM.Result.ok.injEq]
    exact ⟨fun h => ⟨rfl, h.2.symm⟩, fun h => ⟨rfl, h.2.symm⟩⟩
  | some fault =>
    rw [ofEmission_of_some h]
    exact ⟨nofun, nofun⟩

theorem ofDecoder_of_ok (h : d b.unread = .ok a rest) :
    ofDecoder d b = .ok a (b.leaving rest.length) := by
  unfold ofDecoder
  rw [h]

/-- What is read from the front is passed over. -/
theorem ofDecoder_of_front {front : Bytes} (hfront : b.unread = front ++ rest)
    (h : d (front ++ rest) = .ok a rest) : ofDecoder d b = .ok a (b.advance front.length) := by
  rw [← leaving_of_unread hfront]
  exact ofDecoder_of_ok (hfront ▸ h)

theorem ofDecoder_of_error (h : d b.unread = .error fault rest) :
    ofDecoder d b = .error fault (b.leaving rest.length) := by
  unfold ofDecoder
  rw [h]

@[simp] theorem ofDecoder_eq_ok_iff :
    ofDecoder d b = .ok a b' ↔
      ∃ rest, d b.unread = .ok a rest ∧ b' = b.leaving rest.length := by
  constructor
  · intro h
    cases hrun : d b.unread with
    | ok a' rest =>
      rw [ofDecoder_of_ok hrun] at h
      cases h
      exact ⟨rest, rfl, rfl⟩
    | error e rest =>
      rw [ofDecoder_of_error hrun] at h
      cases h
  · rintro ⟨rest, hrun, rfl⟩
    exact ofDecoder_of_ok hrun

@[simp] theorem ofDecoder_eq_error_iff :
    ofDecoder d b = .error fault b' ↔
      ∃ rest, d b.unread = .error fault rest ∧ b' = b.leaving rest.length := by
  cases h : d b.unread with
  | ok a rest => simp [ofDecoder_of_ok h]
  | error e rest => simp [ofDecoder_of_error h, eq_comm]

@[simp] theorem inspect_eq_error_iff :
    inspect d b = .error fault b' ↔ (∃ rest, d b.unread = .error fault rest) ∧ b' = b := by
  unfold inspect
  cases d b.unread <;> simp [eq_comm]

end Action

/-! ### States left behind -/

@[simp] theorem finalState_ofDecoder (d : Decoder α) (b : Buffer) :
    finalState (Action.ofDecoder d) b =
      b.leaving (finalState d b.unread).length := by
  cases h : d b.unread with
  | ok a rest => rw [finalState_of_ok (Action.ofDecoder_of_ok h), finalState_of_ok h]
  | error e rest => rw [finalState_of_error (Action.ofDecoder_of_error h), finalState_of_error h]

@[simp] theorem finalState_ofEmission (e : Emission) (b : Buffer) :
    finalState (Action.ofEmission e) b = b.extend e.bytes := by
  cases h : e.fault? with
  | none => rw [finalState_of_ok (Action.ofEmission_of_none h)]
  | some fault => rw [finalState_of_error (Action.ofEmission_of_some h)]

/-! ### Checks -/

variable {l : Layout} {t : WireType}

theorem checkField_of_found (hl : b.layout? = some l) (h : ∃ i, l.find? b.cursor = some (i, t)) :
    checkField t b = .ok () b := by
  obtain ⟨i, hfind⟩ := h
  rw [checkField, bind_of_ok (get_eq b), hl]
  simp only [hfind]
  rw [if_neg (not_not_intro rfl), pure_eq]

theorem checkField_of_not_found (hl : b.layout? = some l)
    (h : ¬ ∃ i, l.find? b.cursor = some (i, t)) :
    ∃ m, checkField t b = .error (.typeMismatch m) b := by
  rw [checkField, bind_of_ok (get_eq b), hl]
  cases hfind : l.find? b.cursor with
  | none =>
    simp only [hfind]
    by_cases hend : b.size ≤ b.cursor
    · rw [if_pos hend]
      exact ⟨_, rfl⟩
    · rw [if_neg hend]
      exact ⟨_, rfl⟩
  | some found =>
    obtain ⟨i, t'⟩ := found
    have hne : t' ≠ t := by
      rintro rfl
      exact h ⟨i, hfind⟩
    simp only [hfind]
    rw [if_pos hne]
    exact ⟨_, rfl⟩

theorem checkField_of_none (hl : b.layout? = none) : checkField t b = .ok () b := by
  rw [checkField, bind_of_ok (get_eq b), hl]
  rfl

/-- A check passes or reports a mismatch, and leaves the buffer as it was. -/
theorem checkField_cases (t : WireType) (b : Buffer) :
    checkField t b = .ok () b ∨ ∃ m, checkField t b = .error (.typeMismatch m) b := by
  cases hl : b.layout? with
  | none => exact .inl (checkField_of_none hl)
  | some l =>
    by_cases h : ∃ i, l.find? b.cursor = some (i, t)
    · exact .inl (checkField_of_found hl h)
    · exact .inr (checkField_of_not_found hl h)

theorem checkRaw_of_layout (hl : b.layout? = some l) : ∃ e, checkRaw b = .error e b := by
  rw [checkRaw, bind_of_ok (get_eq b), hl]
  exact ⟨_, rfl⟩

theorem checkRaw_of_none (hl : b.layout? = none) : checkRaw b = .ok () b := by
  rw [checkRaw, bind_of_ok (get_eq b), hl]
  rfl

/-- The cursor is set, unless the buffer has a layout or the position is past the end. -/
theorem setCursor_cases (position : Nat) (b : Buffer) :
    (b.layout? ≠ none ∧ ∃ why, setCursor position b = .error (.typeMismatch why) b) ∨
      (b.size < position ∧
        setCursor position b = .error (.underflow (position - b.cursor) b.unreadSize) b) ∨
      (position ≤ b.size ∧ setCursor position b = .ok () (b.seek position)) := by
  cases hl : b.layout? with
  | some l =>
    refine .inl ⟨Option.some_ne_none l, .untypedRead, bind_of_error ?_⟩
    rw [checkRaw, bind_of_ok (get_eq b), hl]
    rfl
  | none =>
    rw [setCursor, bind_of_ok (checkRaw_of_none hl), bind_of_ok (get_eq b)]
    by_cases hlt : b.size < position
    · rw [dif_pos hlt]
      exact .inr (.inl ⟨hlt, rfl⟩)
    · have hle := Nat.le_of_not_lt hlt
      have hseek : { b with cursor := position, inBounds := hle } = b.seek position :=
        Buffer.ext rfl (Nat.min_eq_left hle).symm rfl rfl
      rw [dif_neg hlt, hseek]
      exact .inr (.inr ⟨hle, rfl⟩)

theorem read_of_checkField (h : checkField t b = .ok () b) :
    read t b = Action.ofDecoder (t.decode b.limits) b := by
  rw [read, bind_of_ok h, bind_of_ok (get_eq b)]

theorem skip_of_checkField (h : checkField t b = .ok () b) :
    skip t b = Action.ofDecoder (t.skip b.limits) b := by
  rw [skip, bind_of_ok h, bind_of_ok (get_eq b)]

theorem readText_of_checkField (max : Nat) (h : checkField .string b = .ok () b) :
    readText max b = Action.ofDecoder (Decode.text max) b := by
  rw [readText, bind_of_ok h]

@[simp] theorem hasUnread_iff : b.hasUnread = true ↔ b.cursor < b.size := by
  unfold hasUnread unreadSize
  rw [decide_eq_true_iff]
  omega

theorem checkAllRead_of_read (h : b.size ≤ b.cursor) : checkAllRead b = .ok () b := by
  have hread : ¬ b.hasUnread = true := fun hunread => Nat.not_lt_of_le h (hasUnread_iff.mp hunread)
  rw [checkAllRead, bind_of_ok (get_eq b), if_neg hread, pure_eq]

theorem hasUnread_iff_unread : b.hasUnread = true ↔ b.unread ≠ [] := by
  rw [hasUnread_iff, ← List.length_pos_iff, unread, List.length_drop, size]
  omega

theorem checkAllRead_of_unread (h : b.cursor < b.size) :
    ∃ m, checkAllRead b = .error (.typeMismatch m) b := by
  rw [checkAllRead, bind_of_ok (get_eq b), if_pos (hasUnread_iff.mpr h)]
  cases b.layout?.bind (·.find? b.cursor) with
  | none => exact ⟨_, rfl⟩
  | some found => exact ⟨_, rfl⟩

theorem checkAllRead_cases (b : Buffer) :
    (b.hasUnread = false ∧ checkAllRead b = .ok () b) ∨
      ∃ m, checkAllRead b = .error (.typeMismatch m) b := by
  cases h : b.hasUnread with
  | true => exact .inr (checkAllRead_of_unread (hasUnread_iff.mp h))
  | false =>
    refine .inl ⟨rfl, checkAllRead_of_read (Nat.le_of_not_lt fun hlt => ?_)⟩
    rw [hasUnread_iff.mpr hlt] at h
    cases h

end Wireform.Buffer
