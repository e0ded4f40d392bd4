import Wireform.Proofs.Text.Utf8
import Mathlib.Algebra.Group.Nat.Defs
import Mathlib.Data.List.Induction

/-!
# Any bytes read as UTF-8

The forms of characters give the characters.  Everything else is cut into the longest runs that
begin a form without completing it and single bytes that begin none, and each of these gives one
replacement character (`readsAs_iff`).  Such a run has at most three bytes, so no reading
takes more than three bytes for a UTF-16 unit (`length_le_length_lossy`).
-/

namespace Wireform.Utf8

open String (utf8EncodeChar)

/-! ### Forms of characters -/

/-- The last `owed` bytes of the form of the character with number `v`. -/
def tails : (owed : Nat) → (v : Nat) → List UInt8
  | 0, _ => []
  | owed + 1, v => UInt8.ofNat (v / 64 ^ owed % 64 + 0x80) :: tails owed v

/-- The form of a character, by the range of its number. -/
theorem form_ofNat {v : Nat} (hv : v.isValidChar) :
    utf8EncodeChar (Char.ofNat v) =
      if v ≤ 0x7F then [UInt8.ofNat v]
      else if v ≤ 0x7FF then UInt8.ofNat (v / 64 + 0xC0) :: tails 1 v
      else if v ≤ 0xFFFF then UInt8.ofNat (v / 4096 + 0xE0) :: tails 2 v
      else UInt8.ofNat (v / 262144 + 0xF0) :: tails 3 v := by
  have hnum := Utf16.toNat_ofNat hv
  rw [← Char.toNat_val] at hnum
  unfold Nat.isValidChar at hv
  simp only [utf8EncodeChar, hnum, tails, Nat.pow_zero, Nat.pow_one, Nat.div_one]
  split_ifs with h₁ h₂ h₃
  · rfl
  · have hlead : v / 64 % 0x20 = v / 64 := by omega
    rw [hlead]
  · have hlead : v / 4096 % 0x10 = v / 4096 := by omega
    rw [hlead]
  · have hlead : v / 262144 % 0x08 = v / 262144 := by omega
    rw [hlead]
    rfl

/-! ### A character under way -/

/-- The numbers that can still come of a character under way. -/
structure Partial.Admits (p : Partial) (v : Nat) : Prop where
  low : p.bits * 64 + (p.low.toNat - 0x80) ≤ v / 64 ^ (p.owed - 1)
  high : v / 64 ^ (p.owed - 1) ≤ p.bits * 64 + (p.high.toNat - 0x80)

/-- The bytes seen of a character under way begin the form of each character that can come of it. -/
structure Pending (seen : List UInt8) (p : Partial) : Prop where
  owes : 1 ≤ p.owed
  low : 0x80 ≤ p.low.toNat
  bounds : p.low.toNat ≤ p.high.toNat
  high : p.high.toNat ≤ 0xBF
  form : ∀ v, p.Admits v →
    v.isValidChar ∧ utf8EncodeChar (Char.ofNat v) = seen ++ tails p.owed v

variable {b low high : UInt8} {n : Nat}

theorem pending_two (h : 0xC2 ≤ b.toNat) (h' : b.toNat < 0xE0) :
    Pending [b] ⟨b.toNat - 0xC0, 1, 0x80, 0xBF⟩ := by
  refine ⟨by simp, by simp, by simp, by simp, fun v ⟨hlow, hhigh⟩ => ?_⟩
  simp only [UInt8.reduceToNat, Nat.sub_self, Nat.pow_zero, Nat.div_one] at hlow hhigh
  have hvalid : v.isValidChar := .inl (by omega)
  have hlead : v / 64 + 0xC0 = b.toNat := by omega
  rw [form_ofNat hvalid, if_neg (by omega), if_pos (by omega), hlead, UInt8.ofNat_toNat]
  exact ⟨hvalid, rfl⟩

/-- The bounds of the second byte leave out what has a shorter form and the surrogates. -/
theorem pending_three (hb : b.toNat = n + 0xE0) (hn : n < 0x10) (hlow : 0x80 ≤ low.toNat)
    (hbounds : low.toNat ≤ high.toNat) (hhigh : high.toNat ≤ 0xBF)
    (hshort : n = 0 → 0xA0 ≤ low.toNat) (hsurrogate : n = 0xD → high.toNat ≤ 0x9F) :
    Pending [b] ⟨n, 2, low, high⟩ := by
  refine ⟨by simp, hlow, hbounds, hhigh, fun v ⟨hl, hh⟩ => ?_⟩
  simp only [Nat.add_one_sub_one, Nat.pow_one] at hl hh
  have hvalid : v.isValidChar := by
    unfold Nat.isValidChar
    omega
  have hlead : v / 4096 + 0xE0 = b.toNat := by omega
  rw [form_ofNat hvalid, if_neg (by omega), if_neg (by omega), if_pos (by omega), hlead,
    UInt8.ofNat_toNat]
  exact ⟨hvalid, rfl⟩

/-- The bounds of the second byte leave out what has a shorter form and what is no character. -/
theorem pending_four (hb : b.toNat = n + 0xF0) (hn : n < 5) (hlow : 0x80 ≤ low.toNat)
    (hbounds : low.toNat ≤ high.toNat) (hhigh : high.toNat ≤ 0xBF)
    (hshort : n = 0 → 0x90 ≤ low.toNat) (hlast : n = 4 → high.toNat ≤ 0x8F) :
    Pending [b] ⟨n, 3, low, high⟩ := by
  refine ⟨by simp, hlow, hbounds, hhigh, fun v ⟨hl, hh⟩ => ?_⟩
  simp only [Nat.add_one_sub_one, Nat.reducePow] at hl hh
  have hvalid : v.isValidChar := .inr ⟨by omega, by omega⟩
  have hlead : v / 262144 + 0xF0 = b.toNat := by omega
  rw [form_ofNat hvalid, if_neg (by omega), if_neg (by omega), if_neg (by omega), hlead,
    UInt8.ofNat_toNat]
  exact ⟨hvalid, rfl⟩

theorem form_of_lead {c : Char} (h : lead b = .char c) : utf8EncodeChar c = [b] := by
  unfold lead at h
  split_ifs at h with hb
  obtain rfl := Lead.char.inj h
  simp only [UInt8.lt_iff_toNat_lt, UInt8.reduceToNat] at hb
  rw [form_ofNat (.inl (by omega)), if_pos (by omega), UInt8.ofNat_toNat]

theorem pending_lead {p : Partial} (h : lead b = .more p) : Pending [b] p := by
  unfold lead at h
  simp only [UInt8.lt_iff_toNat_lt, ← UInt8.toNat_inj, UInt8.reduceToNat] at h
  split_ifs at h with h₁ h₂ h₃ h₄ h₅ h₆ h₇ h₈ h₉ <;> obtain rfl := Lead.more.inj h
  · exact pending_two (by omega) (by omega)
  · exact pending_three (by omega) (by omega) (by simp) (by simp) (by simp) (by simp) (by simp)
  · exact pending_three (by omega) (by omega) (by simp) (by simp) (by simp) (by simp) (by simp)
  · exact pending_three (by omega) (by omega) (by simp) (by simp) (by simp) (by omega) (by omega)
  · exact pending_four (by omega) (by omega) (by simp) (by simp) (by simp) (by simp) (by simp)
  · exact pending_four (by omega) (by omega) (by simp) (by simp) (by simp) (by omega) (by omega)
  · exact pending_four (by omega) (by omega) (by simp) (by simp) (by simp) (by simp) (by simp)

theorem tails_cons {owed m v : Nat} (h : 0x80 ≤ b.toNat) (h' : b.toNat ≤ 0xBF)
    (hv : v / 64 ^ owed = m * 64 + (b.toNat - 0x80)) : tails (owed + 1) v = b :: tails owed v := by
  have hbyte : (m * 64 + (b.toNat - 0x80)) % 64 + 0x80 = b.toNat := by omega
  rw [tails, hv, hbyte, UInt8.ofNat_toNat]

variable {seen : List UInt8} {p : Partial}

/-- A byte within the bounds, when more are owed behind it. -/
theorem Pending.more (h : Pending seen p) (hlow : p.low ≤ b) (hhigh : b ≤ p.high)
    (howed : 1 < p.owed) :
    Pending (seen ++ [b]) ⟨p.bits * 64 + (b.toNat - 0x80), p.owed - 1, 0x80, 0xBF⟩ := by
  obtain ⟨bits, owed, low, high⟩ := p
  obtain ⟨owed, rfl⟩ : ∃ k, owed = k + 2 := ⟨owed - 2, by simp only at howed; omega⟩
  obtain ⟨-, hl, -, hh, hform⟩ := h
  simp only [UInt8.le_iff_toNat_le, Nat.add_one_sub_one] at hl hh hform hlow hhigh ⊢
  refine ⟨by simp, by simp, by simp, by simp, fun v ⟨hleast, hmost⟩ => ?_⟩
  simp only [UInt8.reduceToNat, Nat.sub_self, Nat.add_zero, Nat.add_one_sub_one] at hleast hmost
  have hbits : v / 64 ^ (owed + 1) = bits * 64 + (b.toNat - 0x80) := by
    rw [Nat.pow_succ, ← Nat.div_div_eq_div_mul]
    omega
  obtain ⟨hvalid, hv⟩ := hform v ⟨by simp only [Nat.add_one_sub_one]; omega,
    by simp only [Nat.add_one_sub_one]; omega⟩
  rw [tails_cons (by omega) (by omega) hbits] at hv
  rw [List.append_assoc]
  exact ⟨hvalid, hv⟩

/-- The last byte owed. -/
theorem Pending.last (h : Pending seen p) (hlow : p.low ≤ b) (hhigh : b ≤ p.high)
    (howed : p.owed ≤ 1) :
    utf8EncodeChar (Char.ofNat (p.bits * 64 + (b.toNat - 0x80))) = seen ++ [b] := by
  rw [UInt8.le_iff_toNat_le] at hlow hhigh
  have howed : p.owed = 1 := Nat.le_antisymm howed h.owes
  have hl := h.low
  have hh := h.high
  obtain ⟨-, hv⟩ := h.form (p.bits * 64 + (b.toNat - 0x80))
    ⟨by simp [howed]; omega, by simp [howed]; omega⟩
  have hbits : (p.bits * 64 + (b.toNat - 0x80)) / 64 ^ 0 = p.bits * 64 + (b.toNat - 0x80) :=
    Nat.div_one _
  rw [howed, tails_cons (by omega) (by omega) hbits] at hv
  exact hv

/-- Whether the bytes begin the form of some character. -/
def Begins (bytes : List UInt8) : Prop := ∃ c, bytes <+: utf8EncodeChar c

/-- Some character can come of what is under way. -/
theorem Pending.begins (h : Pending seen p) : Begins seen := by
  have hpos : 0 < 64 ^ (p.owed - 1) := Nat.pow_pos (by omega)
  have hbounds := h.bounds
  obtain ⟨-, hv⟩ := h.form ((p.bits * 64 + (p.low.toNat - 0x80)) * 64 ^ (p.owed - 1))
    ⟨Nat.le_of_eq (Nat.mul_div_cancel _ hpos).symm, by rw [Nat.mul_div_cancel _ hpos]; omega⟩
  exact ⟨_, _, hv.symm⟩

theorem Pending.begins_append (h : Pending seen p) (hlow : p.low ≤ b) (hhigh : b ≤ p.high) :
    Begins (seen ++ [b]) := by
  by_cases howed : p.owed ≤ 1
  · exact ⟨_, [], by rw [h.last hlow hhigh howed, List.append_nil]⟩
  · exact (h.more hlow hhigh (by omega)).begins

/-! ### What a scan has begun -/

/-- The scan of bytes from between characters. -/
def scan (bytes : List UInt8) : Scan := bytes.foldl Scan.step ⟨[], none⟩

theorem scan_append (front rest : List UInt8) :
    scan (front ++ rest) = rest.foldl Scan.step (scan front) := List.foldl_append

@[simp]
theorem scan_form (c : Char) : scan (utf8EncodeChar c) = ⟨[c], none⟩ := foldl_encodeChar c []

/-- The characters scanned, the one under way included. -/
def Scan.begun (s : Scan) : Nat := s.chars.length + s.pending.toList.length

@[simp] theorem begun_none (cs : List Char) : Scan.begun ⟨cs, none⟩ = cs.length := rfl

@[simp] theorem begun_some (cs : List Char) (p : Partial) :
    Scan.begun ⟨cs, some p⟩ = cs.length + 1 := rfl

@[simp]
theorem begun_start (cs : List Char) (b : UInt8) : (Scan.start cs b).begun = cs.length + 1 := by
  unfold Scan.start
  cases lead b <;> rfl

theorem begun_out_of_bounds {s : Scan} (h : s.pending = some p) (hb : ¬ (p.low ≤ b ∧ b ≤ p.high)) :
    (s.step b).begun = s.chars.length + 2 := by
  simp only [Scan.step, h]
  simp [if_neg hb]

theorem begun_le_step (s : Scan) (b : UInt8) : s.begun ≤ (s.step b).begun := by
  obtain ⟨cs, pending⟩ := s
  cases pending with
  | none =>
    rw [Scan.step, begun_start]
    exact Nat.le_succ _
  | some p =>
    by_cases hb : p.low ≤ b ∧ b ≤ p.high
    · simp only [Scan.step, if_pos hb]
      split_ifs <;> simp
    · simp [begun_out_of_bounds (s := ⟨cs, some p⟩) rfl hb]

theorem begun_le_foldl (s : Scan) (bytes : List UInt8) :
    s.begun ≤ (bytes.foldl Scan.step s).begun := by
  induction bytes generalizing s with
  | nil => exact Nat.le_refl _
  | cons b bytes ih => exact Nat.le_trans (begun_le_step s b) (ih _)

theorem Begins.begun_le (h : Begins seen) : (scan seen).begun ≤ 1 := by
  obtain ⟨c, more, hform⟩ := h
  have hle := begun_le_foldl (scan seen) more
  rw [← scan_append, hform, scan_form] at hle
  exact hle

theorem begun_pos (h : seen ≠ []) : 1 ≤ (scan seen).begun := by
  obtain ⟨b, rest, rfl⟩ := List.exists_cons_of_ne_nil h
  have hle := begun_le_foldl (Scan.step ⟨[], none⟩ b) rest
  rw [← List.foldl_cons, Scan.step, begun_start] at hle
  exact hle

/-- What begins a form and leaves nothing under way is the form. -/
theorem Begins.eq_form (h : Begins seen) (hne : seen ≠ []) (hscan : (scan seen).pending = none) :
    ∃ c, seen = utf8EncodeChar c := by
  obtain ⟨c, more, hform⟩ := h
  cases more with
  | nil => exact ⟨c, by rw [← hform, List.append_nil]⟩
  | cons b more =>
    -- the next byte begins a second character
    have hpos := begun_pos hne
    have hle := begun_le_foldl ((scan seen).step b) more
    rw [← List.foldl_cons, ← scan_append, hform, scan_form, Scan.step, hscan] at hle
    simp only [begun_start, begun_none, List.length_singleton] at hle
    simp only [Scan.begun, hscan, Option.toList_none, List.length_nil] at hpos
    omega

theorem not_begins_of_invalid (h : lead b = .invalid) : ¬ Begins [b] := by
  intro hbegins
  have hscan : scan [b] = ⟨[Utf16.replacement], none⟩ := by
    simp only [scan, List.foldl_cons, List.foldl_nil, Scan.step, Scan.start, h]
  obtain ⟨c, hform⟩ := hbegins.eq_form (List.cons_ne_nil b []) (congrArg Scan.pending hscan)
  rw [hform, scan_form] at hscan
  obtain rfl : c = Utf16.replacement := by simpa using hscan
  have hlen : (utf8EncodeChar Utf16.replacement).length = 3 := by decide
  rw [← hform] at hlen
  exact absurd hlen (by simp)

/-- What a scan has under way is what it has seen of one character. -/
theorem pending_of_scan (h : scan seen = ⟨[], some p⟩) : Pending seen p := by
  induction seen using List.reverseRecOn generalizing p with
  | nil => cases h
  | append_singleton seen b ih =>
    rw [scan_append, List.foldl_cons, List.foldl_nil] at h
    have hbegun := congrArg Scan.begun h
    rw [begun_some, List.length_nil] at hbegun
    rcases hs : scan seen with ⟨cs, _ | q⟩ <;> rw [hs] at h hbegun
    · rw [Scan.step, begun_start, Nat.add_right_cancel_iff, List.length_eq_zero_iff] at hbegun
      subst hbegun
      obtain rfl : seen = [] := by
        by_contra hne
        have hpos := begun_pos hne
        simp [hs] at hpos
      cases hlead : lead b <;> simp [Scan.step, Scan.start, hlead] at h
      exact h ▸ pending_lead hlead
    · by_cases hb : q.low ≤ b ∧ b ≤ q.high
      · simp only [Scan.step, if_pos hb] at h
        split_ifs at h with howed
        · simp at h
        · obtain ⟨rfl, rfl⟩ : cs = [] ∧ _ = p := by simpa using h
          exact (ih hs).more hb.1 hb.2 (by omega)
      · rw [begun_out_of_bounds rfl hb] at hbegun
        exact absurd hbegun (by omega)

/-! ### The characters of any bytes -/

/-- A longest run of bytes that begins a form without completing it, in front of `rest`, or a byte
that begins none. -/
inductive Subpart : List UInt8 → List UInt8 → Prop where
  | stray {b : UInt8} {rest : List UInt8} (h : ¬ Begins [b]) : Subpart [b] rest
  | cut {front rest : List UInt8} (nonempty : front ≠ []) (begins : Begins front)
      (short : ∀ c, front ≠ utf8EncodeChar c)
      (longest : ∀ b ∈ rest.head?, ¬ Begins (front ++ [b])) : Subpart front rest

/-- What bytes are read as: forms of characters as those, everything else cut up. -/
inductive ReadsAs : List UInt8 → List Char → Prop where
  | nil : ReadsAs [] []
  | char (c : Char) {rest : List UInt8} {cs : List Char} (h : ReadsAs rest cs) :
      ReadsAs (utf8EncodeChar c ++ rest) (c :: cs)
  | subpart {front rest : List UInt8} {cs : List Char} (hfront : Subpart front rest)
      (h : ReadsAs rest cs) : ReadsAs (front ++ rest) (Utf16.replacement :: cs)

/-- The characters that come of bytes behind what is pending. -/
def resume (pending : Option Partial) (bytes : List UInt8) : List Char :=
  (bytes.foldl Scan.step ⟨[], pending⟩).finish

theorem step_push (b : UInt8) (ds cs : List Char) (q : Option Partial) :
    Scan.step ⟨ds ++ cs, q⟩ b =
      ⟨(Scan.step ⟨ds, q⟩ b).chars ++ cs, (Scan.step ⟨ds, q⟩ b).pending⟩ := by
  cases q with
  | none => cases hlead : lead b <;> simp [Scan.step, Scan.start, hlead]
  | some p =>
    simp only [Scan.step]
    split_ifs
    · rfl
    · rfl
    · cases hlead : lead b <;> simp [Scan.start, hlead]

/-- What was scanned before stands in front of what comes of the bytes. -/
theorem finish_foldl (bytes : List UInt8) (ds cs : List Char) (q : Option Partial) :
    (bytes.foldl Scan.step ⟨ds ++ cs, q⟩).finish =
      cs.reverse ++ (bytes.foldl Scan.step ⟨ds, q⟩).finish := by
  induction bytes generalizing ds q with
  | nil => cases q <;> simp [Scan.finish]
  | cons b bytes ih => rw [List.foldl_cons, step_push, ih, List.foldl_cons]

theorem lossyChars_append (front rest : List UInt8) :
    lossyChars (front ++ rest) =
      (scan front).chars.reverse ++ resume (scan front).pending rest := by
  have h := finish_foldl rest [] (scan front).chars (scan front).pending
  rw [lossyChars, List.foldl_append]
  exact h

/-- What is under way where no further byte fits gives a replacement character. -/
theorem resume_of_out_of_bounds {rest : List UInt8}
    (h : ∀ b ∈ rest.head?, ¬ (p.low ≤ b ∧ b ≤ p.high)) :
    resume (some p) rest = Utf16.replacement :: lossyChars rest := by
  cases rest with
  | nil => rfl
  | cons b rest =>
    have hstep : Scan.step ⟨[], some p⟩ b = Scan.step ⟨[Utf16.replacement], none⟩ b := by
      simp only [Scan.step, if_neg (h b rfl)]
    have hpush := finish_foldl (b :: rest) [] [Utf16.replacement] none
    rw [resume, List.foldl_cons, hstep, ← List.foldl_cons]
    exact hpush

@[simp] theorem lossyChars_form_append (c : Char) (rest : List UInt8) :
    lossyChars (utf8EncodeChar c ++ rest) = c :: lossyChars rest := by
  rw [lossyChars_append, scan_form]
  rfl

theorem lossyChars_subpart_append {front rest : List UInt8} (h : Subpart front rest) :
    lossyChars (front ++ rest) = Utf16.replacement :: lossyChars rest := by
  cases h with
  | @stray b _ h =>
    rw [lossyChars_append, scan, List.foldl_cons, List.foldl_nil, Scan.step, Scan.start]
    cases hlead : lead b with
    | char c => exact absurd ⟨c, [], by rw [form_of_lead hlead, List.append_nil]⟩ h
    | more p => exact absurd (pending_lead hlead).begins h
    | invalid => rfl
  | cut nonempty begins short longest =>
    have hle := begins.begun_le
    cases hpending : (scan front).pending with
    | none =>
      obtain ⟨c, hform⟩ := begins.eq_form nonempty hpending
      exact absurd hform (short c)
    | some p =>
      have hchars : (scan front).chars = [] := by
        simpa [Scan.begun, hpending] using hle
      have hscan : scan front = ⟨[], some p⟩ := by
        rw [← hchars, ← hpending]
      rw [lossyChars_append, hscan]
      exact resume_of_out_of_bounds fun b hb hin =>
        longest b hb ((pending_of_scan hscan).begins_append hin.1 hin.2)

/-- The bytes determine what they are read as. -/
theorem ReadsAs.lossyChars_eq {bytes : List UInt8} {cs : List Char} (h : ReadsAs bytes cs) :
    lossyChars bytes = cs := by
  induction h with
  | nil => rfl
  | char c h ih => rw [lossyChars_form_append, ih]
  | subpart hfront h ih => rw [lossyChars_subpart_append hfront, ih]

theorem Subpart.of_scan {front rest : List UInt8} (h : scan front = ⟨[], some p⟩)
    (hout : ∀ b ∈ rest.head?, ¬ (p.low ≤ b ∧ b ≤ p.high)) : Subpart front rest := by
  refine .cut ?_ (pending_of_scan h).begins ?_ fun b hb hbegins => ?_
  · rintro rfl
    cases h
  · rintro c rfl
    rw [scan_form] at h
    cases h
  · have hle := hbegins.begun_le
    rw [scan_append, h, List.foldl_cons, List.foldl_nil, begun_out_of_bounds rfl (hout b hb)] at hle
    exact absurd hle (by simp)

/-- Any bytes can be cut up, with or without bytes of one character in front. -/
theorem exists_readsAs (bytes : List UInt8) :
    (∃ cs, ReadsAs bytes cs) ∧
      ∀ seen p, scan seen = ⟨[], some p⟩ → ∃ cs, ReadsAs (seen ++ bytes) cs := by
  induction bytes with
  | nil => exact ⟨⟨_, .nil⟩, fun seen p h => ⟨_, .subpart (.of_scan h (by simp)) .nil⟩⟩
  | cons b rest ih =>
    obtain ⟨⟨cs, hcs⟩, hseen⟩ := ih
    have hfresh : ∃ cs, ReadsAs (b :: rest) cs := by
      cases hlead : lead b with
      | char c =>
        rw [← List.singleton_append, ← form_of_lead hlead]
        exact ⟨_, .char c hcs⟩
      | more p => exact hseen [b] p (step_lead hlead [])
      | invalid => exact ⟨_, .subpart (.stray (not_begins_of_invalid hlead)) hcs⟩
    refine ⟨hfresh, fun seen p h => ?_⟩
    by_cases hb : p.low ≤ b ∧ b ≤ p.high
    · rw [List.append_cons]
      by_cases howed : p.owed ≤ 1
      · rw [← (pending_of_scan h).last hb.1 hb.2 howed]
        exact ⟨_, .char _ hcs⟩
      · refine hseen (seen ++ [b]) ⟨p.bits * 64 + (b.toNat - 0x80), p.owed - 1, 0x80, 0xBF⟩ ?_
        rw [scan_append, h, List.foldl_cons, List.foldl_nil, Scan.step]
        simp only [if_pos hb, if_neg howed]
    · obtain ⟨cs', hcs'⟩ := hfresh
      exact ⟨_, .subpart (.of_scan h (by simpa using hb)) hcs'⟩

/-- **Any bytes** are read as the forms of characters and the other pieces they are made of. -/
theorem readsAs_iff {bytes : List UInt8} {cs : List Char} :
    ReadsAs bytes cs ↔ lossyChars bytes = cs := by
  refine ⟨ReadsAs.lossyChars_eq, ?_⟩
  rintro rfl
  obtain ⟨cs, hcs⟩ := (exists_readsAs bytes).1
  rwa [hcs.lossyChars_eq]

@[simp] theorem readsAs_toList_iff {bytes : List UInt8} {s : String} :
    ReadsAs bytes s.toList ↔ lossy bytes = s := by
  rw [readsAs_iff, lossy]
  constructor <;> intro h
  · rw [h, String.ofList_toList]
  · rw [← h, String.toList_ofList]

/-! ### Bytes and units -/

theorem Subpart.length_le {front rest : List UInt8} (h : Subpart front rest) :
    front.length ≤ 3 := by
  cases h with
  | stray h => simp
  | cut nonempty begins short longest =>
    obtain ⟨c, hc⟩ := begins
    have hfour := Char.utf8Size_le_four c
    have hlt : front.length < (utf8EncodeChar c).length :=
      Nat.lt_of_le_of_ne hc.length_le fun h => short c (hc.eq_of_length h)
    rw [String.length_utf8EncodeChar] at hlt
    omega

theorem ReadsAs.length_le {bytes : List UInt8} {cs : List Char} (h : ReadsAs bytes cs) :
    bytes.length ≤ 3 * (cs.flatMap Utf16.charUnits).length := by
  induction h with
  | nil => simp
  | char c h ih =>
    have hc := length_encodeChar_le c
    rw [List.length_append, List.flatMap_cons, List.length_append, Utf16.length_charUnits]
    omega
  | subpart hfront h ih =>
    have hthree := hfront.length_le
    rw [List.length_append, List.flatMap_cons, List.length_append, Utf16.charUnits_replacement,
      List.length_singleton]
    omega

/-- **A reading of any bytes takes at most three of them for a unit.** -/
theorem length_le_length_lossy (bytes : List UInt8) :
    bytes.length ≤ 3 * Utf16.length (lossy bytes) := by
  rw [Utf16.length_eq, Utf16.units, lossy, String.toList_ofList]
  exact (readsAs_iff.mpr rfl).length_le

theorem length_encode_le (s : String) : (encode s).length ≤ 3 * Utf16.length s := by
  have h := length_le_length_lossy (encode s)
  rwa [lossy_encode] at h

end Wireform.Utf8
