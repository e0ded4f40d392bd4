import Wireform.Nbt.Decode
import Wireform.Proofs.Number
import Wireform.Proofs.Nbt.Encoding
import Wireform.Proofs.Nbt.Measure

/-!
# A logic for the reader of trees

`Reads quota m p bytes cost a` says what `m` does on `bytes`, whatever follows them and whatever has
been charged before: it reads `a` and runs up `cost` if `p` holds and the quota allows that, and
else stops with a fault, no later than at the end of `bytes`.  The conditions and the costs of
machines in sequence add up, so a whole tree is read exactly if its whole cost is allowed.
-/

namespace Wireform.Nbt

/-! ### Charges -/

theorem satAdd_le (a b : Nat) : satAdd a b ≤ sizeMax := Nat.min_le_right _ _

theorem satAdd_zero {a : Nat} (h : a ≤ sizeMax) : satAdd a 0 = a := Nat.min_eq_left h

@[simp] theorem satAdd_satAdd (a b c : Nat) : satAdd (satAdd a b) c = satAdd a (b + c) := by
  unfold satAdd
  omega

theorem le_satAdd {a : Nat} (h : a ≤ sizeMax) (b : Nat) : a ≤ satAdd a b := by
  unfold satAdd
  omega

theorem Cost.text_eq {n : Nat} (h : n ≤ ModifiedUtf8.maxBytes) : Cost.text n = 36 + 2 * n := by
  unfold ModifiedUtf8.maxBytes at h
  unfold Cost.text satAdd satMul sizeMax
  omega

theorem Cost.list_eq {n : Nat} (h : Countable n) : Cost.list n = 37 + 4 * n := by
  unfold Countable Writer.maxCount at h
  unfold Cost.list satAdd satMul sizeMax
  omega

theorem Cost.array_eq {n width : Nat} (h : Countable n) (hwidth : width ≤ 8) :
    Cost.array n width = 24 + width * n := by
  unfold Countable Writer.maxCount at h
  have hmul : width * n ≤ 8 * 0x7FFFFFFF := Nat.mul_le_mul hwidth h
  unfold Cost.array satAdd satMul sizeMax
  rw [Nat.mul_comm n]
  omega

theorem Reader.charge_eq (quota cost : Nat) (s : Progress) :
    Reader.charge quota cost s =
      if quota < satAdd s.used cost then .error (.overQuota (satAdd s.used cost) quota)
        ⟨satAdd s.used cost, s.rest⟩
      else .ok () ⟨satAdd s.used cost, s.rest⟩ := by
  unfold Reader.charge
  rw [bind_of_ok (get_eq s)]
  split_ifs <;> rfl

/-- `tail` is what is left when no more than `bytes` has been read of `bytes ++ rest`. -/
def Within (tail bytes rest : Bytes) : Prop := ∃ back, back <:+ bytes ∧ tail = back ++ rest

theorem Within.start (bytes rest : Bytes) : Within (bytes ++ rest) bytes rest :=
  ⟨bytes, List.suffix_refl _, rfl⟩

theorem Within.append_right {tail bytes more rest : Bytes} (h : Within tail bytes (more ++ rest)) :
    Within tail (bytes ++ more) rest := by
  obtain ⟨back, ⟨front, rfl⟩, rfl⟩ := h
  exact ⟨back ++ more, ⟨front, by simp⟩, by simp⟩

theorem Within.append_left {tail bytes more rest : Bytes} (h : Within tail more rest) :
    Within tail (bytes ++ more) rest := by
  obtain ⟨back, hback, rfl⟩ := h
  exact ⟨back, hback.trans (List.suffix_append _ _), rfl⟩

/-- On `bytes` the reader `m` yields `a` for `cost` if `p` holds and the quota allows, and else
stops with a fault within `bytes`. -/
def Reads (quota : Nat) (m : Reader α) (p : Prop) (bytes : Bytes) (cost : Nat) (a : α) : Prop :=
  ∀ used rest, used ≤ quota → used ≤ sizeMax →
    (p ∧ satAdd used cost ≤ quota → m ⟨used, bytes ++ rest⟩ = .ok a ⟨satAdd used cost, rest⟩) ∧
      (¬ (p ∧ satAdd used cost ≤ quota) →
        ∃ e s, m ⟨used, bytes ++ rest⟩ = .error e s ∧ Within s.rest bytes rest)

namespace Reads

variable {quota cost cost' : Nat} {m : Reader α} {f : α → Reader β} {p q : Prop}
  {bytes more : Bytes} {a : α} {b : β}

/-- A reader that cannot fail on these bytes. -/
theorem of_ok (h : ∀ used rest, m ⟨used, bytes ++ rest⟩ = .ok a ⟨used, rest⟩) :
    Reads quota m True bytes 0 a := by
  intro used rest hq hs
  rw [satAdd_zero hs]
  exact ⟨fun _ => h used rest, fun hp => absurd ⟨trivial, hq⟩ hp⟩

/-- A reader that fails at once. -/
theorem of_error {e : ReadFault} (h : ∀ s, m s = .error e s) (hp : ¬ p) :
    Reads quota m p bytes cost a := by
  intro used rest _ _
  exact ⟨fun hpq => absurd hpq.1 hp, fun _ => ⟨e, _, h _, .start _ _⟩⟩

theorem bind (hm : Reads quota m p bytes cost a) (hf : Reads quota (f a) q more cost' b) :
    Reads quota (m >>= f) (p ∧ q) (bytes ++ more) (cost + cost') b := by
  intro used rest hq hs
  obtain ⟨hok, herr⟩ := hm used (more ++ rest) hq hs
  rw [List.append_assoc, ← satAdd_satAdd]
  by_cases hfirst : p ∧ satAdd used cost ≤ quota
  · obtain ⟨hok', herr'⟩ := hf (satAdd used cost) rest hfirst.2 (satAdd_le _ _)
    rw [bind_of_ok (hok hfirst)]
    refine ⟨fun h => hok' ⟨h.1.2, h.2⟩, fun h => ?_⟩
    obtain ⟨e, s, hrun, hwithin⟩ := herr' fun h' => h ⟨⟨hfirst.1, h'.1⟩, h'.2⟩
    exact ⟨e, s, hrun, hwithin.append_left⟩
  · obtain ⟨e, s, hrun, hwithin⟩ := herr hfirst
    rw [bind_of_error hrun]
    -- what the first machine was refused the whole is refused too: charges only grow
    refine ⟨fun h => absurd ⟨h.1.1, ?_⟩ hfirst, fun _ => ⟨e, s, rfl, hwithin.append_right⟩⟩
    exact Nat.le_trans (le_satAdd (satAdd_le _ _) _) h.2

theorem congr (hm : Reads quota m p bytes cost a) (hp : p ↔ q) (hb : bytes = more)
    (hc : cost = cost') : Reads quota m q more cost' a := by
  subst hb hc
  rwa [propext hp] at hm

theorem pure (a : α) : Reads quota (pure a) True [] 0 a := of_ok fun _ _ => rfl

theorem map (hm : Reads quota m p bytes cost a) (g : α → β) :
    Reads quota (do return g (← m)) p bytes cost (g a) :=
  (hm.bind (.pure (g a))).congr (.of_eq (and_true _)) (List.append_nil _) (Nat.add_zero _)

/-! ### Primitive readers -/

theorem charge (cost : Nat) : Reads quota (.charge quota cost) True [] cost () := by
  intro used rest _ _
  rw [List.nil_append, Reader.charge_eq]
  refine ⟨fun h => if_neg (Nat.not_lt_of_le h.2), fun h => ?_⟩
  have hover : quota < satAdd used cost := Nat.lt_of_not_le fun hle => h ⟨trivial, hle⟩
  exact ⟨_, _, if_pos hover, .start [] rest⟩

theorem take (bytes : Bytes) : Reads quota (.take bytes.length) True bytes 0 bytes := by
  refine of_ok fun used rest => ?_
  simp [Reader.take]

theorem number {width n : Nat} (h : n < 256 ^ width) :
    Reads quota (.number width) True (Bytes.ofNat width n) 0 n := by
  have ht : Reads quota (do return (← Reader.take (Bytes.ofNat width n).length).value) True _ 0 _ :=
    (take (Bytes.ofNat width n)).map Bytes.value
  rwa [Bytes.length_ofNat, Bytes.value_ofNat_of_lt h] at ht

theorem typeId (id : UInt8) : Reads quota .typeId True [id] 0 id := by
  have hbytes : Bytes.ofNat 1 id.toNat = [id] := by simp [Bytes.ofNat]
  have h : Reads quota Reader.typeId True (Bytes.ofNat 1 id.toNat) 0 (UInt8.ofNat id.toNat) :=
    (number id.toNat_lt).map UInt8.ofNat
  rwa [hbytes, UInt8.ofNat_toNat] at h

theorem count {n : Nat} (h : Countable n) : Reads quota .count True (Bytes.ofNat 4 n) 0 n := by
  unfold Countable Writer.maxCount at h
  have hint := toInt_ofNat_count h
  have hneg : ¬ Int32.ofNat n < 0 := by
    rw [lt_zero_iff, hint]
    omega
  have hnumber : Reads quota (.number 4) True (Bytes.ofNat 4 n) 0 n := number (by omega)
  refine (hnumber.bind (?_ : Reads quota _ True [] 0 n)).congr (.of_eq (and_true _))
    (List.append_nil _) rfl
  simp only [if_neg hneg, hint, Int.toNat_natCast]
  exact pure n

/-- A text behind its length, however its units are written. -/
theorem textOf {content : Bytes} {s : String} (hfits : content.length ≤ ModifiedUtf8.maxBytes)
    (h : ModifiedUtf8.decode content = .ok s) :
    Reads quota (.text quota) True (Bytes.ofNat 2 content.length ++ content)
      (36 + 2 * content.length) s := by
  have hnumber : Reads quota (.number 2) True (Bytes.ofNat 2 content.length) 0 _ :=
    number (Nat.lt_succ_of_le hfits)
  have hread : Reads quota (.text quota) (True ∧ True ∧ True ∧ True)
      (Bytes.ofNat 2 content.length ++ ([] ++ (content ++ [])))
      (0 + (Cost.text content.length + (0 + 0))) s := by
    refine hnumber.bind ((charge _).bind ((take content).bind ?_))
    rw [h]
    exact pure s
  refine hread.congr (by simp) ?_ ?_
  · rw [List.append_nil, List.nil_append]
  · rw [Nat.zero_add, Cost.text_eq hfits, Nat.add_zero]

theorem text {s : String} (h : TextWritable s) :
    Reads quota (.text quota) True (textEncoding s) (textCost s) s :=
  textOf h (ModifiedUtf8.decode_bytes s)

end Reads

end Wireform.Nbt
