import Wireform.Proofs.Nbt.RoundTrip

/-!
# The grammar that the reader recognizes

`Parses quota m R` says that `m` invents nothing: whatever it answers stands, by `R`, in the bytes
it took, and `R` knows the cost that was run up.  With the reader on derivations this makes an
equivalence: a buffer begins with a tree within the budget exactly if it begins with the bytes of a
derivation that the budget allows.
-/

namespace Wireform.Nbt

/-- Whatever `m` answers stands by `R` in the bytes that it took, for the cost that it ran up. -/
def Parses (quota : Nat) (m : Reader α) (R : Bytes → Nat → α → Prop) : Prop :=
  ∀ used bytes a s, used ≤ quota → used ≤ sizeMax → m ⟨used, bytes⟩ = .ok a s →
    ∃ front cost, R front cost a ∧ bytes = front ++ s.rest ∧ s.used = satAdd used cost ∧
      s.used ≤ quota

namespace Parses

variable {quota cost : Nat} {m : Reader α} {f : α → Reader β} {R : Bytes → Nat → α → Prop}
  {Q : Bytes → Nat → β → Prop}

theorem pure {a : α} (h : R [] 0 a) : Parses quota (pure a) R := by
  rintro used bytes _ _ hq hs ⟨⟩
  exact ⟨[], 0, h, rfl, (satAdd_zero hs).symm, hq⟩

theorem fail (e : ReadFault) : Parses quota (throw e) R := by
  rintro _ _ _ _ _ _ ⟨⟩

theorem bind (hm : Parses quota m R) (hf : ∀ a front cost, R front cost a →
    Parses quota (f a) fun more cost' b => Q (front ++ more) (cost + cost') b) :
    Parses quota (m >>= f) Q := by
  intro used bytes b s hq hs hrun
  cases hfirst : m ⟨used, bytes⟩ with
  | error e t =>
    rw [bind_of_error hfirst] at hrun
    cases hrun
  | ok a t =>
    obtain ⟨front, cost, hR, rfl, hused, hle⟩ := hm _ _ _ _ hq hs hfirst
    rw [bind_of_ok hfirst] at hrun
    obtain ⟨more, cost', hQ, hrest, hused', hle'⟩ :=
      hf a front cost hR _ _ _ _ hle (hused ▸ satAdd_le _ _) hrun
    refine ⟨front ++ more, cost + cost', hQ, ?_, ?_, hle'⟩
    · rw [hrest, List.append_assoc]
    · rw [hused', hused, satAdd_satAdd]

theorem mono {R' : Bytes → Nat → α → Prop} (hm : Parses quota m R)
    (h : ∀ front cost a, R front cost a → R' front cost a) : Parses quota m R' := by
  intro used bytes a s hq hs hrun
  obtain ⟨front, cost, hR, hrest⟩ := hm _ _ _ _ hq hs hrun
  exact ⟨front, cost, h _ _ _ hR, hrest⟩

theorem map {g : α → β} (hm : Parses quota m R)
    (hg : ∀ front cost a, R front cost a → Q front cost (g a)) :
    Parses quota (do return g (← m)) Q :=
  hm.bind fun a front cost hR => pure (by simpa using hg front cost a hR)

/-- What refuses `c` may be told `c` afterwards. -/
theorem guard {c : Prop} [Decidable c] (e : ReadFault) (hm : ¬ c → Parses quota m R) :
    Parses quota (do
      if c then throw e
      m) R := by
  split_ifs with hc
  · exact (fail e : Parses quota _ fun _ _ _ => False).bind fun _ _ _ h => h.elim
  · exact hm hc

/-! ### Primitive readers -/

/-- A charge in front of a reader. -/
theorem charge_bind {m : Reader β} (cost : Nat)
    (hm : Parses quota m fun bytes cost' b => Q bytes (cost + cost') b) :
    Parses quota (do
      Reader.charge quota cost
      m) Q := by
  have hcharge : Parses quota (.charge quota cost) fun front c _ => front = [] ∧ c = cost := by
    intro used bytes a s hq hs hrun
    obtain ⟨hok, herr⟩ := @Reads.charge quota cost used bytes hq hs
    by_cases h : satAdd used cost ≤ quota
    · rw [← List.nil_append bytes, hok ⟨trivial, h⟩] at hrun
      cases hrun
      exact ⟨[], cost, ⟨rfl, rfl⟩, rfl, rfl, h⟩
    · obtain ⟨e, t, herr, -⟩ := herr fun h' => h h'.2
      rw [← List.nil_append bytes, herr] at hrun
      cases hrun
  refine hcharge.bind fun _ front c h => ?_
  obtain ⟨rfl, rfl⟩ := h
  exact hm

theorem take (n : Nat) :
    Parses quota (.take n) fun front c bytes => front = bytes ∧ c = 0 ∧ bytes.length = n := by
  intro used bytes a s hq hs hrun
  rcases Nat.lt_or_ge bytes.length n with hlt | hle
  · simp only [Reader.take, Decoder.take_of_lt hlt] at hrun
    cases hrun
  · simp only [Reader.take, Decoder.take_of_le hle] at hrun
    cases hrun
    refine ⟨bytes.take n, 0, ⟨rfl, rfl, ?_⟩, (List.take_append_drop n bytes).symm,
      (satAdd_zero hs).symm, hq⟩
    rw [List.length_take, Nat.min_eq_left hle]

theorem number (width : Nat) : Parses quota (.number width) fun front c n =>
    front = Bytes.ofNat width n ∧ c = 0 ∧ n < 256 ^ width := by
  refine (take width).map fun front c bytes h => ?_
  obtain ⟨rfl, rfl, rfl⟩ := h
  exact ⟨(Bytes.ofNat_value front).symm, rfl, Bytes.value_lt front⟩

theorem typeId : Parses quota .typeId fun front c id => front = [id] ∧ c = 0 := by
  refine (number 1).map fun front c n h => ?_
  obtain ⟨rfl, rfl, -⟩ := h
  exact ⟨rfl, rfl⟩

theorem count : Parses quota .count fun front c n =>
    front = Bytes.ofNat 4 n ∧ c = 0 ∧ Countable n := by
  refine (number 4).bind fun n front c h => ?_
  obtain ⟨rfl, rfl, hlt⟩ := h
  refine guard _ fun hneg => pure ?_
  rw [lt_zero_iff] at hneg
  have hn : (Int32.ofNat n).toInt.toNat = n := by
    rcases toInt_ofNat_cases n with h | h
    · exact absurd h hneg
    · rw [h]
      exact Nat.mod_eq_of_lt hlt
  have hmax := (Int32.ofNat n).toInt_lt
  rw [hn, List.append_nil]
  refine ⟨rfl, rfl, ?_⟩
  unfold Countable Writer.maxCount
  omega

theorem text : Parses quota (.text quota) fun front c s =>
    ∃ t : Grammar.Text, t.bytes = front ∧ t.cost = c ∧ t.string = s := by
  refine (number 2).bind fun size front c h => ?_
  obtain ⟨rfl, rfl, hlt⟩ := h
  refine charge_bind _ ((take size).bind fun content front c h => ?_)
  obtain ⟨rfl, rfl, rfl⟩ := h
  cases hdecode : ModifiedUtf8.decode front with
  | error e => exact fail e
  | ok s =>
    obtain ⟨gs, rfl, rfl⟩ := ModifiedUtf8.decode_eq_ok_iff.mp hdecode
    have hfits := Nat.le_of_lt_succ hlt
    refine pure ⟨⟨gs, hfits⟩, ?_, ?_, rfl⟩
    · rw [List.append_nil]
      rfl
    · rw [Cost.text_eq hfits, Nat.zero_add]
      rfl

/-! ### Machines for the parts of a tag -/

/-- A number of fixed width for a fixed charge. -/
theorem scalar {R : Bytes → Nat → Tag → Prop} {width cost : Nat} {g : Nat → Tag}
    (h : ∀ n < 256 ^ width, R (Bytes.ofNat width n) cost (g n)) :
    Parses quota (do
      Reader.charge quota cost
      return g (← Reader.number width)) R := by
  refine charge_bind _ ((number width).map fun front c n hn => ?_)
  obtain ⟨rfl, rfl, hlt⟩ := hn
  exact h n hlt

/-- Numbers of fixed width in a row, on top of those read so far. -/
theorem numbers {width : Nat} (toNat : α → Nat) {ofNat : Nat → α}
    (hinv : ∀ n < 256 ^ width, toNat (ofNat n) = n) : ∀ (n : Nat) (acc : List α),
    Parses quota (Reader.replicate.go (do return ofNat (← Reader.number width)) n acc)
      fun front c as => ∃ vs : List α, vs.length = n ∧
        front = (vs.flatMap fun v => Bytes.ofNat width (toNat v)) ∧ c = 0 ∧ as = acc.reverse ++ vs
  | 0, acc => pure ⟨[], rfl, rfl, rfl, (List.append_nil _).symm⟩
  | n + 1, acc => by
    have hone : Parses quota (do return ofNat (← Reader.number width)) fun front c v =>
        front = Bytes.ofNat width (toNat v) ∧ c = 0 := by
      refine (number width).map fun front c n h => ?_
      obtain ⟨rfl, rfl, hlt⟩ := h
      rw [hinv n hlt]
      exact ⟨rfl, rfl⟩
    refine hone.bind fun v front c h =>
      (numbers toNat hinv n (v :: acc)).mono fun more c' as h' => ?_
    obtain ⟨rfl, rfl⟩ := h
    obtain ⟨vs, rfl, rfl, rfl, rfl⟩ := h'
    exact ⟨v :: vs, rfl, rfl, rfl, by simp⟩

/-- An array: the number of its elements, their charge, and the elements. -/
theorem array {R : Bytes → Nat → Tag → Prop} {width : Nat} {read : Nat → Reader Tag}
    (hwidth : width ≤ 8) (h : ∀ n, Countable n → Parses quota (read n) fun bytes c t =>
      R (Bytes.ofNat 4 n ++ bytes) (24 + width * n + c) t) :
    Parses quota (do
      let n ← Reader.count
      Reader.charge quota (Cost.array n width)
      read n) R := by
  refine count.bind fun n front c hn => charge_bind _ ?_
  obtain ⟨rfl, rfl, hn⟩ := hn
  rw [Cost.array_eq hn hwidth]
  simpa only [Nat.zero_add] using h n hn

end Parses

/-! ### Tags -/

section Tags

open Grammar

/-- What stands for a tag of the type with number `id`, in `levels` levels. -/
def Derives (id : UInt8) (levels : Nat) (bytes : Bytes) (cost : Nat) (t : Tag) : Prop :=
  ∃ (k : TagType) (p : Payload k), k.id = id ∧ p.height < levels ∧ p.bytes = bytes ∧
    p.cost = cost ∧ p.tag = t

variable {budget : Budget} {levels : Nat} {k : TagType}

/-- The number of a type tells the type. -/
theorem Derives.typed {bytes : Bytes} {cost : Nat} {t : Tag}
    (h : Derives k.id levels bytes cost t) : ∃ p : Payload k, p.height < levels ∧
      p.bytes = bytes ∧ p.cost = cost ∧ p.tag = t := by
  obtain ⟨l, p, hid, hp⟩ := h
  obtain rfl := TagType.id_injective hid
  exact ⟨p, hp⟩

/-- The items of a list, on top of those read so far. -/
theorem parses_items
    (hp : Parses budget.quota (.payload budget levels k.id) (Derives k.id levels)) :
    ∀ (n : Nat) (acc : List Tag),
      Parses budget.quota (Reader.replicate.go (.payload budget levels k.id) n acc)
        fun bytes cost ts => ∃ items : Items k n, items.height ≤ levels ∧ items.bytes = bytes ∧
          items.cost = cost ∧ ts = acc.reverse ++ items.tags
  | 0, acc => .pure ⟨.nil, Nat.zero_le _, rfl, rfl, (List.append_nil _).symm⟩
  | n + 1, acc => by
    refine hp.bind fun t front c h => (parses_items hp n (t :: acc)).mono fun more c' ts h' => ?_
    obtain ⟨p, hheight, rfl, rfl, rfl⟩ := h.typed
    obtain ⟨items, hheight', rfl, rfl, rfl⟩ := h'
    exact ⟨.cons p items, Nat.max_le.mpr ⟨hheight, hheight'⟩, rfl, rfl, by simp⟩

/-- Entries, put on top of those read so far. -/
theorem parses_entries (hp : ∀ id, Parses budget.quota (.payload budget levels id)
    (Derives id levels)) : ∀ (fuel : Bytes) (c : Compound),
      Parses budget.quota (.entries budget.quota (.payload budget levels) fuel c)
        fun bytes cost c' => ∃ es : Entries, es.height ≤ levels ∧ es.bytes = bytes ∧
          es.cost = cost ∧ c' = es.pairs.foldl (fun c (key, tag) => c.insert key tag) c
  | fuel, c => by
    rw [Reader.entries_eq]
    refine Parses.typeId.bind fun id front cost h => ?_
    obtain ⟨rfl, rfl⟩ := h
    split_ifs with hid
    · subst hid
      exact .pure ⟨.nil, Nat.zero_le _, rfl, rfl, rfl⟩
    · refine Parses.text.bind fun key front cost h => .charge_bind _ ?_
      obtain ⟨key, rfl, rfl, rfl⟩ := h
      refine (hp id).bind fun tag front cost h => ?_
      obtain ⟨k, p, rfl, hheight, rfl, rfl, rfl⟩ := h
      cases fuel with
      | nil => exact .fail _
      | cons b fuel =>
        refine (parses_entries hp fuel _).mono fun more cost c' h => ?_
        obtain ⟨es, hheight', rfl, rfl, rfl⟩ := h
        refine ⟨.cons key p es, Nat.max_le.mpr ⟨hheight, hheight'⟩, rfl, ?_, rfl⟩
        rw [Entries.cost, Cost.entry]
        omega
termination_by structural fuel => fuel

/-- The entries of a compound. -/
theorem parses_compound (hp : ∀ id, Parses budget.quota (.payload budget levels id)
    (Derives id levels)) :
    Parses budget.quota (.compound budget.quota (.payload budget levels)) fun bytes cost c =>
      ∃ es : Entries, es.height ≤ levels ∧ es.bytes = bytes ∧ 48 + es.cost = cost ∧
        c = Compound.ofList es.pairs := by
  refine .charge_bind _ fun used bytes a s hq hs hrun => ?_
  rw [bind_of_ok (get_eq _)] at hrun
  obtain ⟨front, cost, ⟨es, hheight, hbytes, hcost, hc⟩, hrest⟩ :=
    parses_entries hp bytes [] used bytes a s hq hs hrun
  exact ⟨front, cost, ⟨es, hheight, hbytes, congrArg (48 + ·) hcost, hc⟩, hrest⟩

/-- The items of a list of any type.  That there are some shows that there is the type. -/
theorem parses_list (hp : ∀ id, Parses budget.quota (.payload budget levels id) (Derives id levels))
    {id : UInt8} {n : Nat} (hn : Countable n) :
    Parses budget.quota (do return Tag.list (← Reader.replicate n (.payload budget levels id)))
      fun bytes cost t => Derives TagType.list.id (levels + 1)
        (id :: (Bytes.ofNat 4 n ++ bytes)) (37 + 4 * n + cost) t := by
  cases n with
  | zero =>
    refine .pure ⟨.list, .emptyList id, rfl, Nat.succ_pos _, ?_, rfl, rfl⟩
    rw [List.append_nil]
    rfl
  | succ n =>
    have hitems : Parses budget.quota (Reader.replicate.go (.payload budget levels id) (n + 1) [])
        fun bytes cost ts => ∃ (k : TagType) (items : Items k (n + 1)), k.id = id ∧
          items.height ≤ levels ∧ items.bytes = bytes ∧ items.cost = cost ∧ ts = items.tags := by
      refine (hp id).bind fun t front c h => ?_
      obtain ⟨k, p, rfl, hheight, rfl, rfl, rfl⟩ := h
      refine (parses_items (hp k.id) n [p.tag]).mono fun more c' ts h => ?_
      obtain ⟨items, hheight', rfl, rfl, rfl⟩ := h
      exact ⟨k, .cons p items, rfl, Nat.max_le.mpr ⟨hheight, hheight'⟩, rfl, rfl, rfl⟩
    refine Parses.map hitems fun bytes cost ts h => ?_
    obtain ⟨k, items, rfl, hheight, rfl, rfl, rfl⟩ := h
    exact ⟨.list, .list items hn, rfl, Nat.lt_succ_of_le hheight, rfl, rfl, rfl⟩

/-- **What the reader accepts for a tag is derived.** -/
theorem parses_payload (budget : Budget) : ∀ (levels : Nat) (id : UInt8),
    Parses budget.quota (.payload budget levels id) (Derives id levels)
  | 0, _ => .fail _
  | levels + 1, id => by
    have hp := parses_payload budget levels
    have htype (k : TagType) (h : id.toNat = k.id.toNat) : k.id = id := (UInt8.toNat_inj.mp h).symm
    have hflat {k : TagType} {p : Payload k} {bytes : Bytes} {cost : Nat} {t : Tag}
        (h : id.toNat = k.id.toNat) (hheight : p.height = 0) (hbytes : p.bytes = bytes)
        (hcost : p.cost = cost) (ht : p.tag = t) : Derives id (levels + 1) bytes cost t :=
      ⟨k, p, htype k h, by omega, hbytes, hcost, ht⟩
    unfold Reader.payload
    split
    case h_1 h =>
      exact .scalar fun n hn => hflat (p := .byte (Int8.ofNat n)) h rfl
        (congrArg (Bytes.ofNat 1) (toNat_int8_ofNat hn)) rfl rfl
    case h_2 h =>
      exact .scalar fun n hn => hflat (p := .short (Int16.ofNat n)) h rfl
        (congrArg (Bytes.ofNat 2) (toNat_int16_ofNat hn)) rfl rfl
    case h_3 h =>
      exact .scalar fun n hn => hflat (p := .int (Int32.ofNat n)) h rfl
        (congrArg (Bytes.ofNat 4) (toNat_int32_ofNat hn)) rfl rfl
    case h_4 h =>
      exact .scalar fun n hn => hflat (p := .long (Int64.ofNat n)) h rfl
        (congrArg (Bytes.ofNat 8) (toNat_int64_ofNat hn)) rfl rfl
    case h_5 h =>
      exact .scalar fun n hn => hflat (p := .float ⟨UInt32.ofNat n⟩) h rfl
        (congrArg (Bytes.ofNat 4) (UInt32.toNat_ofNat_of_lt hn)) rfl rfl
    case h_6 h =>
      exact .scalar fun n hn => hflat (p := .double ⟨UInt64.ofNat n⟩) h rfl
        (congrArg (Bytes.ofNat 8) (UInt64.toNat_ofNat_of_lt hn)) rfl rfl
    case h_7 h =>
      refine .array (by omega) fun n hn => (Parses.take n).map fun front c bytes hbytes => ?_
      obtain ⟨rfl, rfl, rfl⟩ := hbytes
      have hlength := front.length_map (·.toInt8)
      have hinv : (front.map (·.toInt8)).map (·.toUInt8) = front := by
        rw [List.map_map]
        exact List.map_id'' (fun b => rfl) front
      refine hflat (p := .byteArray (front.map (·.toInt8)) (by rwa [hlength])) h rfl ?_ ?_ rfl
      · rw [Payload.bytes, hlength, hinv]
      · rw [Payload.cost, hlength, Nat.one_mul, Nat.add_zero]
    case h_8 h =>
      refine Parses.text.map fun bytes cost s hs => ?_
      obtain ⟨t, hbytes, hcost, rfl⟩ := hs
      exact hflat (p := .text t) h rfl hbytes hcost rfl
    case h_9 h =>
      refine Parses.typeId.bind fun item front c hitem => Parses.count.bind fun n front c hn => ?_
      obtain ⟨rfl, rfl⟩ := hitem
      obtain ⟨rfl, rfl, hn⟩ := hn
      refine .charge_bind _ (.guard _ fun _ => (parses_list hp hn).mono fun bytes cost t ht => ?_)
      rw [Cost.list_eq hn, ← htype .list h]
      simpa only [Nat.zero_add, List.singleton_append] using ht
    case h_10 h =>
      refine (parses_compound hp).map fun bytes cost c hc => ?_
      obtain ⟨es, hheight, hbytes, hcost, rfl⟩ := hc
      exact ⟨.compound, .compound es, htype .compound h, Nat.lt_succ_of_le hheight, hbytes, hcost,
        rfl⟩
    case h_11 h =>
      refine .array (by omega) fun n hn =>
        (Parses.numbers (·.toUInt32.toNat) (fun _ => toNat_int32_ofNat) n []).map
          fun bytes c vs hvs => ?_
      obtain ⟨vs, rfl, rfl, rfl, rfl⟩ := hvs
      exact hflat (p := .intArray vs hn) h rfl rfl rfl rfl
    case h_12 h =>
      refine .array (by omega) fun n hn =>
        (Parses.numbers (·.toUInt64.toNat) (fun _ => toNat_int64_ofNat) n []).map
          fun bytes c vs hvs => ?_
      obtain ⟨vs, rfl, rfl, rfl, rfl⟩ := hvs
      exact hflat (p := .longArray vs hn) h rfl rfl rfl rfl
    case h_13 => exact .fail _

/-- What the reader accepts for a tree is derived. -/
theorem parses_tree (budget : Budget) : Parses budget.quota (.tree budget) fun bytes cost c =>
    ∃ d : Root, d.height ≤ budget.depth ∧ d.bytes = bytes ∧
      d.name.cost + (48 + d.entries.cost) = cost ∧ c = d.tree.entries := by
  refine Parses.typeId.bind fun id front cost h => .guard _ fun hid => ?_
  obtain ⟨rfl, rfl⟩ := h
  obtain rfl := not_not.mp hid
  refine Parses.text.bind fun name front cost h => ?_
  obtain ⟨name, rfl, rfl, rfl⟩ := h
  refine (parses_compound (parses_payload budget budget.depth)).mono fun bytes cost c h => ?_
  obtain ⟨es, hheight, rfl, rfl, rfl⟩ := h
  exact ⟨⟨name, es⟩, hheight, rfl, (Nat.zero_add _).symm, rfl⟩

end Tags

/-! ### Trees -/

/-- **The decoder recognizes the grammar**, within the budget. -/
theorem decodeTree_eq_ok_iff {budget : Budget} {bytes rest : Bytes} {t : Tree} :
    decodeTree budget bytes = .ok t rest ↔ ∃ d : Grammar.Root, bytes = d.bytes ++ rest ∧
      d.charge ≤ budget.quota ∧ d.height ≤ budget.depth ∧ t = d.tree := by
  constructor
  · intro h
    rcases decodeTree_cases budget bytes with ⟨t', s, hrun, hok⟩ | ⟨e, s, -, herror⟩
    · cases hok.symm.trans h
      obtain ⟨_, _, ⟨d, hheight, rfl, rfl, htree⟩, hbytes, hused, hle⟩ :=
        parses_tree budget 0 bytes t.entries s (Nat.zero_le _) (Nat.zero_le _) hrun
      refine ⟨d, hbytes, ?_, hheight, Tree.ext htree⟩
      rw [hused, d.satAdd_zero_cost] at hle
      exact hle
    · cases herror.symm.trans h
  · rintro ⟨d, rfl, hcharge, hheight, rfl⟩
    exact (decodeTree_root d budget rest).1 ⟨hcharge, hheight⟩

/-- Whatever is not read is refused as a tree. -/
theorem decodeTree_of_not_ok {budget : Budget} {bytes : Bytes}
    (h : ∀ t rest, decodeTree budget bytes ≠ .ok t rest) :
    ∃ e rest, decodeTree budget bytes = .error (.structureDecode e) rest := by
  rcases decodeTree_cases budget bytes with ⟨t, s, -, hok⟩ | ⟨e, s, -, herror⟩
  · exact absurd hok (h t s.rest)
  · exact ⟨e, s.rest, herror⟩

end Wireform.Nbt

namespace Wireform.Buffer

open Nbt

/-- **A buffer begins with a tree exactly if it begins with what the grammar derives.**  A tree is
read, and its bytes are consumed, if and only if the unread bytes begin with the bytes of a
derivation whose charge is within the quota and whose height is within the depth, and the tree is
what the derivation means; everything else is refused.  What entries mean, those of the root or of a
compound inside, is the compound whose keys ascend and which has the last tag under each key. -/
theorem readTree_eq_ok_iff (budget : Budget) (b : Buffer) :
    (∀ t b', readTree budget b = .ok t b' ↔ ∃ d : Grammar.Root, d.bytes <+: b.unread ∧
      d.charge ≤ budget.quota ∧ d.height ≤ budget.depth ∧ t = d.tree ∧
      b' = b.advance d.bytes.length) ∧
    ((¬ ∃ d : Grammar.Root, d.bytes <+: b.unread ∧ d.charge ≤ budget.quota ∧
      d.height ≤ budget.depth) → ∃ e b', readTree budget b = .error (.structureDecode e) b') ∧
    ∀ es : Grammar.Entries, Ascending (Compound.ofList es.pairs) ∧
      ∀ key, Compound.get? key (Compound.ofList es.pairs) = es.last? key := by
  have hok (t : Tree) (b' : Buffer) : readTree budget b = .ok t b' ↔ ∃ d : Grammar.Root,
      d.bytes <+: b.unread ∧ d.charge ≤ budget.quota ∧ d.height ≤ budget.depth ∧ t = d.tree ∧
        b' = b.advance d.bytes.length := by
    rw [readTree, Action.ofDecoder_eq_ok_iff]
    constructor
    · rintro ⟨rest, hdecode, rfl⟩
      obtain ⟨d, hunread, hcharge, hheight, rfl⟩ := decodeTree_eq_ok_iff.mp hdecode
      exact ⟨d, ⟨rest, hunread.symm⟩, hcharge, hheight, rfl, leaving_of_unread hunread⟩
    · rintro ⟨d, ⟨rest, hunread⟩, hcharge, hheight, rfl, rfl⟩
      exact ⟨rest, decodeTree_eq_ok_iff.mpr ⟨d, hunread.symm, hcharge, hheight, rfl⟩,
        (leaving_of_unread hunread.symm).symm⟩
  refine ⟨hok, fun hnone => ?_, fun es =>
    ⟨(Compound.ordered_ofList es.ordered_pairs).1, fun key => es.get?_ofList_pairs key⟩⟩
  have hnot : ∀ t rest, decodeTree budget b.unread ≠ .ok t rest := fun t rest h => by
    obtain ⟨d, hunread, hcharge, hheight, -⟩ := decodeTree_eq_ok_iff.mp h
    exact hnone ⟨d, ⟨rest, hunread.symm⟩, hcharge, hheight⟩
  obtain ⟨e, rest, hrun⟩ := decodeTree_of_not_ok hnot
  exact ⟨e, _, Action.ofDecoder_of_error hrun⟩

end Wireform.Buffer
