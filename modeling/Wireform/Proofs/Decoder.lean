import Wireform.Decoder
import Mathlib.Tactic.Common
import Mathlib.Data.List.Basic

/-!
# Runs of decoders

A small logic for machines that consume bytes from the front.  `Decodes d bytes a` says that `d`
reads `a` from `bytes`, whatever follows them, and leaves what follows.  Rules for sequencing and
for the primitive decoders.
-/

namespace Wireform

section Machine

variable {ε σ α β : Type}

/-- Sequencing, on the state given: the second machine goes on where the first stopped. -/
theorem bind_eq (x : EStateM ε σ α) (f : α → EStateM ε σ β) (s : σ) :
    (x >>= f) s = match x s with
      | .ok a s' => f a s'
      | .error e s' => .error e s' := rfl

theorem bind_of_ok {x : EStateM ε σ α} {f : α → EStateM ε σ β} {s s' : σ} {a : α}
    (h : x s = .ok a s') : (x >>= f) s = f a s' := by
  rw [bind_eq, h]

theorem bind_of_error {x : EStateM ε σ α} {f : α → EStateM ε σ β} {s s' : σ} {e : ε}
    (h : x s = .error e s') : (x >>= f) s = .error e s' := by
  rw [bind_eq, h]

@[simp] theorem pure_eq (a : α) (s : σ) : (pure a : EStateM ε σ α) s = .ok a s := rfl

@[simp] theorem get_eq (s : σ) : (get : EStateM ε σ σ) s = .ok s s := rfl

theorem bind_eq_ok_iff {x : EStateM ε σ α} {f : α → EStateM ε σ β} {s s' : σ} {b : β} :
    (x >>= f) s = .ok b s' ↔ ∃ a t, x s = .ok a t ∧ f a t = .ok b s' := by
  cases h : x s with
  | ok a t => simp [bind_of_ok h]
  | error e t => simp [bind_of_error h]

theorem guard_eq_ok_iff {c : Prop} [Decidable c] {e : ε} {x : EStateM ε σ α} {s s' : σ} {a : α} :
    (do
      if c then throw e
      x) s = .ok a s' ↔ ¬ c ∧ x s = .ok a s' := by
  by_cases hc : c
  · rw [if_pos hc]
    exact ⟨nofun, fun h => absurd hc h.1⟩
  · rw [if_neg hc]
    exact ⟨fun h => ⟨hc, h⟩, fun h => h.2⟩

/-- A sequence fails where its first part fails, or behind it. -/
theorem bind_eq_error_iff {x : EStateM ε σ α} {f : α → EStateM ε σ β} {s s' : σ} {e : ε} :
    (x >>= f) s = .error e s' ↔
      x s = .error e s' ∨ ∃ a t, x s = .ok a t ∧ f a t = .error e s' := by
  cases h : x s with
  | ok a t => simp [bind_of_ok h]
  | error e' t => simp [bind_of_error h]

theorem map_eq_error_iff {x : EStateM ε σ α} {g : α → β} {s s' : σ} {e : ε} :
    (do return g (← x)) s = .error e s' ↔ x s = .error e s' := by
  cases h : x s with
  | ok a t => simp [bind_of_ok h]
  | error e' t => simp [bind_of_error h]

/-- The state a machine leaves behind, whether it succeeds or fails. -/
def finalState (m : EStateM ε σ α) (s : σ) : σ :=
  match m s with
  | .ok _ s' => s'
  | .error _ s' => s'

theorem finalState_of_ok {m : EStateM ε σ α} {s s' : σ} {a : α} (h : m s = .ok a s') :
    finalState m s = s' := by
  rw [finalState, h]

theorem finalState_of_error {m : EStateM ε σ α} {s s' : σ} {e : ε} (h : m s = .error e s') :
    finalState m s = s' := by
  rw [finalState, h]

theorem finalState_bind_of_ok {x : EStateM ε σ α} {f : α → EStateM ε σ β} {s s' : σ} {a : α}
    (h : x s = .ok a s') : finalState (x >>= f) s = finalState (f a) s' := by
  rw [finalState, finalState, bind_of_ok h]

theorem finalState_bind_of_error {x : EStateM ε σ α} {f : α → EStateM ε σ β} {s s' : σ} {e : ε}
    (h : x s = .error e s') : finalState (x >>= f) s = s' :=
  finalState_of_error (bind_of_error h)

/-- What is made of the answer does not matter. -/
theorem finalState_map (x : EStateM ε σ α) (g : α → β) (s : σ) :
    finalState (do return g (← x)) s = finalState x s := by
  cases h : x s with
  | ok a s' => rw [finalState_bind_of_ok h, finalState_of_ok h, finalState_of_ok (pure_eq _ _)]
  | error e s' => rw [finalState_bind_of_error h, finalState_of_error h]

/-- What a machine answers. -/
def outcome (m : EStateM ε σ α) (s : σ) : Except ε α :=
  match m s with
  | .ok a _ => .ok a
  | .error e _ => .error e

theorem outcome_of_ok {m : EStateM ε σ α} {s s' : σ} {a : α} (h : m s = .ok a s') :
    outcome m s = .ok a := by
  rw [outcome, h]

theorem outcome_of_error {m : EStateM ε σ α} {s s' : σ} {e : ε} (h : m s = .error e s') :
    outcome m s = .error e := by
  rw [outcome, h]

theorem outcome_map (x : EStateM ε σ α) (g : α → β) (s : σ) :
    outcome (do return g (← x)) s = (outcome x s).map g := by
  cases h : x s with
  | ok a s' =>
    rw [outcome, bind_of_ok h, outcome_of_ok h]
    rfl
  | error e s' =>
    rw [outcome, bind_of_error h, outcome_of_error h]
    rfl

end Machine

namespace Decoder

theorem take_of_le {n : Nat} {bytes : Bytes} (h : n ≤ bytes.length) :
    take n bytes = .ok (bytes.take n) (bytes.drop n) := by
  have hlen : (bytes.take n).length = n := by simp [h]
  simp only [take, List.splitAt_eq]
  rw [if_pos hlen]

theorem take_of_lt {n : Nat} {bytes : Bytes} (h : bytes.length < n) :
    take n bytes = .error (.underflow n bytes.length) bytes := by
  have hlen : (bytes.take n).length = bytes.length := by simp; omega
  simp only [take, List.splitAt_eq]
  rw [if_neg (by omega), hlen]

@[simp]
theorem take_append (front rest : Bytes) : take front.length (front ++ rest) = .ok front rest := by
  rw [take_of_le (by simp), List.take_left, List.drop_left]

theorem take_eq_ok_iff {n : Nat} {src front rest : Bytes} :
    take n src = .ok front rest ↔ src = front ++ rest ∧ front.length = n := by
  constructor
  · intro h
    rcases Nat.lt_or_ge src.length n with hlt | hle
    · rw [take_of_lt hlt] at h
      cases h
    · rw [take_of_le hle] at h
      cases h
      exact ⟨(List.take_append_drop n src).symm, List.length_take_of_le hle⟩
  · rintro ⟨rfl, rfl⟩
    exact take_append front rest

@[simp] theorem byte_cons (b : UInt8) (rest : Bytes) : byte (b :: rest) = .ok b rest := rfl

@[simp] theorem available_eq (bytes : Bytes) : available bytes = .ok bytes.length bytes := rfl

@[simp]
theorem skip_append (front rest : Bytes) : skip front.length (front ++ rest) = .ok () rest := by
  unfold skip
  rw [bind_of_ok (take_append front rest), pure_eq]

end Decoder

/-! ### Reading what is there -/

/-- `d` reads `a` from `bytes` and leaves what follows them. -/
def Decodes (d : Decoder α) (bytes : Bytes) (a : α) : Prop :=
  ∀ rest, d (bytes ++ rest) = .ok a rest

namespace Decodes

theorem pure (a : α) : Decodes (Pure.pure a : Decoder α) [] a := fun _ => rfl

theorem bind {d : Decoder α} {f : α → Decoder β} {bytes more : Bytes} {a : α} {b : β}
    (hd : Decodes d bytes a) (hf : Decodes (f a) more b) : Decodes (d >>= f) (bytes ++ more) b := by
  intro rest
  rw [List.append_assoc, bind_of_ok (hd _), hf]

/-- A decoder followed by a function of what it read. -/
theorem map {d : Decoder α} {f : α → β} {bytes : Bytes} {a : α} (hd : Decodes d bytes a) :
    Decodes (do return f (← d)) bytes (f a) := by
  intro rest
  rw [bind_of_ok (hd _), pure_eq]

theorem take (bytes : Bytes) : Decodes (Decoder.take bytes.length) bytes bytes :=
  Decoder.take_append bytes

theorem byte (b : UInt8) : Decodes Decoder.byte [b] b := fun _ => rfl

end Decodes

/-- `d` reads `a` from `bytes` if `p` holds and refuses them if not. -/
def DecodesIf (d : Decoder α) (p : Prop) (bytes : Bytes) (a : α) : Prop :=
  ∀ rest, (p → d (bytes ++ rest) = .ok a rest) ∧ (¬ p → ∃ e s, d (bytes ++ rest) = .error e s)

namespace DecodesIf

variable {d : Decoder α} {f : α → Decoder β} {p q : Prop} {bytes more : Bytes} {a : α} {b : β}

theorem of_decodes (hd : Decodes d bytes a) : DecodesIf d True bytes a := fun rest =>
  ⟨fun _ => hd rest, fun h => absurd trivial h⟩

theorem bind (hd : DecodesIf d p bytes a) (hf : DecodesIf (f a) q more b) :
    DecodesIf (d >>= f) (p ∧ q) (bytes ++ more) b := by
  intro rest
  obtain ⟨hok, herr⟩ := hd (more ++ rest)
  rw [List.append_assoc]
  by_cases hp : p
  · rw [bind_of_ok (hok hp)]
    exact ⟨fun h => (hf rest).1 h.2, fun h => (hf rest).2 fun hq => h ⟨hp, hq⟩⟩
  · obtain ⟨e, s, hrun⟩ := herr hp
    rw [bind_of_error hrun]
    exact ⟨fun h => absurd h.1 hp, fun _ => ⟨e, s, rfl⟩⟩

theorem congr (hd : DecodesIf d p bytes a) (hpq : p ↔ q) (hb : bytes = more) :
    DecodesIf d q more a := by
  subst hb
  rwa [propext hpq] at hd

/-- Behind a decoder that does not refuse what it finds. -/
theorem after (hd : Decodes d bytes a) (hf : DecodesIf (f a) p more b) :
    DecodesIf (d >>= f) p (bytes ++ more) b :=
  ((of_decodes hd).bind hf).congr (.of_eq (true_and _)) rfl

/-- A check in front of a decoder. -/
theorem guard (c : Prop) [Decidable c] (e : Fault) (hd : DecodesIf d p bytes a) :
    DecodesIf (do
      if c then throw e
      d) (¬ c ∧ p) bytes a := by
  intro rest
  by_cases hc : c
  · rw [if_pos hc]
    exact ⟨fun h => absurd hc h.1, fun _ => ⟨e, _, rfl⟩⟩
  · rw [if_neg hc]
    exact ⟨fun h => (hd rest).1 h.2, fun h => (hd rest).2 fun hp => h ⟨hc, hp⟩⟩

/-- A decoder followed by a function of what it read. -/
theorem map (hd : DecodesIf d p bytes a) (g : α → β) :
    DecodesIf (do return g (← d)) p bytes (g a) := by
  have h := hd.bind (f := fun a => pure (g a)) (of_decodes (.pure (g a)))
  rwa [and_true, List.append_nil] at h

end DecodesIf

end Wireform
