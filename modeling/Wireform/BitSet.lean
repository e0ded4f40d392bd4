import Wireform.Decoder

/-!
# Bit sets

A finite set of indices, kept in 64-bit words: index `i` is bit `i % 64` of word `i / 64`. The last
word is not zero, so each set has one form and equality of the words is equality of the sets.
-/

namespace Wireform

/-- A finite set of indices in words, the last of which is not zero. -/
structure BitSet where
  words : List UInt64
  trimmed : words.getLast? ≠ some 0
  deriving DecidableEq, Repr

namespace BitSet

/-- Drops the zero words at the end. -/
def trim (words : List UInt64) : List UInt64 := (words.reverse.dropWhile (· == 0)).reverse

theorem getLast?_trim (words : List UInt64) : (trim words).getLast? ≠ some 0 := by
  intro h
  have hhead := List.head?_dropWhile_not (· == 0) words.reverse
  rw [trim, List.getLast?_reverse] at h
  rw [h] at hhead
  simp at hhead

theorem trim_of_trimmed {words : List UInt64} (h : words.getLast? ≠ some 0) :
    trim words = words := by
  rw [← List.head?_reverse] at h
  unfold trim
  cases hrev : words.reverse with
  | nil =>
    rw [List.reverse_eq_nil_iff.mp hrev]
    rfl
  | cons w rest =>
    rw [hrev, List.head?_cons] at h
    have hw : ¬ (w == 0) = true := fun heq => h (congrArg some (eq_of_beq heq))
    rw [List.dropWhile_cons_of_neg (p := (· == 0)) hw, ← hrev, List.reverse_reverse]

/-- The word with one bit set. -/
def bit (index : Nat) : UInt64 := 1 <<< UInt64.ofNat (index % 64)

theorem bit_ne_zero (index : Nat) : bit index ≠ 0 := by
  have hlt : index % 64 < 64 := Nat.mod_lt _ (by decide)
  generalize hk : index % 64 = k at hlt
  intro h
  rw [bit, hk] at h
  have hcases : ∀ k < 64, (1 : UInt64) <<< UInt64.ofNat k ≠ 0 := by decide
  exact hcases k hlt h

theorem or_bit_ne_zero (word : UInt64) (index : Nat) : word ||| bit index ≠ 0 := by
  intro h
  have hnat := congrArg UInt64.toNat h
  rw [UInt64.toNat_or, UInt64.toNat_zero, Nat.or_eq_zero_iff] at hnat
  exact bit_ne_zero index (UInt64.toNat_inj.mp hnat.2)

/-- Setting a bit of a word leaves the last word other than zero, if zeros were only put in below
that word. -/
theorem getLast?_modify_or {words : List UInt64} {index : Nat}
    (h : words.length ≠ index / 64 + 1 → words.getLast? ≠ some 0) :
    (words.modify (index / 64) (· ||| bit index)).getLast? ≠ some 0 := by
  rw [List.getLast?_eq_getElem?, List.length_modify, List.getElem?_modify]
  by_cases hi : index / 64 = words.length - 1
  · simp only [if_pos hi]
    cases words[words.length - 1]? with
    | none => simp
    | some word => simpa using or_bit_ne_zero word index
  · simp only [if_neg hi, id_map']
    rw [← List.getLast?_eq_getElem?]
    exact h (by omega)

/-- The set without members. -/
def empty : BitSet := ⟨[], by simp⟩

instance : Inhabited BitSet := ⟨empty⟩

/-- The set whose members are the bits of these words. -/
def ofWords (words : List UInt64) : BitSet := ⟨trim words, getLast?_trim words⟩

@[simp] theorem ofWords_words (s : BitSet) : ofWords s.words = s := by
  obtain ⟨words, trimmed⟩ := s
  simp only [ofWords, trim_of_trimmed trimmed]

theorem getLast?_rightpad {words : List UInt64} (h : words.getLast? ≠ some 0) {n : Nat}
    (hn : (words.rightpad n 0).length ≠ n) : (words.rightpad n 0).getLast? ≠ some 0 := by
  have hle : n - words.length = 0 := by
    simp only [List.rightpad, List.length_append, List.length_replicate] at hn
    omega
  simpa [List.rightpad, hle] using h

/-- Puts an index in. -/
def insert (s : BitSet) (index : Nat) : BitSet :=
  let words := s.words.rightpad (index / 64 + 1) 0
  ⟨words.modify (index / 64) (· ||| bit index), getLast?_modify_or (getLast?_rightpad s.trimmed)⟩

/-- A word other than the last may become zero. -/
theorem getLast?_modify_of_ne {words : List UInt64} {index : Nat} {f : UInt64 → UInt64}
    (h : words.getLast? ≠ some 0) (hne : index / 64 + 1 ≠ words.length) :
    (words.modify (index / 64) f).getLast? ≠ some 0 := by
  rw [List.getLast?_eq_getElem?, List.length_modify, List.getElem?_modify]
  by_cases hi : index / 64 = words.length - 1
  · cases words with
    | nil => simp
    | cons w rest => exact absurd (congrArg (· + 1) hi) hne
  · simpa only [if_neg hi, id_map', ← List.getLast?_eq_getElem?] using h

/-- Takes an index out. The last word alone can leave zero words at the end. -/
def erase (s : BitSet) (index : Nat) : BitSet :=
  let words := s.words.modify (index / 64) (· &&& ~~~ bit index)
  if h : index / 64 + 1 = s.words.length then ofWords words
  else ⟨words, getLast?_modify_of_ne s.trimmed h⟩

/-- Whether an index is in. -/
def contains (s : BitSet) (index : Nat) : Bool :=
  match s.words[index / 64]? with
  | none => false
  | some word => word &&& bit index != 0

def isEmpty (s : BitSet) : Bool := s.words.isEmpty

/-- The number of ones in the binary form of a number. -/
def ones (n : Nat) : Nat := if n = 0 then 0 else n % 2 + ones (n / 2)
termination_by n
decreasing_by omega

/-- The number of members. -/
def size (s : BitSet) : Nat := s.words.foldl (fun n word => n + ones word.toNat) 0

/-- The members that are bits of word number `i`, ascending. -/
def wordMembers (word : UInt64) (i : Nat) : List Nat :=
  if word = 0 then []
  else (List.range 64).filterMap fun j => if word &&& bit j != 0 then some (i * 64 + j) else none

/-- The members, ascending. -/
def toList (s : BitSet) : List Nat := s.words.zipIdx.flatMap fun (word, i) => wordMembers word i

/-- The set of the members of a list. -/
def ofList (indices : List Nat) : BitSet := indices.foldl insert empty

/-- The members between braces. -/
def display (s : BitSet) : String :=
  "\x7b" ++ ", ".intercalate (s.toList.map toString) ++ "\x7d"

end BitSet

end Wireform
