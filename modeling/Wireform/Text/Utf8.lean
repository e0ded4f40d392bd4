import Wireform.Text.Utf16

/-!
# UTF-8

`encode` writes a text in UTF-8. `lossy` reads any bytes at all: each longest run of bytes that
begins a character without completing it gives one replacement character, and so does each byte
that begins none. The scan keeps the character under way as the bits read so far, the number of
bytes still owed and the bounds of the next one; only the first byte owed can have bounds narrower
than those of a continuation byte.
-/

namespace Wireform.Utf8

/-- The UTF-8 form of a text. -/
def encode (s : String) : List UInt8 := s.toList.flatMap String.utf8EncodeChar

/-- A character whose first bytes have been read. -/
structure Partial where
  bits : Nat
  owed : Nat
  low : UInt8
  high : UInt8
  deriving DecidableEq, Repr

/-- What a byte between characters begins. -/
inductive Lead where
  | char (c : Char)
  | more (p : Partial)
  | invalid
  deriving DecidableEq, Repr

/-- The first bytes of characters. The overlong forms, the surrogates and the numbers beyond the
last character are cut off by the bounds of the second byte. -/
def lead (b : UInt8) : Lead :=
  if b < 0x80 then .char (Char.ofNat b.toNat)
  else if b < 0xC2 then .invalid
  else if b < 0xE0 then .more ⟨b.toNat - 0xC0, 1, 0x80, 0xBF⟩
  else if b = 0xE0 then .more ⟨0, 2, 0xA0, 0xBF⟩
  else if b = 0xED then .more ⟨0xD, 2, 0x80, 0x9F⟩
  else if b < 0xF0 then .more ⟨b.toNat - 0xE0, 2, 0x80, 0xBF⟩
  else if b = 0xF0 then .more ⟨0, 3, 0x90, 0xBF⟩
  else if b < 0xF4 then .more ⟨b.toNat - 0xF0, 3, 0x80, 0xBF⟩
  else if b = 0xF4 then .more ⟨4, 3, 0x80, 0x8F⟩
  else .invalid

/-- The characters scanned so far, in reverse, and the one under way. -/
structure Scan where
  chars : List Char
  pending : Option Partial
  deriving DecidableEq, Repr

/-- A byte between characters. -/
def Scan.start (chars : List Char) (b : UInt8) : Scan :=
  match lead b with
  | .char c => ⟨c :: chars, none⟩
  | .more p => ⟨chars, some p⟩
  | .invalid => ⟨Utf16.replacement :: chars, none⟩

/-- One byte. A byte out of bounds ends the character under way and is then read afresh. -/
def Scan.step (s : Scan) (b : UInt8) : Scan :=
  match s.pending with
  | none => .start s.chars b
  | some p =>
    if p.low ≤ b ∧ b ≤ p.high then
      let bits := p.bits * 64 + (b.toNat - 0x80)
      if p.owed ≤ 1 then ⟨Char.ofNat bits :: s.chars, none⟩
      else ⟨s.chars, some ⟨bits, p.owed - 1, 0x80, 0xBF⟩⟩
    else .start (Utf16.replacement :: s.chars) b

/-- A character still under way at the end was never completed. -/
def Scan.finish (s : Scan) : List Char :=
  match s.pending with
  | none => s.chars.reverse
  | some _ => (Utf16.replacement :: s.chars).reverse

/-- The characters of any sequence of bytes. -/
def lossyChars (bytes : List UInt8) : List Char := (bytes.foldl Scan.step ⟨[], none⟩).finish

/-- The text of any sequence of bytes. -/
def lossy (bytes : List UInt8) : String := String.ofList (lossyChars bytes)

/-- The text of a sequence of bytes that is UTF-8 throughout, else nothing. -/
def decode? (bytes : List UInt8) : Option String :=
  let s := lossy bytes
  if encode s = bytes then some s else none

end Wireform.Utf8
