/-!
# UTF-16

Length limits and the text of named tags count UTF-16 code units. `units` writes a text in units;
`lossy` reads units back and puts the replacement character in the place of every unit of a
surrogate pair whose other half is missing.
-/

namespace Wireform.Utf16

/-- Stands where no character could be decoded. -/
def replacement : Char := '\uFFFD'

/-- The units of a character: one below `0x10000`, a surrogate pair from there on. -/
def charUnits (c : Char) : List UInt16 :=
  if c.toNat < 0x10000 then
    [UInt16.ofNat c.toNat]
  else
    [UInt16.ofNat (0xD800 + (c.toNat - 0x10000) / 0x400),
      UInt16.ofNat (0xDC00 + (c.toNat - 0x10000) % 0x400)]

/-- The units of a text. -/
def units (s : String) : List UInt16 := s.toList.flatMap charUnits

/-- The number of units of a character. -/
def charSize (c : Char) : Nat := if c.toNat < 0x10000 then 1 else 2

/-- The number of units of a text. -/
def length (s : String) : Nat := s.toList.foldl (fun n c => n + charSize c) 0

/-- Whether a unit is the first half of a surrogate pair. -/
def isHigh (u : UInt16) : Bool := 0xD800 ≤ u && u ≤ 0xDBFF

/-- Whether a unit is the second half of a surrogate pair. -/
def isLow (u : UInt16) : Bool := 0xDC00 ≤ u && u ≤ 0xDFFF

/-- The character of a surrogate pair. -/
def pairChar (high low : UInt16) : Char :=
  Char.ofNat (0x10000 + (high.toNat - 0xD800) * 0x400 + (low.toNat - 0xDC00))

/-- The character of a unit that is no half of a pair. -/
def unitChar (u : UInt16) : Char := Char.ofNat u.toNat

/-- Reads units from left to right, the characters read so far in reverse. -/
def lossyLoop (acc : List Char) : List UInt16 → List Char
  | [] => acc.reverse
  | [u] => ((if isHigh u || isLow u then replacement else unitChar u) :: acc).reverse
  | u :: v :: rest =>
    if isHigh u then
      if isLow v then lossyLoop (pairChar u v :: acc) rest
      else lossyLoop (replacement :: acc) (v :: rest)
    else if isLow u then lossyLoop (replacement :: acc) (v :: rest)
    else lossyLoop (unitChar u :: acc) (v :: rest)

/-- The text of a sequence of units, with the replacement character for each unpaired half. -/
def lossy (us : List UInt16) : String := String.ofList (lossyLoop [] us)

end Wireform.Utf16
