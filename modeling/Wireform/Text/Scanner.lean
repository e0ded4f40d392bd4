/-!
# Scanners

A scanner works on the characters left of a text and fails with a reason. Loops over statements or
items take the characters at hand as their bound: whatever repeats takes at least one of them.
-/

namespace Wireform

/-- Reads from the front of the characters left. -/
abbrev Scanner := EStateM String (List Char)

namespace Scanner

/-- The next character, left where it is. -/
def peek? : Scanner (Option Char) := fun s => .ok s.head? s

/-- The characters left. -/
def rest : Scanner (List Char) := get

/-- Passes over one character. -/
def advance : Scanner Unit := modify List.tail

/-- Passes over a given character. -/
def expect (c : Char) : Scanner Unit := do
  match ← get with
  | d :: rest => if d = c then set rest else throw s!"expected {c}"
  | [] => throw s!"expected {c}"

/-- The longest run of characters of a class. -/
def takeWhile (p : Char → Bool) : Scanner (List Char) := fun s =>
  let (front, back) := s.span p
  .ok front back

/-- Passes over a given run of characters, if it is next. -/
def skip? (front : List Char) : Scanner Bool := fun s =>
  match s.splitAt front.length with
  | (found, back) => if found = front then .ok true back else .ok false s

/-- Runs a function from the characters left. -/
def ofFunction (f : List Char → Except String (α × List Char)) : Scanner α := fun s =>
  match f s with
  | .ok (a, rest) => .ok a rest
  | .error e => .error e s

/-- Reads a text to its end. -/
def readAll (d : Scanner α) (s : List Char) : Except String α :=
  match d s with
  | .ok a [] => .ok a
  | .ok _ _ => .error "characters behind the end"
  | .error e _ => .error e

/-- The value of a hexadecimal digit. -/
def hexValue? (c : Char) : Option Nat :=
  if '0' ≤ c ∧ c ≤ '9' then some (c.toNat - '0'.toNat)
  else if 'a' ≤ c ∧ c ≤ 'f' then some (c.toNat - 'a'.toNat + 10)
  else if 'A' ≤ c ∧ c ≤ 'F' then some (c.toNat - 'A'.toNat + 10)
  else none

/-- The number written in decimal digits. -/
def decimalValue (digits : List Char) : Nat :=
  digits.foldl (fun n c => n * 10 + (c.toNat - '0'.toNat)) 0

end Scanner

end Wireform
