import Wireform.Fault

/-!
# Decoders

A decoder works on the readable bytes of a buffer and leaves what it did not consume, both when it
succeeds and when it fails: what is left after a failure shows where the cursor stopped. Numbers of
more than one byte are big-endian.
-/

namespace Wireform

/-- A string of bytes. -/
abbrev Bytes := List UInt8

namespace Bytes

/-- The number whose big-endian digits to base 256 are these bytes. -/
def value (bytes : Bytes) : Nat := bytes.foldl (fun n b => n * 256 + b.toNat) 0

/-- The last `width` big-endian digits of a number to base 256. -/
def ofNat : Nat → Nat → Bytes
  | 0, _ => []
  | width + 1, n => ofNat width (n / 256) ++ [UInt8.ofNat n]

@[simp] theorem length_ofNat (width n : Nat) : (ofNat width n).length = width := by
  induction width generalizing n with
  | zero => rfl
  | succ width ih => simp [ofNat, ih]

end Bytes

/-- Reads from the front of the readable bytes. -/
abbrev Decoder := EStateM Fault Bytes

namespace Decoder

/-- The next `n` bytes, or an underflow that consumes nothing. -/
def take (n : Nat) : Decoder Bytes := fun bytes =>
  let (front, back) := bytes.splitAt n
  let available := front.length
  if available = n then .ok front back else .error (.underflow n available) bytes

/-- The next byte. -/
def byte : Decoder UInt8
  | [] => .error (.underflow 1 0) []
  | b :: rest => .ok b rest

/-- The next byte, left where it is. -/
def peek : Decoder UInt8
  | [] => .error (.underflow 1 0) []
  | b :: rest => .ok b (b :: rest)

/-- Passes over `n` bytes. -/
def skip (n : Nat) : Decoder Unit := do
  let _ ← take n

/-- The number of bytes left. -/
def available : Decoder Nat := do return (← get).length

/-- The number in the next `width` bytes. -/
def number (width : Nat) : Decoder Nat := do return (← take width).value

/-- The results of `n` runs in a row. -/
def replicate (n : Nat) (d : Decoder α) : Decoder (List α) := go n []
where
  go : Nat → List α → Decoder (List α)
  | 0, acc => return acc.reverse
  | n + 1, acc => do go n ((← d) :: acc)

end Decoder

end Wireform
