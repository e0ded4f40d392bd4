import Wireform.Text.Scanner
import Wireform.Toml.Node

/-!
# Numbers, truth values and times

A bare value is the longest run of the characters such values are made of, and it is a number, a
truth value or a time as a whole or not at all. Digits may be grouped by single underscores.
Integers are signed 64-bit numbers; a floating point number may not overflow to positive infinity.
A date and a time of day may be joined by a space.
-/

namespace Wireform.Toml.Literal

/-- The characters of bare values. -/
def isPart (c : Char) : Bool := c.isAlphanum || c = '_' || c = '+' || c = '-' || c = '.' || c = ':'

/-- The digits of a run in which single underscores may stand between two digits. -/
def ungroup (isDigit : Char → Bool) : (afterDigit : Bool) → List Char → Option (List Char)
  | afterDigit, [] => if afterDigit then some [] else none
  | afterDigit, c :: rest =>
    if isDigit c then (ungroup isDigit true rest).map (c :: ·)
    else if c = '_' && afterDigit then ungroup isDigit false rest
    else none

/-- A sign, and the characters behind it. -/
def sign : List Char → Bool × List Char
  | '-' :: rest => (true, rest)
  | '+' :: rest => (false, rest)
  | s => (false, s)

/-- The digits of a decimal number: zero alone may begin with a zero. -/
def decimalDigits? (s : List Char) : Option (List Char) :=
  match s with
  | ['0'] => some s
  | '0' :: _ => none
  | _ => ungroup Char.isDigit false s

/-- The number in digits of some base. -/
def ofDigits (base : Nat) (digits : List Char) : Nat :=
  digits.foldl (fun n c => n * base + (Scanner.hexValue? c).getD 0) 0

/-- Whether a character is a digit of a base up to sixteen. -/
def isDigitOf (base : Nat) (c : Char) : Bool := (Scanner.hexValue? c).any (· < base)

/-- A number that a signed 64-bit integer can hold. -/
def int64? (n : Int) : Option Int :=
  if -0x8000000000000000 ≤ n ∧ n ≤ 0x7FFFFFFFFFFFFFFF then some n else none

/-- An integer, to base ten with a sign or to base sixteen, eight or two without. -/
def integer? (s : List Char) : Option Int :=
  let based (base : Nat) (s : List Char) : Option Int := do
    int64? (ofDigits base (← ungroup (isDigitOf base) false s))
  match s with
  | '0' :: 'x' :: rest => based 16 rest
  | '0' :: 'o' :: rest => based 8 rest
  | '0' :: 'b' :: rest => based 2 rest
  | s => do
    let (negative, rest) := sign s
    let n := ofDigits 10 (← decimalDigits? rest)
    int64? (if negative then -n else n)

/-- The least number that is rounded to infinity in double precision. -/
def overflow : Nat := Nat.pow 2 1024 - Nat.pow 2 970

/-- Whether `digits * 10 ^ exponent` is rounded to infinity. The number of digits before the point
decides it, except for numbers of 309 or 310 of them. -/
def overflows (digits : List Char) (exponent : Int) : Bool :=
  let digits := digits.dropWhile (· = '0')
  let width := (digits.length : Int) + exponent
  let n := ofDigits 10 digits
  if digits.isEmpty || width < 309 then false
  else if 310 < width then true
  else if 0 ≤ exponent then overflow ≤ n * Nat.pow 10 exponent.toNat
  else overflow * Nat.pow 10 (-exponent).toNat ≤ n

/-- Whether these characters are a floating point number: a decimal number with a fraction, an
exponent or both, or an infinity or a NaN by name. -/
def isFloat (s : List Char) : Bool :=
  let (negative, s) := sign s
  if s = ['i', 'n', 'f'] || s = ['n', 'a', 'n'] then true
  else
    let (whole, s) := s.span fun c => c.isDigit || c = '_'
    let (point, s) := match s with
      | '.' :: rest => (true, rest)
      | s => (false, s)
    let (fraction, s) := if point then s.span fun c => c.isDigit || c = '_' else ([], s)
    let (mark, s) := match s with
      | 'e' :: rest => (true, rest)
      | 'E' :: rest => (true, rest)
      | s => (false, s)
    let (below, power) := sign s
    match decimalDigits? whole, ungroup Char.isDigit (!point) fraction,
        ungroup Char.isDigit (!mark) power with
    | some w, some f, some p =>
      (point || mark) && (mark || s.isEmpty) &&
        (negative ||
          let p : Int := ofDigits 10 p
          !overflows (w ++ f) ((if below then -p else p) - f.length))
    | _, _, _ => false

/-! ### Times -/

/-- The number in two digits, if it is in a range. -/
def twoDigits? (low high : Nat) (a b : Char) : Option Nat :=
  if a.isDigit && b.isDigit then
    let n := ofDigits 10 [a, b]
    if low ≤ n ∧ n ≤ high then some n else none
  else none

/-- The days of a month. -/
def daysIn (year month : Nat) : Nat :=
  if month = 2 then
    if year % 4 = 0 ∧ (year % 100 ≠ 0 ∨ year % 400 = 0) then 29 else 28
  else if month ∈ [4, 6, 9, 11] then 30
  else 31

/-- What is behind a date. -/
def date? : List Char → Option (List Char)
  | y₁ :: y₂ :: y₃ :: y₄ :: '-' :: m₁ :: m₂ :: '-' :: d₁ :: d₂ :: rest => do
    if !([y₁, y₂, y₃, y₄].all Char.isDigit) then failure
    let month ← twoDigits? 1 12 m₁ m₂
    let _ ← twoDigits? 1 (daysIn (ofDigits 10 [y₁, y₂, y₃, y₄]) month) d₁ d₂
    return rest
  | _ => none

/-- What is behind a time of day. -/
def clock? : List Char → Option (List Char)
  | h₁ :: h₂ :: ':' :: m₁ :: m₂ :: ':' :: s₁ :: s₂ :: rest => do
    let _ ← twoDigits? 0 23 h₁ h₂
    let _ ← twoDigits? 0 59 m₁ m₂
    let _ ← twoDigits? 0 60 s₁ s₂
    match rest with
    | '.' :: d :: rest => if d.isDigit then return rest.dropWhile Char.isDigit else failure
    | rest => return rest
  | _ => none

/-- Whether these characters are an offset from universal time, or nothing. -/
def isOffset : List Char → Bool
  | [] => true
  | ['Z'] => true
  | ['z'] => true
  | [s, h₁, h₂, ':', m₁, m₂] =>
    (s = '+' || s = '-') && (twoDigits? 0 23 h₁ h₂).isSome && (twoDigits? 0 59 m₁ m₂).isSome
  | _ => false

/-- Whether these characters are a time of day with or without an offset. -/
def isClock (s : List Char) : Bool := (clock? s).any isOffset

/-- Whether these characters are a date. -/
def isDate (s : List Char) : Bool := (date? s).any List.isEmpty

/-- Whether these characters are a date with or without a time of day, or a time of day alone. -/
def isTime (s : List Char) : Bool :=
  (match date? s with
    | some [] => true
    | some ('T' :: rest) => isClock rest
    | some ('t' :: rest) => isClock rest
    | _ => false) || (clock? s).any List.isEmpty

/-! ### Bare values -/

/-- The value that is written in these characters. -/
def classify (s : List Char) : Option Node :=
  if s = ['t', 'r', 'u', 'e'] then some (.boolean true)
  else if s = ['f', 'a', 'l', 's', 'e'] then some (.boolean false)
  else if isTime s then some (.time (String.ofList s))
  else if isFloat s then some (.float (String.ofList s))
  else (integer? s).map .integer

/-- A bare value. -/
def scan : Scanner Node := do
  let s ← Scanner.takeWhile isPart
  match classify s with
  | none => throw "value expected"
  | some n =>
    if isDate s then
      match ← Scanner.rest with
      | ' ' :: rest =>
        let (clock, rest) := rest.span isPart
        if isClock clock then
          set rest
          return .time (String.ofList (s ++ ' ' :: clock))
        return n
      | _ => return n
    return n

end Wireform.Toml.Literal
