import Wireform.Text.Scanner

/-!
# JSON values

A reader of JSON that keeps numbers and strings as they are written, so that a value nobody looks
at is only checked for its shape, and the text of a string is decoded when it is asked for. The
writer escapes what it must: quotes, backslashes and control characters.
-/

namespace Wireform

/-- A value; `string` holds the characters between the quotes, escapes included. -/
inductive Json where
  | null
  | bool (b : Bool)
  | number (literal : List Char)
  | string (raw : List Char)
  | array (items : List Json)
  | object (members : List (List Char × Json))
  deriving Inhabited

namespace Json

/-! ### Strings -/

/-- What a one-letter escape stands for. -/
def unescape? : Char → Option Char
  | '"' => some '"'
  | '\\' => some '\\'
  | '/' => some '/'
  | 'b' => some '\x08'
  | 'f' => some '\x0c'
  | 'n' => some '\n'
  | 'r' => some '\r'
  | 't' => some '\t'
  | _ => none

/-- The number in four hexadecimal digits. -/
def unit? (a b c d : Char) : Option Nat := do
  return (← Scanner.hexValue? a) * 4096 + (← Scanner.hexValue? b) * 256 +
    (← Scanner.hexValue? c) * 16 + (← Scanner.hexValue? d)

/-- The text of a string. The halves of surrogate pairs have to stand in pairs. -/
def decodeLoop (acc : List Char) : List Char → Option (List Char)
  | '\\' :: 'u' :: a :: b :: c :: d :: '\\' :: 'u' :: e :: f :: g :: h :: rest => do
    let high ← unit? a b c d
    if high < 0xD800 ∨ 0xDFFF < high then
      decodeLoop (Char.ofNat high :: acc) ('\\' :: 'u' :: e :: f :: g :: h :: rest)
    else
      let low ← unit? e f g h
      if high < 0xDC00 ∧ 0xDC00 ≤ low ∧ low ≤ 0xDFFF then
        decodeLoop (Char.ofNat (0x10000 + (high - 0xD800) * 0x400 + (low - 0xDC00)) :: acc) rest
      else none
  | '\\' :: 'u' :: a :: b :: c :: d :: rest => do
    let unit ← unit? a b c d
    if unit < 0xD800 ∨ 0xDFFF < unit then decodeLoop (Char.ofNat unit :: acc) rest else none
  | '\\' :: c :: rest => do decodeLoop ((← unescape? c) :: acc) rest
  | c :: rest => decodeLoop (c :: acc) rest
  | [] => some acc.reverse

/-- The text of a string as it is written. -/
def decode? (raw : List Char) : Option String := (decodeLoop [] raw).map String.ofList

/-- The characters of a string up to the closing quote. -/
def rawLoop (acc : List Char) : List Char → Except String (List Char × List Char)
  | '"' :: rest => .ok (acc.reverse, rest)
  | '\\' :: 'u' :: a :: b :: c :: d :: rest =>
    match unit? a b c d with
    | some _ => rawLoop (d :: c :: b :: a :: 'u' :: '\\' :: acc) rest
    | none => .error "hexadecimal digit expected"
  | '\\' :: c :: rest =>
    match unescape? c with
    | some _ => rawLoop (c :: '\\' :: acc) rest
    | none => .error "unknown escape"
  | c :: rest => if c < ' ' then .error "control character" else rawLoop (c :: acc) rest
  | [] => .error "unclosed string"

/-! ### Reading -/

def isSpace (c : Char) : Bool := c = ' ' || c = '\t' || c = '\n' || c = '\r'

def space : Scanner Unit := do
  let _ ← Scanner.takeWhile isSpace

/-- At least one digit. -/
def digits : Scanner (List Char) := do
  match ← Scanner.takeWhile Char.isDigit with
  | [] => throw "digit expected"
  | ds => return ds

/-- A number: no zero before other digits, digits on both sides of a point. -/
def numberLiteral : Scanner Json := do
  let sign := if ← Scanner.skip? ['-'] then ['-'] else []
  let whole ← digits
  if whole.head? = some '0' ∧ 1 < whole.length then throw "leading zero"
  let fraction ← if ← Scanner.skip? ['.'] then do pure ('.' :: (← digits)) else pure []
  let e ← Scanner.skip? ['e']
  let e ← if e then pure true else Scanner.skip? ['E']
  let exponent ← if e then do
      let below ← Scanner.skip? ['-']
      let _ ← if below then pure false else Scanner.skip? ['+']
      pure ('e' :: (if below then ['-'] else []) ++ (← digits))
    else pure []
  return .number (sign ++ whole ++ fraction ++ exponent)

/-- A string as it is written. -/
def rawString : Scanner (List Char) := do
  Scanner.expect '"'
  Scanner.ofFunction (rawLoop [])

/-- The items of an array and its closing bracket. -/
def items (value : Scanner Json) (fuel : List Char) (acc : List Json) : Scanner Json := do
  let item ← value
  space
  match ← Scanner.peek?, fuel with
  | some ',', _ :: fuel =>
    Scanner.advance
    items value fuel (item :: acc)
  | _, _ =>
    Scanner.expect ']'
    return .array (item :: acc).reverse
termination_by structural fuel

/-- The members of an object and its closing brace. -/
def members (value : Scanner Json) (fuel : List Char) (acc : List (List Char × Json)) :
    Scanner Json := do
  space
  let key ← rawString
  space
  Scanner.expect ':'
  let item ← value
  space
  match ← Scanner.peek?, fuel with
  | some ',', _ :: fuel =>
    Scanner.advance
    members value fuel ((key, item) :: acc)
  | _, _ =>
    Scanner.expect '\x7d'
    return .object ((key, item) :: acc).reverse
termination_by structural fuel

/-- A word without quotes. -/
def word (s : List Char) (v : Json) : Scanner Json := do
  if ← Scanner.skip? s then return v
  throw "value expected"

/-- A value. The characters at hand bound how deep values nest. -/
def value (fuel : List Char) : Scanner Json := do
  space
  match ← Scanner.peek?, fuel with
  | some '[', _ :: fuel =>
    Scanner.advance
    space
    if ← Scanner.skip? [']'] then return .array []
    items (value fuel) (← Scanner.rest) []
  | some '\x7b', _ :: fuel =>
    Scanner.advance
    space
    if ← Scanner.skip? ['\x7d'] then return .object []
    members (value fuel) (← Scanner.rest) []
  | some '"', _ => return .string (← rawString)
  | some 'n', _ => word ['n', 'u', 'l', 'l'] .null
  | some 't', _ => word ['t', 'r', 'u', 'e'] (.bool true)
  | some 'f', _ => word ['f', 'a', 'l', 's', 'e'] (.bool false)
  | _, _ => numberLiteral
termination_by structural fuel

/-- The value of a whole text. -/
def parse (s : String) : Except String Json :=
  Scanner.readAll (do
    let v ← value s.toList
    space
    return v) s.toList

/-! ### Writing -/

/-- A character of a string, escaped if it has to be. -/
def escape (c : Char) : List Char :=
  match c with
  | '"' => ['\\', '"']
  | '\\' => ['\\', '\\']
  | '\x08' => ['\\', 'b']
  | '\x0c' => ['\\', 'f']
  | '\n' => ['\\', 'n']
  | '\r' => ['\\', 'r']
  | '\t' => ['\\', 't']
  | c =>
    if c < ' ' then
      ['\\', 'u', '0', '0', Nat.digitChar (c.toNat / 16), Nat.digitChar (c.toNat % 16)]
    else [c]

/-- The characters of a string between its quotes. -/
def encode (s : String) : List Char := s.toList.flatMap escape

/-- A string between quotes. -/
def quote (s : String) : String := "\"" ++ String.ofList (encode s) ++ "\""

end Json

end Wireform
