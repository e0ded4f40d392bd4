import Wireform.Text.Scanner

/-!
# Quoted strings

TOML has four ways to quote a string: basic strings take escapes and literal strings do not, and
each of them may stand between single quotes or between triple ones, where line breaks are allowed.
A line break at the beginning is dropped, and every other one becomes a line feed. A backslash at
the end of a line drops the blanks and line breaks that follow. Up to two quotes may stand before
the closing three.

`quote` chooses the way a string is written: the plainest that holds it without escapes.
-/

namespace Wireform.Toml.Quoted

/-- Whether a character may stand for itself, quotes and backslashes aside. -/
def isPlain (c : Char) : Bool := c = '\t' || (' ' ≤ c && c ≠ '\x7f')

/-- What a one-letter escape stands for. -/
def unescape? : Char → Option Char
  | 'b' => some '\x08'
  | 't' => some '\t'
  | 'n' => some '\n'
  | 'f' => some '\x0c'
  | 'r' => some '\r'
  | '"' => some '"'
  | '\\' => some '\\'
  | _ => none

/-- Where reading a basic string stands. -/
inductive State where
  | text
  /-- Behind a backslash. -/
  | escape
  /-- In an escape by number: digits still owed, and the number so far. -/
  | number (owed value : Nat)
  /-- Behind a backslash and blanks: a line break is owed. -/
  | lineEnd
  /-- Dropping blanks and line breaks. -/
  | gap
  deriving DecidableEq, Repr

def unclosed : Except String α := .error "unclosed string"

/-- The number of quotes in a run that begins with the one before `rest`. -/
def runLength (quote : Char) (rest : List Char) : Nat := (rest.takeWhile (· = quote)).length + 1

/-- A run of quotes that closes a triple-quoted string: those before the closing three belong to
the string. -/
def closeTriple (quote : Char) (acc rest : List Char) : Except String (String × List Char) :=
  let run := runLength quote rest
  if run ≤ 5 then
    .ok (String.ofList (List.replicate (run - 3) quote ++ acc).reverse, rest.drop (run - 1))
  else .error "too many quotes"

/-- Reads a basic string up to its end; `acc` holds the characters read, in reverse. -/
def basicLoop (triple : Bool) : State → (acc : List Char) → List Char →
    Except String (String × List Char)
  | _, _, [] => unclosed
  | .escape, acc, c :: rest =>
    match unescape? c with
    | some d => basicLoop triple .text (d :: acc) rest
    | none =>
      if c = 'u' then basicLoop triple (.number 4 0) acc rest
      else if c = 'U' then basicLoop triple (.number 8 0) acc rest
      else if triple && (c = ' ' || c = '\t') then basicLoop triple .lineEnd acc rest
      else if triple && c = '\n' then basicLoop triple .gap acc rest
      else if triple && c = '\r' then
        match rest with
        | '\n' :: rest => basicLoop triple .gap acc rest
        | _ => .error "lone carriage return"
      else .error "unknown escape"
  | .number owed value, acc, c :: rest =>
    match Scanner.hexValue? c with
    | none => .error "hexadecimal digit expected"
    | some d =>
      let value := value * 16 + d
      if owed ≤ 1 then
        if value.isValidChar then basicLoop triple .text (Char.ofNat value :: acc) rest
        else .error "no such character"
      else basicLoop triple (.number (owed - 1) value) acc rest
  | .lineEnd, acc, c :: rest =>
    if c = ' ' || c = '\t' then basicLoop triple .lineEnd acc rest
    else if c = '\n' then basicLoop triple .gap acc rest
    else if c = '\r' then
      match rest with
      | '\n' :: rest => basicLoop triple .gap acc rest
      | _ => .error "lone carriage return"
    else .error "unknown escape"
  | state, acc, c :: rest =>
    if state = .gap && (c = ' ' || c = '\t' || c = '\n') then basicLoop triple .gap acc rest
    else if triple && c = '\r' then
      match rest with
      | '\n' :: rest =>
        if state = .gap then basicLoop triple .gap acc rest
        else basicLoop triple .text ('\n' :: acc) rest
      | _ => .error "lone carriage return"
    else if triple && c = '\n' then basicLoop triple .text ('\n' :: acc) rest
    else if c = '\\' then basicLoop triple .escape acc rest
    else if c = '"' then
      if !triple then .ok (String.ofList acc.reverse, rest)
      else if 3 ≤ runLength '"' rest then closeTriple '"' acc rest
      else basicLoop triple .text ('"' :: acc) rest
    else if isPlain c then basicLoop triple .text (c :: acc) rest
    else .error "control character"

/-- Reads a literal string up to its end. -/
def literalLoop (triple : Bool) : (acc : List Char) → List Char →
    Except String (String × List Char)
  | _, [] => unclosed
  | acc, c :: rest =>
    if triple && c = '\r' then
      match rest with
      | '\n' :: rest => literalLoop triple ('\n' :: acc) rest
      | _ => .error "lone carriage return"
    else if triple && c = '\n' then literalLoop triple ('\n' :: acc) rest
    else if c = '\'' then
      if !triple then .ok (String.ofList acc.reverse, rest)
      else if 3 ≤ runLength '\'' rest then closeTriple '\'' acc rest
      else literalLoop triple ('\'' :: acc) rest
    else if isPlain c then literalLoop triple (c :: acc) rest
    else .error "control character"

/-- Drops the line break at the beginning of a triple-quoted string. -/
def dropFirstBreak : List Char → List Char
  | '\n' :: rest => rest
  | '\r' :: '\n' :: rest => rest
  | s => s

/-- A string in single quotes of either kind. -/
def single : Scanner String := Scanner.ofFunction fun
  | '"' :: rest => basicLoop false .text [] rest
  | '\'' :: rest => literalLoop false [] rest
  | _ => .error "string expected"

/-- A string in quotes of any kind. -/
def any : Scanner String := Scanner.ofFunction fun
  | '"' :: '"' :: '"' :: rest => basicLoop true .text [] (dropFirstBreak rest)
  | '\'' :: '\'' :: '\'' :: rest => literalLoop true [] (dropFirstBreak rest)
  | '"' :: rest => basicLoop false .text [] rest
  | '\'' :: rest => literalLoop false [] rest
  | _ => .error "string expected"

/-! ### Writing -/

/-- What the choice of quotes depends on. -/
structure Needs where
  /-- The longest run of double quotes. -/
  doubles : Nat
  /-- The longest run of single quotes. -/
  singles : Nat
  backslash : Bool
  lineBreak : Bool
  /-- A character that only an escape can give, line breaks aside. -/
  control : Bool

/-- The longest run of a character. -/
def longestRun (q : Char) (s : List Char) : Nat :=
  (s.foldl (fun (best, run) c => if c = q then (max best (run + 1), run + 1) else (best, 0))
    (0, 0)).1

/-- Looks a string over. -/
def needs (s : List Char) : Needs where
  doubles := longestRun '"' s
  singles := longestRun '\'' s
  backslash := s.contains '\\'
  lineBreak := s.contains '\n'
  control := s.any fun c => !isPlain c && c ≠ '\n'

/-- The digits of a character in an escape by number. -/
def numberEscape (c : Char) : List Char :=
  ['\\', 'u', '0', '0', (Nat.digitChar (c.toNat / 16)).toUpper,
    (Nat.digitChar (c.toNat % 16)).toUpper]

/-- The inside of a basic string. Between triple quotes line feeds stand for themselves, and so do
double quotes, except that no three of them stand in a row: `run` counts those just written. -/
def basicBody (triple : Bool) : (run : Nat) → List Char → List Char
  | _, [] => []
  | run, c :: rest =>
    match c with
    | '"' =>
      if triple && run < 2 then '"' :: basicBody triple (run + 1) rest
      else '\\' :: '"' :: basicBody triple 0 rest
    | '\n' =>
      if triple then '\n' :: basicBody triple 0 rest
      else '\\' :: 'n' :: basicBody triple 0 rest
    | '\x08' => '\\' :: 'b' :: basicBody triple 0 rest
    | '\t' => '\\' :: 't' :: basicBody triple 0 rest
    | '\x0c' => '\\' :: 'f' :: basicBody triple 0 rest
    | '\r' => '\\' :: 'r' :: basicBody triple 0 rest
    | '\\' => '\\' :: '\\' :: basicBody triple 0 rest
    | c =>
      if isPlain c then c :: basicBody triple 0 rest
      else numberEscape c ++ basicBody triple 0 rest

/-- The ways to quote a string. -/
inductive Style where
  | basic
  | literal
  | tripleBasic
  | tripleLiteral
  deriving DecidableEq, Repr

/-- The plainest way to quote a string: between double quotes, single quotes or three of either,
whichever comes first that spares it escapes, and with escapes if none does. -/
def style (n : Needs) : Style :=
  if !n.control && !n.backslash && n.doubles = 0 && !n.lineBreak then .basic
  else if !n.control && n.singles = 0 && !n.lineBreak then .literal
  else if !n.control && !n.backslash && n.doubles ≤ 2 then .tripleBasic
  else if !n.control && n.singles ≤ 2 then .tripleLiteral
  else if n.lineBreak then .tripleBasic
  else .basic

/-- Writes a string. A string of several lines begins on a line of its own. -/
def quote (s : String) : String :=
  let n := needs s.toList
  let start := if n.lineBreak then "\n" else ""
  match style n with
  | .basic => "\"" ++ String.ofList (basicBody false 0 s.toList) ++ "\""
  | .literal => "'" ++ s ++ "'"
  | .tripleBasic => "\"\"\"" ++ start ++ String.ofList (basicBody true 0 s.toList) ++ "\"\"\""
  | .tripleLiteral => "'''" ++ start ++ s ++ "'''"

end Wireform.Toml.Quoted
