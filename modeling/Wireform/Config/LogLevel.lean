import Wireform.Limits

/-!
# Sizes and log levels in text

A size is written in decimal digits, with a plus sign in front or without. A log level is written by
its name, in letters of either case, or as a number from one for errors to five for traces.
-/

namespace Wireform.Config

/-- The size written in a text, if it is addressable. -/
def parseSize? (s : String) : Option Nat :=
  let digits := match s.toList with
    | '+' :: rest => rest
    | cs => cs
  if digits.isEmpty || !digits.all Char.isDigit then none
  else
    let n := digits.foldl (fun n c => n * 10 + (c.toNat - '0'.toNat)) 0
    if n ≤ sizeMax then some n else none

/-- How much a log tells, from errors alone to everything. -/
inductive LogLevel where
  | error
  | warn
  | info
  | debug
  | trace
  deriving DecidableEq, Repr, Inhabited

namespace LogLevel

def all : List LogLevel := [.error, .warn, .info, .debug, .trace]

/-- The name of a level in a configuration. -/
def name : LogLevel → String
  | error => "error"
  | warn => "warn"
  | info => "info"
  | debug => "debug"
  | trace => "trace"

/-- The number of a level. -/
def number : LogLevel → Nat
  | error => 1
  | warn => 2
  | info => 3
  | debug => 4
  | trace => 5

/-- The level of a text. -/
def parse? (s : String) : Option LogLevel :=
  let numbered := (parseSize? s).bind fun n => all.find? (·.number = n)
  numbered <|> all.find? (·.name.toList = s.toList.map Char.toLower)

end LogLevel

end Wireform.Config
