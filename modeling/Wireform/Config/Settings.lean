import Wireform.Config.LogLevel
import Wireform.Config.Problem

/-!
# Settings

A configuration holds the limits of the codec and the settings of the log. `problems` lists what is
wrong with it, setting by setting: with none of these problems the raw length bound of every string
fits a variable-length integer and every frame can declare its length. The smallest quota without a
problem is less than the smallest tree is charged.
-/

namespace Wireform.Config

/-- A problem if a setting is out of its range, on the one side or the other. -/
def outOfRange (low : Bool) (tooLow : Problem) (high : Bool) (tooHigh : Problem) : List Problem :=
  if low then [tooLow] else if high then [tooHigh] else []

/-- The limits of the codec. -/
structure CodecSettings where
  /-- The longest string, in UTF-16 units. -/
  stringUnits : Nat
  /-- The charge one tree of tags may run up. -/
  nbtQuota : Nat
  /-- The deepest nesting of one tree of tags. -/
  nbtDepth : Nat
  /-- The longest frame. -/
  maxFrame : Nat
  deriving DecidableEq, Repr

namespace CodecSettings

def standard : CodecSettings where
  stringUnits := Limits.defaultStringUnits
  nbtQuota := Limits.defaultNbtQuota
  nbtDepth := Limits.defaultNbtDepth
  maxFrame := maxFrameBytes

instance : Inhabited CodecSettings := ⟨standard⟩

/-- The limits of the buffers built with these settings. -/
def limits (s : CodecSettings) : Limits := ⟨s.stringUnits, s.nbtQuota, s.nbtDepth⟩

/-- The longest string whose bound in bytes, four for each unit, fits a positive 32-bit number. -/
def maxStringUnits : Nat := 0x7FFFFFFF / 4

def minQuota : Nat := 64

def maxQuota : Nat := 64 * 1024 * 1024

def maxDepth : Nat := 4096

def problems (s : CodecSettings) : List Problem :=
  outOfRange (s.stringUnits = 0) .stringLimitZero
      (maxStringUnits < s.stringUnits) (.stringLimitTooLarge s.stringUnits) ++
    outOfRange (s.nbtQuota < minQuota) .quotaTooSmall
      (maxQuota < s.nbtQuota) (.quotaTooLarge s.nbtQuota) ++
    outOfRange (s.nbtDepth = 0) .depthZero
      (maxDepth < s.nbtDepth) (.depthTooLarge s.nbtDepth) ++
    outOfRange (s.maxFrame = 0) .frameLimitZero
      (maxFrameBytes < s.maxFrame) (.frameLimitTooLarge s.maxFrame maxFrameBytes)

end CodecSettings

/-- The settings of the log. -/
structure LogSettings where
  appName : String
  level : LogLevel
  json : Bool
  deriving DecidableEq, Repr

namespace LogSettings

def standard : LogSettings := ⟨"packet-bridge", .info, false⟩

instance : Inhabited LogSettings := ⟨standard⟩

/-- The length of a name is counted in bytes. -/
def problems (s : LogSettings) : List Problem :=
  outOfRange s.appName.isEmpty .nameEmpty
    (maxNameBytes < s.appName.utf8ByteSize) (.nameTooLong s.appName.utf8ByteSize)

end LogSettings

end Wireform.Config
