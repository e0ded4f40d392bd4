/-!
# Problems of a configuration

What a check of a configuration can find, one cause per setting and direction, and the report it
gives of each.
-/

namespace Wireform.Config

/-- The longest application name a log accepts, in bytes. -/
def maxNameBytes : Nat := 64

/-- What is wrong with a setting. -/
inductive Problem where
  | stringLimitZero
  | stringLimitTooLarge (units : Nat)
  | quotaTooSmall
  | quotaTooLarge (bytes : Nat)
  | depthZero
  | depthTooLarge (depth : Nat)
  | frameLimitZero
  | frameLimitTooLarge (bytes allowed : Nat)
  | nameEmpty
  | nameTooLong (bytes : Nat)
  deriving DecidableEq, Repr, Inhabited

def Problem.message : Problem → String
  | stringLimitZero => "Max string length must be greater than 0"
  | stringLimitTooLarge units =>
    s!"Max string length too large: {units} (raw byte bound must fit in a VarInt)"
  | quotaTooSmall => "NBT quota too small (minimum: 64 bytes)"
  | quotaTooLarge bytes => s!"NBT quota too large: {bytes} bytes (maximum recommended: 64 MB)"
  | depthZero => "NBT depth must be greater than 0"
  | depthTooLarge depth => s!"NBT depth too large: {depth} (maximum: 4096)"
  | frameLimitZero => "Max frame size cannot be 0"
  | frameLimitTooLarge bytes allowed =>
    s!"Max frame size too large: {bytes} bytes (a 3-byte length prefix allows {allowed})"
  | nameEmpty => "Application name cannot be empty"
  | nameTooLong bytes => s!"Application name too long: {bytes} characters (maximum: {maxNameBytes})"

end Wireform.Config
