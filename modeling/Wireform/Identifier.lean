/-!
# Identifiers

A namespaced name of a resource, as in `minecraft:stone`. In text the namespace ends at the first
colon; a text without a namespace, or with an empty one, is in the default namespace.
-/

namespace Wireform

/-- A name in a namespace. -/
structure Identifier where
  space : String
  path : String
  deriving DecidableEq, Repr, Inhabited

namespace Identifier

/-- The namespace of a text that names none. -/
def defaultSpace : String := "minecraft"

/-- The text of an identifier. -/
def display (i : Identifier) : String := i.space ++ ":" ++ i.path

/-- Splits a text at its first colon, if it has one. -/
def splitColon (s : List Char) : Option (List Char × List Char) :=
  match s.span (· ≠ ':') with
  | (_, []) => none
  | (front, _ :: back) => some (front, back)

/-- Reads the text of an identifier; every text is one. -/
def ofText (s : String) : Identifier :=
  match splitColon s.toList with
  | none => ⟨defaultSpace, s⟩
  | some ([], path) => ⟨defaultSpace, String.ofList path⟩
  | some (space, path) => ⟨String.ofList space, String.ofList path⟩

end Identifier

end Wireform
