/-
Generics.LogFormat — the shapes in which a log can be written.
-/
import Generics.Text.Blank

namespace Generics

/-- How log records are laid out. -/
inductive LogFormat where
  /-- One line of text a record. -/
  | text
  /-- Records indented below the span they belong to. -/
  | tree
  /-- One JSON object a record. -/
  | json
  deriving DecidableEq, Repr

/-- The format that a setting names. Blanks around the name and the case of
its letters do not matter, and an unknown name means plain text.

Folding the case of ASCII letters only is enough: no other character has a
lower case form made of the letters of `tree` and `json`. -/
def LogFormat.ofSetting (setting : String) : LogFormat :=
  let name := (Text.trimBlanks setting.toList).map Char.toLower
  if name == "tree".toList then .tree
  else if name == "json".toList then .json
  else .text

end Generics
