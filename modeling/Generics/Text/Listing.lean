/-
Generics.Text.Listing — lists as they stand in a line of text.
-/
namespace Generics.Text

/-- The items with a comma and a space between neighbours. -/
def commaSeparated (items : List String) : String :=
  ", ".intercalate items

/-- The items in angle brackets; nothing at all where there are none. -/
def bracketed : List String → String
  | [] => ""
  | items => "<" ++ commaSeparated items ++ ">"

/-- The text between backticks, as messages set off a name. -/
def ticked (text : String) : String :=
  "`" ++ text ++ "`"

end Generics.Text
