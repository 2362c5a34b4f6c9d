/-
Generics.TypeExpr.Basic — type expressions and their written form.

A type expression is a name with a list of arguments, as in
`Dictionary<string, List<T>>`. A name without arguments stands alone.
-/
import Generics.Text.Listing

namespace Generics

/-- A name applied to arguments; no arguments, no brackets. -/
inductive TypeExpr where
  | mk (name : String) (args : List TypeExpr)
  deriving Repr

namespace TypeExpr

/-- The name at the head. -/
def name : TypeExpr → String
  | mk name _ => name

/-- The arguments in the order written. -/
def args : TypeExpr → List TypeExpr
  | mk _ args => args

mutual

/-- The written form: the name, then the arguments in brackets. -/
def render : TypeExpr → String
  | mk name args => name ++ Text.bracketed (renderAll args)

/-- The written forms of several expressions. -/
def renderAll : List TypeExpr → List String
  | [] => []
  | e :: rest => render e :: renderAll rest

end

mutual

/-- How deep brackets nest in the written form; a bare name has none. -/
def nesting : TypeExpr → Nat
  | mk _ [] => 0
  | mk _ (e :: rest) => max (nesting e) (nestingAll rest) + 1

/-- The greatest nesting among several expressions. -/
def nestingAll : List TypeExpr → Nat
  | [] => 0
  | e :: rest => max (nesting e) (nestingAll rest)

end

end TypeExpr

end Generics
