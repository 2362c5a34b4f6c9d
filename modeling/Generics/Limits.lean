/-
Generics.Limits — the two numbers that keep a catalogue of types finite.

Substituting arguments into an inherited type can produce a larger type, which
inherits a larger type again. The nesting limit cuts that growth in depth and
the application limit cuts it in number, so finishing a catalogue always ends.
-/
namespace Generics.Limits

/-- The deepest nesting of applications that may be built: `A<A<…>>` with fifty levels is
the last one allowed (`MAX_INSTANTIATION_DEPTH`). Type expressions share this limit. -/
def nesting : Nat := 50

/-- The number of distinct applications that one catalogue may hold (`MAX_INSTANTIATIONS`). -/
def applications : Nat := 100000

end Generics.Limits
