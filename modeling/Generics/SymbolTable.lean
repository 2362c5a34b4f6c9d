/-
Generics.SymbolTable — distinct texts numbered in the order of their first use.

Each text has one symbol and each symbol one text, so two names are equal
exactly when their symbols are. Symbol 0 always stands for the empty text. A
symbol has 32 bits, so this is true of tables with at most `2 ^ 32` texts. The
names of a catalogue may be kept as symbols (`NameIndex`).
-/
import Std.Data.HashMap

namespace Generics

/-- The number that stands for a text (`Atom`). -/
structure Symbol where
  number : Nat
  deriving DecidableEq, Hashable, Repr

/-- Whether the symbol is that of the empty text. -/
def Symbol.isEmpty (s : Symbol) : Bool :=
  s.number == 0

/-- The symbol for a place among the texts: the low 32 bits of the place. -/
def Symbol.ofPlace (place : Nat) : Symbol :=
  ⟨place % UInt32.size⟩

theorem Symbol.ofPlace_of_lt {place : Nat} (h : place < UInt32.size) :
    Symbol.ofPlace place = ⟨place⟩ :=
  congrArg Symbol.mk (Nat.mod_eq_of_lt h)

/-- The texts in the order of their symbols, and the way back from a text to
its symbol (`Interner`). -/
structure SymbolTable where
  texts : Array String
  symbols : Std.HashMap String Symbol

namespace SymbolTable

/-- The table that knows the empty text only. -/
def empty : SymbolTable where
  texts := #[""]
  symbols := (∅ : Std.HashMap String Symbol).insert "" ⟨0⟩

/-- The symbol of a text, if it has been given one (`get`). -/
def find? (t : SymbolTable) (text : String) : Option Symbol :=
  t.symbols[text]?

/-- The text of a symbol, if the table has given it out (`try_resolve`). -/
def text? (t : SymbolTable) (s : Symbol) : Option String :=
  t.texts[s.number]?

/-- The text of a symbol; a symbol of another table reads as the empty text (`resolve`). -/
def text (t : SymbolTable) (s : Symbol) : String :=
  (t.text? s).getD ""

/-- The symbol of a text: the one it has, or that of the next place (`intern`). -/
def insert (t : SymbolTable) (text : String) : Symbol × SymbolTable :=
  match t.find? text with
  | some s => (s, t)
  | none =>
    let s := Symbol.ofPlace t.texts.size
    (s, { texts := t.texts.push text, symbols := t.symbols.insert text s })

/-- How many texts the table knows, the empty one included. -/
def size (t : SymbolTable) : Nat :=
  t.texts.size

/-- Whether the table knows no text but the empty one. -/
def isEmpty (t : SymbolTable) : Bool :=
  t.size ≤ 1

end SymbolTable

end Generics
