import ContextFree.Grammar

/-!
# Fresh nonterminals

Some transformations need new nonterminals. They are taken from the alphabet in order, skipping
those in use and the reserved one, and the alphabet is finite: a transformation fails when none
is left.

A nonterminal is taken to stand for a body. It is not taken twice for one body, nor for a body
that a nonterminal of the grammar has as its only one: `Names` keeps account of this.
-/

namespace ContextFree

/-- What a fresh nonterminal was needed for when none was left. -/
inductive Exhausted where
  /-- Splitting a long production. -/
  | splitting (p : Production)
  /-- Isolating a terminal of a production. -/
  | isolating (s : Symbol) (p : Production)
  /-- Replacing the start symbol. -/
  | newStart (s : Symbol)
deriving DecidableEq

/-- The message that reports the lack. -/
def Exhausted.message : Exhausted → String
  | splitting p => "nonterminal pool exhausted: splitting " ++ p.text
  | isolating s p => "nonterminal pool exhausted: isolating " ++ s.toString ++ " in " ++ p.text
  | newStart s => "nonterminal pool exhausted: new start symbol for " ++ s.toString

/-- The first nonterminal that is neither in use nor reserved. -/
def fresh? (used : List Symbol) : Option Symbol :=
  Symbol.nonterminals.find? fun s => s != Symbol.reserved && !used.contains s

/-- A fresh nonterminal is one, and it is neither reserved nor in use. -/
theorem of_fresh?_eq_some {used : List Symbol} {s : Symbol} (h : fresh? used = some s) :
    s.isNonterminal = true ∧ s ≠ Symbol.reserved ∧ s ∉ used := by
  have hmem := List.mem_of_find?_eq_some h
  have htest := List.find?_some h
  rw [Bool.and_eq_true, bne_iff_ne] at htest
  exact ⟨Symbol.isNonterminal_iff.2 hmem, htest.1, by simpa using htest.2⟩

/-- Which nonterminals stand for which bodies. -/
structure Names where
  /-- The productions of the grammar that are the only one of their head. -/
  established : List Production
  /-- The nonterminals taken so far, with what they stand for. -/
  given : List Production
  /-- The nonterminals that can not be taken any more. -/
  used : List Symbol

namespace Names

/-- The names before any is taken. -/
def ofGrammar (g : Grammar) : Names where
  established := g.soleProductions
  given := []
  used := g.nonterminals.toList

/-- The nonterminal that stands for a body, one taken for it before one of the grammar. -/
def find? (names : Names) (body : Form) : Option Symbol :=
  ((names.given ++ names.established).find? fun p => p.body == body).map Production.head

/-- Takes a fresh nonterminal for a body. -/
def take? (names : Names) (body : Form) : Option (Symbol × Names) :=
  (fresh? names.used).map fun s =>
    (s, { names with given := ⟨s, body⟩ :: names.given, used := s :: names.used })

/-- The nonterminal that stands for a body, taken now if there is none. -/
def get? (names : Names) (body : Form) : Option (Symbol × Names) :=
  match names.find? body with
  | some s => some (s, names)
  | none => names.take? body

end Names

end ContextFree
