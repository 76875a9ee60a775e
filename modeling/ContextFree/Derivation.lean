import ContextFree.Grammar
import ContextFree.Text.Split

/-!
# Derivations

A step replaces one occurrence of a nonterminal by one of its bodies; a form derives another if
finitely many steps lead there. The language of a nonterminal is the set of the terminal words
that it derives.

A derivation is kept as the chain of the forms it passes, first and last included. Its word is
the last of them.
-/

namespace ContextFree

namespace Grammar

/-- One production is applied at one place. -/
inductive Step (g : Grammar) : Form → Form → Prop
  | apply (left right : Form) {p : Production} (hp : p ∈ g.productions) :
    Step g (left ++ p.head :: right) (left ++ p.body ++ right)

/-- Finitely many steps lead from a form to another. -/
inductive Derives (g : Grammar) : Form → Form → Prop
  | refl (u : Form) : Derives g u u
  | step {u v w : Form} (h : Step g u v) (rest : Derives g v w) : Derives g u w

/-- The terminal word `w` is derived from the nonterminal `a`. -/
def Generates (g : Grammar) (a : Symbol) (w : Form) : Prop :=
  g.Derives [a] w ∧ ∀ s ∈ w, s.isTerminal = true

/-- The terminal word `w` is derived from the start symbol. -/
def InLanguage (g : Grammar) (w : Form) : Prop := g.Generates g.start w

theorem Derives.trans {g : Grammar} {u v w : Form} (h : g.Derives u v) (h' : g.Derives v w) :
    g.Derives u w := by
  induction h with
  | refl => exact h'
  | step hs _ ih => exact .step hs (ih h')

end Grammar

/-- The forms passed by a derivation, from the start symbol to a word. -/
abbrev Derivation := List Form

namespace Derivation

/-- The last form of a derivation. -/
def word (chain : Derivation) : Form := chain.getLastD []

/-- The text that shows a derivation, as in `S -> aS -> a`. -/
def text (chain : Derivation) : String :=
  String.ofList (Text.joinWith " -> ".toList (chain.map Form.shown))

/-- Every form follows from the one before it by a step of the grammar. -/
def Linked (g : Grammar) : Derivation → Prop
  | u :: v :: rest => g.Step u v ∧ Linked g (v :: rest)
  | _ => True

/-- A derivation of a word: a chain of steps from the start symbol to it. -/
structure Proves (g : Grammar) (chain : Derivation) (w : Form) : Prop where
  head : chain.head? = some [g.start]
  last : chain.getLast? = some w
  linked : Linked g chain

end Derivation

end ContextFree
