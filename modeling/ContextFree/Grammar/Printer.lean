import ContextFree.Grammar
import ContextFree.Text.Split

/-!
# The text of a grammar

A grammar is written one line per nonterminal, after a line that declares the start symbol:

    start: S
    S -> aSb | ε

The nonterminals come in the order of `Grammar.heads`, the bodies in lexicographic order.
-/

namespace ContextFree.Grammar

/-- The line that declares the start symbol. -/
def startLine (g : Grammar) : List Char := "start: ".toList ++ [g.start]

/-- The line with the bodies of a nonterminal. -/
def ruleLine (g : Grammar) (a : Symbol) : List Char :=
  a :: " -> ".toList ++ Text.joinWith " | ".toList ((g.bodies a).map Form.shown)

/-- The lines of the text. -/
def lines (g : Grammar) : List (List Char) := g.startLine :: g.heads.map g.ruleLine

/-- The text of a grammar; every line ends with a line break. -/
def text (g : Grammar) : String := String.ofList (g.lines.flatMap fun line => line ++ ['\n'])

end ContextFree.Grammar
