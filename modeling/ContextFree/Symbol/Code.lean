import ContextFree.Symbol

/-!
# Symbols by number

A symbol can be named by its character code. Codes are integers, and not every integer is the
code of a character: the others are shown by the replacement character and belong to neither
alphabet. The alphabet order of symbols extends to all codes.
-/

namespace ContextFree

/-- A number that may be the code of a character. -/
abbrev Code := Int

namespace Code

/-- The symbol with a code, if the code is that of a character. -/
def symbol? (code : Code) : Option Symbol :=
  if 0 ≤ code ∧ code.toNat.isValidChar then some (Char.ofNat code.toNat) else none

/-- The text that shows a code: its character, or the replacement character. -/
def text (code : Code) : String :=
  match symbol? code with
  | some s => s.toString
  | none => "\ufffd"

/-- Whether a code names an admissible nonterminal. -/
def isNonterminal (code : Code) : Bool := (symbol? code).any Symbol.isNonterminal

/-- Whether a code names an admissible terminal. -/
def isTerminal (code : Code) : Bool := (symbol? code).any Symbol.isTerminal

/-- The place of a code in the alphabet order. Codes of no character count like characters
outside the alphabet, so that negative ones may come first. -/
def rank (code : Code) : Int :=
  match symbol? code with
  | some s => s.rank
  | none => Symbol.alphabet.length + code

/-- The different codes of a list in alphabet order. -/
def sorted (codes : List Code) : List Code :=
  codes.eraseDups.mergeSort fun a b => decide (rank a ≤ rank b)

end Code

end ContextFree
