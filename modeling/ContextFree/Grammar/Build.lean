import ContextFree.Grammar
import ContextFree.Text.Quoted

/-!
# Grammars from tables of rules

A grammar can be given as a start symbol and a table of nonterminals with their bodies. Every
symbol is checked against the alphabets; the first one that does not fit is reported, the
start symbol being looked at first.
-/

namespace ContextFree

/-- Where a symbol was found that may not stand there. -/
inductive InvalidSymbol where
  /-- The start symbol is not a nonterminal. -/
  | start (s : Symbol)
  /-- The head of a rule is not a nonterminal. -/
  | head (s : Symbol)
  /-- A symbol in a body belongs to neither alphabet. -/
  | body (s : Symbol) (p : Production)
deriving DecidableEq

namespace InvalidSymbol

/-- The message that reports the symbol. -/
def message : InvalidSymbol → String
  | start s => "invalid symbol: start symbol " ++ Text.quote s.toString ++ " is not a nonterminal"
  | head s => "invalid symbol: rule key " ++ Text.quote s.toString ++ " is not a nonterminal"
  | body s p => "invalid symbol: " ++ Text.quote s.toString ++ " in rule " ++ p.text

end InvalidSymbol

namespace Grammar

/-- Checks a table of rules, in the order in which it is written, and lists its productions. -/
def checkRules : List (Symbol × List Form) → Except InvalidSymbol (List Production)
  | [] => .ok []
  | (a, bodies) :: rules =>
    if a.isNonterminal then
      match bodies.findSome? fun body =>
          (body.find? fun s => !s.isAdmissible).map fun s => (s, body) with
      | some (s, body) => .error (.body s ⟨a, body⟩)
      | none => (checkRules rules).map fun ps => bodies.map (Production.mk a) ++ ps
    else .error (.head a)

/-- The grammar of a start symbol and a table of rules. Heads and bodies may be repeated, and a
head may come without bodies. -/
def ofRules (start : Symbol) (rules : List (Symbol × List Form)) :
    Except InvalidSymbol Grammar :=
  if start.isNonterminal then
    (checkRules rules).map fun ps => { start, productions := .ofList ps }
  else .error (.start start)

end Grammar

end ContextFree
