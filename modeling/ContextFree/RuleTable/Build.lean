import ContextFree.Grammar.Build
import ContextFree.Grammar.Reader
import ContextFree.RuleTable

/-!
# Building rule tables

A table is built from rules one body at a time: the symbols of a body are checked just before it is
added. What is read from a text is first gathered, so that there is one rule for each nonterminal.
-/

namespace ContextFree.RuleTable

/-- Adds the bodies of a nonterminal, as far as their symbols belong to the alphabets. -/
def addBodies (a : Symbol) (t : RuleTable) (bodies : List Form) :
    Except InvalidSymbol RuleTable :=
  bodies.foldlM (fun t body =>
    match body.find? fun s => !s.isAdmissible with
    | some s => .error (.body s ⟨a, body⟩)
    | none => .ok (t.add ⟨a, body⟩).1) t

/-- Adds rules one after the other. -/
def addRules (t : RuleTable) (rules : List (Symbol × List Form)) :
    Except InvalidSymbol RuleTable :=
  rules.foldlM (fun t (a, bodies) =>
    if a.isNonterminal then t.addBodies a bodies else .error (.head a)) t

/-- The table of a start symbol and rules. -/
def ofRules (start : Symbol) (rules : List (Symbol × List Form)) :
    Except InvalidSymbol RuleTable :=
  if start.isNonterminal then (empty start).addRules rules else .error (.start start)

/-- The rules that are declared, those of a nonterminal taken together. -/
def declaredRules (declarations : List Declaration) : List (Symbol × List Form) :=
  let ps := Grammar.declaredProductions declarations
  (ps.map Production.head).eraseDups.map fun a =>
    (a, (ps.filter fun p => decide (p.head = a)).map Production.body)

/-- The table that a list of declarations makes. -/
def ofDeclarations (declarations : List Declaration) :
    Except (ReadError ⊕ InvalidSymbol) RuleTable :=
  match Grammar.declaredStarts declarations with
  | [] => .error (.inl .startMissing)
  | [start] => (ofRules start (declaredRules declarations)).mapError .inr
  | _ => .error (.inl .startRepeated)

/-- Reads the table from a grammar text. -/
def parse (text : String) : Except (ReadError ⊕ InvalidSymbol) RuleTable :=
  match Grammar.relevantLines text.toList with
  | [] => .error (.inl .empty)
  | lines =>
    match lines.mapM Declaration.ofLine? with
    | none => .error (.inl .malformed)
    | some declarations => ofDeclarations declarations

end ContextFree.RuleTable
