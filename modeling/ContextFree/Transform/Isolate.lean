import ContextFree.Edit
import ContextFree.Names

/-!
# Isolating terminals

A terminal in a body of two symbols is replaced by a nonterminal that derives it and nothing
else: `S → aB` becomes `S → XB` and `X → a`. A nonterminal whose only body is that terminal is
used instead of a fresh one.
-/

namespace ContextFree

/-- The body with nonterminals in place of its terminals, and the edits that make them derive
these. The failure is the terminal for which no nonterminal was left. -/
def isolateBody (names : Names) : Form → List Edit × Except Symbol (Names × Form)
  | [] => ([], .ok (names, []))
  | s :: rest =>
    if s.isTerminal then
      match names.get? [s] with
      | some (v, names) =>
        let (edits, result) := isolateBody names rest
        (.add ⟨v, [s]⟩ :: edits, result.map fun (names, body) => (names, v :: body))
      | none => ([], .error s)
    else
      let (edits, result) := isolateBody names rest
      (edits, result.map fun (names, body) => (names, s :: body))

/-- The edits that isolate the terminals of productions one after the other, and what made them
stop. -/
def isolateProductions (names : Names) : List Production → List Edit × Option Exhausted
  | [] => ([], none)
  | p :: ps =>
    match isolateBody names p.body with
    | (edits, .ok (names, body)) =>
      let (more, failure) := isolateProductions names ps
      (edits ++ .remove p :: .add ⟨p.head, body⟩ :: more, failure)
    | (edits, .error s) => (edits, some (.isolating s p))

namespace Grammar

/-- The productions with two symbols in their body of which at least one is a terminal. -/
def mixedProductions (g : Grammar) : List Production :=
  g.listing.filter fun p => p.body.length == 2 && p.body.any Symbol.isTerminal

/-- Isolates the terminals of all bodies of two symbols. Fails if the nonterminals do not
suffice. -/
def isolateTerminals (g : Grammar) : Logged (Except Exhausted Grammar) :=
  let stage := Stage.isolateTerminals
  let mixed := g.mixedProductions
  if mixed.isEmpty then (stage.skip [] g).map .ok
  else
    match isolateProductions (Names.ofGrammar g) mixed with
    | (edits, none) => (stage.perform [] edits g).map .ok
    | (edits, some e) => stage.abandon [] edits g e

end Grammar

end ContextFree
