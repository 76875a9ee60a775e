import ContextFree.Edit
import ContextFree.Names

/-!
# Splitting long bodies

A body of more than two symbols is split into a chain of bodies of two: `S → ABCD` becomes
`S → AX`, `X → BY` and `Y → CD`. The nonterminals in between stand for the rest of the body. One
that already stands for that rest, as its only body, is used instead of a fresh one, and then
the chain ends there.
-/

namespace ContextFree

/-- The edits that give a head a long body in parts. Without a result, no nonterminal was left
for the next part. -/
def splitBody (names : Names) (head : Symbol) : Form → List Edit × Option Names
  | s :: t :: u :: rest =>
    match names.find? (t :: u :: rest) with
    | some v => ([.add ⟨head, [s, v]⟩], some names)
    | none =>
      match names.take? (t :: u :: rest) with
      | some (v, names) =>
        let (edits, result) := splitBody names v (t :: u :: rest)
        (.add ⟨head, [s, v]⟩ :: edits, result)
      | none => ([], none)
  | body => ([.add ⟨head, body⟩], some names)

/-- The edits that split productions one after the other, and what made them stop. -/
def splitProductions (names : Names) : List Production → List Edit × Option Exhausted
  | [] => ([], none)
  | p :: ps =>
    match splitBody names p.head p.body with
    | (edits, some names) =>
      let (more, failure) := splitProductions names ps
      (.remove p :: edits ++ more, failure)
    | (edits, none) => (.remove p :: edits, some (.splitting p))

namespace Grammar

/-- The productions with more than two symbols in their body. -/
def longProductions (g : Grammar) : List Production :=
  g.listing.filter fun p => decide (2 < p.body.length)

/-- Splits all bodies of more than two symbols. Fails if the nonterminals do not suffice. -/
def binarize (g : Grammar) : Logged (Except Exhausted Grammar) :=
  let stage := Stage.binarize
  let long := g.longProductions
  if long.isEmpty then (stage.skip [] g).map .ok
  else
    match splitProductions (Names.ofGrammar g) long with
    | (edits, none) => (stage.perform [] edits g).map .ok
    | (edits, some e) => stage.abandon [] edits g e

end Grammar

end ContextFree
