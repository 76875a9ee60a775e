import ContextFree.Closure
import ContextFree.Edit

/-!
# Removing useless nonterminals

A nonterminal is useless if it derives no word or if it can not be reached from the start
symbol. The first kind goes with every production that mentions it, the second kind with its
own productions.
-/

namespace ContextFree.Grammar

/-- The nonterminals in use that derive no word. -/
def nonGenerating (g : Grammar) : SortedSet Symbol :=
  let generating := g.generating
  g.nonterminals.filter fun a => !decide (a ∈ generating)

/-- The nonterminals in use that no form derived from the start symbol holds. -/
def unreachable (g : Grammar) : SortedSet Symbol :=
  let reachable := g.reachable
  g.nonterminals.filter fun a => !decide (a ∈ reachable)

/-- Removes every production with a nonterminal in its body that derives no word. -/
def dropNonGenerating (g : Grammar) : Logged Grammar :=
  let generating := Action.computed .generating g.generating
  let useless := g.nonGenerating
  if useless.isEmpty then Stage.dropNonGenerating.skip [generating] g
  else
    let doomed := g.listing.filter fun p => p.body.any fun s => decide (s ∈ useless)
    Stage.dropNonGenerating.perform [generating, .computed .nonGenerating useless]
      (doomed.map Edit.remove) g

/-- Removes the productions of every nonterminal that can not be reached. -/
def dropUnreachable (g : Grammar) : Logged Grammar :=
  let reachable := Action.computed .reachable g.reachable
  let useless := g.unreachable
  if useless.isEmpty then Stage.dropUnreachable.skip [reachable] g
  else
    let doomed := g.listing.filter fun p => decide (p.head ∈ useless)
    Stage.dropUnreachable.perform [reachable, .computed .unreachable useless]
      (doomed.map Edit.remove) g

end ContextFree.Grammar
