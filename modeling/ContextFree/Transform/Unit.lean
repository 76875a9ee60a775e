import ContextFree.Closure
import ContextFree.Edit

/-!
# Eliminating unit productions

A unit production leads from a nonterminal to another one. Every nonterminal inherits the other
bodies of those to which chains of unit productions lead, and the unit productions are removed.
What is inherited is read off the grammar before anything is added to it.
-/

namespace ContextFree.Grammar

/-- The productions that nonterminals inherit, given which nonterminals each of them reaches
through unit productions. -/
def inherited (g : Grammar) (closure : List (Symbol × SortedSet Symbol)) : List Production :=
  closure.flatMap fun (a, reached) =>
    reached.toList.flatMap fun b =>
      ((g.bodies b).filter fun body => (Production.mk b body).unit?.isNone).map (Production.mk a)

/-- The unit productions, by head and then by symbol, both in alphabet order. -/
def unitProductions (g : Grammar) : List Production :=
  let links := g.unitLinks
  let targets := g.unitTargets
  g.unitHeads.toList.flatMap fun a =>
    (targets.filter fun b => links.contains (a, b)).toList.map fun b => ⟨a, [b]⟩

/-- Removes the unit productions. -/
def eliminateUnits (g : Grammar) : Logged Grammar :=
  let stage := Stage.eliminateUnits
  let closure := g.unitClosure
  if closure.isEmpty then stage.skip [] g
  else
    stage.perform (closure.map fun (a, reached) => Action.computed (.unitClosure a) reached)
      ((g.inherited closure).map Edit.add ++ g.unitProductions.map Edit.remove) g

end ContextFree.Grammar
