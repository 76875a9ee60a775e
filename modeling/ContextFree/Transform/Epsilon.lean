import ContextFree.Edit
import ContextFree.Erasure
import ContextFree.Names

/-!
# Eliminating empty bodies

Every body is joined by what is left of it when nullable symbols are left out, and the empty
bodies are removed. Only the start symbol may keep one, and only if it occurs in no body:
otherwise a new start symbol takes the empty body and leads to the old one.
-/

namespace ContextFree.Grammar

/-- The bodies to be added because nullable symbols may be left out. The empty one, and the one
that leads a nonterminal to itself, are never needed. -/
def shortenings (g : Grammar) : List Production :=
  let nullable := g.nullable
  g.listing.flatMap fun p =>
    ((Marking.erasures (fun s => decide (s ∈ nullable)) p.body).filter
      fun body => !body.isEmpty && body != [p.head]).map (Production.mk p.head)

/-- The start symbol of the result, if the empty word is in the language: the present one if it
occurs in no body, else the reserved nonterminal or, if that is in use, a fresh one. -/
def epsilonStart (g : Grammar) : Except Exhausted Symbol :=
  if g.occurs g.start then
    let used := g.nonterminals
    if Symbol.reserved ∈ used then
      match fresh? used.toList with
      | some s => .ok s
      | none => .error (.newStart g.start)
    else .ok Symbol.reserved
  else .ok g.start

/-- The edits that let the start symbol `s` derive the empty word directly. -/
def epsilonRestart (g : Grammar) (s : Symbol) : List Edit :=
  if s = g.start then [.retain ⟨s, []⟩]
  else [.restart s, .add ⟨s, []⟩, .add ⟨s, [g.start]⟩]

/-- The edits that remove the empty bodies of all nonterminals but the start symbol `s`. -/
def epsilonRemovals (g : Grammar) (s : Symbol) : List Edit :=
  ((g.productions.toList.filter fun p => p.body.isEmpty && p.head != s)).map Edit.remove

/-- Removes the empty bodies. Fails if a new start symbol is needed and none is left. -/
def eliminateEpsilon (g : Grammar) : Logged (Except Exhausted Grammar) :=
  let stage := Stage.eliminateEpsilon
  let nullable := g.nullable
  if nullable.isEmpty then (stage.skip [] g).map .ok
  else
    let notes := [Action.computed .nullable nullable]
    let additions := g.shortenings.map Edit.add
    if g.start ∈ nullable then
      match g.epsilonStart with
      | .error e => stage.abandon notes additions g e
      | .ok s =>
        (stage.perform notes (additions ++ g.epsilonRestart s ++ g.epsilonRemovals s) g).map .ok
    else (stage.perform notes (additions ++ g.epsilonRemovals g.start) g).map .ok

end ContextFree.Grammar
