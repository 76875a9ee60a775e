import ContextFree.Grammar

/-!
# Closures of a grammar

The sets of symbols that decide how a grammar can be reduced: which nonterminals generate a
word, which occur in a sentential form, which derive the empty word, and which are linked by
unit productions.

The first and the third come from saturation (`Closure.saturate`): starting from what is known,
every round adds what the knowledge of the earlier rounds allows, until a round adds nothing. The
others are the ends of paths along edges (`Closure.reach`), which are followed from a frontier.
Every round takes an item off the pending list, or uses up an edge, so both processes end.
-/

namespace ContextFree

namespace Closure

variable {α β : Type}

/-- What a round accepts. -/
def accepted (accept : α → Option β) (pending : List α) : List β := pending.filterMap accept

/-- What a round leaves pending. -/
def remaining (accept : α → Option β) (pending : List α) : List α :=
  pending.filter fun a => (accept a).isNone

/-- A round that accepts something leaves fewer items pending. -/
theorem length_remaining_lt {accept : α → Option β} {pending : List α}
    (h : ¬(accepted accept pending).isEmpty = true) :
    (remaining accept pending).length < pending.length := by
  induction pending with
  | nil => simp [accepted] at h
  | cons a pending ih =>
    cases hf : accept a with
    | none =>
      have := ih (by simpa [accepted, hf] using h)
      simpa [remaining, List.filter_cons, hf] using this
    | some b =>
      have := List.length_filter_le (fun a => (accept a).isNone) pending
      simp only [remaining, List.filter_cons, hf, Option.isNone_some, Bool.false_eq_true,
        if_false, List.length_cons]
      omega

/-- Adds to what is known, round by round, what `accept` makes of the pending items. The
newest come first. -/
def saturate (accept : List β → α → Option β) (known : List β) (pending : List α) : List β :=
  let new := accepted (accept known) pending
  if new.isEmpty then known
  else saturate accept (new ++ known) (remaining (accept known) pending)
termination_by pending.length
decreasing_by exact length_remaining_lt ‹_›

/-- The items that join, round by round, as soon as the earlier ones make them ready. -/
def collect (ready : List α → α → Bool) (pending : List α) : List α :=
  saturate (fun known a => if ready known a then some a else none) [] pending

/-- The edges that leave the given points. -/
def leaving [DecidableEq α] (points : List α) (edges : List (α × α)) : List (α × α) :=
  edges.filter fun edge => decide (edge.1 ∈ points)

/-- The edges that leave other points. -/
def staying [DecidableEq α] (points : List α) (edges : List (α × α)) : List (α × α) :=
  edges.filter fun edge => !decide (edge.1 ∈ points)

/-- Following an edge leaves fewer to follow. -/
theorem length_staying_lt [DecidableEq α] {points : List α} {edges : List (α × α)}
    (h : ¬(leaving points edges).isEmpty = true) :
    (staying points edges).length < edges.length := by
  induction edges with
  | nil => simp [leaving] at h
  | cons edge edges ih =>
    by_cases hedge : edge.1 ∈ points
    · have := List.length_filter_le (fun e => !decide (e.1 ∈ points)) edges
      simp only [staying, List.filter_cons, hedge, decide_true, Bool.not_true,
        Bool.false_eq_true, if_false, List.length_cons]
      omega
    · have := ih (by simpa [leaving, hedge] using h)
      simpa [staying, List.filter_cons, hedge] using this

/-- Follows the edges that leave the frontier; what was not known becomes the next frontier. -/
def spread [DecidableEq α] (edges : List (α × α)) (frontier known : List α) : List α :=
  let live := leaving frontier edges
  if live.isEmpty then known
  else
    let new := (live.map Prod.snd).filter fun b => !decide (b ∈ known)
    spread (staying frontier edges) new (new ++ known)
termination_by edges.length
decreasing_by exact length_staying_lt ‹_›

/-- The ends of all paths along the given edges from a point, the point itself included. -/
def reach [DecidableEq α] (edges : List (α × α)) (a : α) : List α := spread edges [a] [a]

end Closure

namespace Grammar

open Closure

/-- The nonterminals that derive at least one word: those with a body whose nonterminals all
do. -/
def generating (g : Grammar) : SortedSet Symbol :=
  let heads := g.headSet
  let found := collect
    (fun known a => (g.bodies a).any fun body =>
      body.all fun s => !s.isNonterminal || known.contains s)
    heads.toList
  heads.filter found.contains

/-- Every head with the nonterminals of its bodies. -/
def occurrences (g : Grammar) : List (Symbol × Symbol) :=
  g.productions.toList.flatMap fun p => (p.body.filter Symbol.isNonterminal).map (p.head, ·)

/-- The nonterminals that occur in some form derived from the start symbol. -/
def reachable (g : Grammar) : SortedSet Symbol :=
  let found := reach g.occurrences g.start
  g.nonterminals.filter found.contains

/-- The nonterminals that derive the empty word: those with a body of which every symbol does. -/
def nullable (g : Grammar) : SortedSet Symbol :=
  let heads := g.headSet
  let found := collect
    (fun known a => (g.bodies a).any fun body => body.all known.contains)
    heads.toList
  heads.filter found.contains

/-- The unit productions, each as its head and its only symbol. -/
def unitLinks (g : Grammar) : List (Symbol × Symbol) :=
  g.productions.toList.filterMap fun p => p.unit?.map (p.head, ·)

/-- The nonterminals with a unit production. -/
def unitHeads (g : Grammar) : SortedSet Symbol := .ofList (g.unitLinks.map Prod.fst)

/-- The nonterminals that stand alone as a body. -/
def unitTargets (g : Grammar) : SortedSet Symbol := .ofList (g.unitLinks.map Prod.snd)

/-- For every nonterminal with a unit production, in alphabet order, the other nonterminals to
which a chain of unit productions leads from it. -/
def unitClosure (g : Grammar) : List (Symbol × SortedSet Symbol) :=
  let links := g.unitLinks
  let targets := g.unitTargets
  g.unitHeads.toList.map fun a =>
    let found := reach links a
    (a, targets.filter fun b => found.contains b && b != a)

end Grammar

end ContextFree
