import Std.Data.HashSet
import ContextFree.Search.Cutoff
import ContextFree.Search.Space

/-!
# Going through the space

Forms are expanded breadth first, one generation after the other, each form once. The search
asks once at its beginning and once for every form whether to continue. When it is told to
stop, it leaves the generation it is in: what that one has brought forth so far makes up the
next, which ends in the same way.

The flag `track` says whether the nodes carry chains.
-/

namespace ContextFree

/-- How far a search has come. -/
structure Progress where
  /-- How often it asked whether to continue. -/
  checks : Nat
  /-- The words found, the last one first. -/
  found : List Node
  /-- All forms met. -/
  seen : Std.HashSet Form
  /-- The next generation, the last one first. -/
  next : List Node

/-- Puts a node into the next generation, unless its form has been met. -/
def Progress.push : Progress → Node → Progress
  | ⟨checks, found, seen, next⟩, node =>
    if seen.contains node.form then ⟨checks, found, seen, next⟩
    else ⟨checks, found, seen.insert node.form, node :: next⟩

/-- What a search has to show. -/
structure Outcome where
  /-- The words in the order in which they were found. -/
  found : List Node
  /-- How often the search asked whether to continue. -/
  checks : Nat
  /-- Whether the search came to an end within its generations. -/
  ended : Bool

namespace Space

/-- Goes through a generation. The flag says whether the target was found. -/
def sweep (space : Space) (track : Bool) (cutoff : Cutoff) : List Node → Progress → Progress × Bool
  | [], progress => (progress, false)
  | node :: nodes, ⟨checks, found, seen, next⟩ =>
    if cutoff.reached checks found then (⟨checks + 1, found, seen, next⟩, false)
    else if node.form.all Symbol.isTerminal then
      if space.wants node.form then
        if space.target.isSome then (⟨checks + 1, node :: found, seen, next⟩, true)
        else space.sweep track cutoff nodes ⟨checks + 1, node :: found, seen, next⟩
      else space.sweep track cutoff nodes ⟨checks + 1, found, seen, next⟩
    else
      space.sweep track cutoff nodes
        ((space.successors track node).foldl Progress.push ⟨checks + 1, found, seen, next⟩)

/-- Goes through generation after generation until one is empty or the target is found. -/
def generations (space : Space) (track : Bool) (cutoff : Cutoff) :
    Nat → List Node → Progress → Outcome
  | _, [], progress => ⟨progress.found.reverse, progress.checks, true⟩
  | 0, _ :: _, progress => ⟨progress.found.reverse, progress.checks, false⟩
  | rounds + 1, nodes, progress =>
    match space.sweep track cutoff nodes progress with
    | (⟨checks, found, _, _⟩, true) => ⟨found.reverse, checks, true⟩
    | (⟨checks, found, seen, next⟩, false) =>
      space.generations track cutoff rounds next.reverse ⟨checks, found, seen, []⟩

/-- The words found before any form is expanded: the empty word, if the start symbol vanishes and
it is looked for. -/
def foundAtOnce (space : Space) (track : Bool) : List Node :=
  if space.erasers.any (fun p => p.head == space.start) && space.wants [] then
    [Node.vanished track space.erasers space.start]
  else []

/-- The whole search, for at most the given number of generations. -/
def explore (space : Space) (track : Bool) (cutoff : Cutoff) (rounds : Nat) : Outcome :=
  if cutoff.reached 0 ([] : List Node) then ⟨[], 1, true⟩
  else
    let found := space.foundAtOnce track
    if space.target.isSome && !found.isEmpty then ⟨found, 1, true⟩
    else
      space.generations track cutoff rounds [Node.root track space.start]
        ⟨1, found, Std.HashSet.emptyWithCapacity.insert [space.start], []⟩

end Space

end ContextFree
