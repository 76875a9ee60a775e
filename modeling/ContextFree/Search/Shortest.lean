import ContextFree.Search.Words

/-!
# Shortest words

The shortest words of a grammar in normal form are found by settling the positions of a form
from left to right. A nonterminal that has terminals among its bodies is always replaced by one
of them; only the others are expanded, one expansion per round. Since an expansion makes a form
longer by one symbol, the first round in which a form is settled completely yields the shortest
words.

The search applies to every grammar, but only in normal form is its answer what it says. It is
cut off and bounded in its rounds like the search for all words; it asks once per round whether
to continue.
-/

namespace ContextFree

/-- A form of which a part is settled. -/
structure Candidate where
  /-- The terminals that are settled, the last one first. -/
  settled : Form
  /-- What follows them. -/
  rest : Form
deriving DecidableEq

/-- Candidates are hashed by both parts. -/
instance : Hashable Candidate where
  hash c := mixHash (hash c.settled) (hash c.rest)

/-- A word, or a form that can not be settled without an expansion. -/
inductive Settlement where
  /-- All positions are settled. -/
  | word (w : Form)
  /-- The nonterminal after the settled part has no terminal among its bodies. -/
  | stuck (settled : Form) (a : Symbol) (rest : Form)

namespace Grammar

/-- The terminals among the bodies of every nonterminal that has some. -/
def replacements (g : Grammar) : List (Symbol × Symbol) :=
  g.productions.toList.filterMap fun p =>
    match p.body with
    | [t] => if t.isTerminal then some (p.head, t) else none
    | _ => none

/-- All ways to settle a form as far as it goes. -/
def settle (replacements : List (Symbol × Symbol)) : Form → Form → List Settlement
  | settled, [] => [.word settled.reverse]
  | settled, s :: rest =>
    if s.isTerminal then settle replacements (s :: settled) rest
    else
      match replacements.filter fun r => r.1 == s with
      | [] => [.stuck settled s rest]
      | choices => choices.flatMap fun r => settle replacements (r.2 :: settled) rest

/-- The words among settlements. -/
def settledWords (settlements : List Settlement) : List Form :=
  settlements.filterMap fun
    | .word w => some w
    | .stuck _ _ _ => none

/-- The candidates after expanding the nonterminals at which settlements are stuck. -/
def expansions (g : Grammar) (settlements : List Settlement) : List Candidate :=
  settlements.flatMap fun
    | .word _ => []
    | .stuck settled a rest => (g.bodies a).map fun body => ⟨settled, body ++ rest⟩

/-- Removes neighbours that are equal. -/
def dropRepeats : List Form → List Form
  | u :: v :: rest => if u = v then dropRepeats (v :: rest) else u :: dropRepeats (v :: rest)
  | rest => rest

/-- The candidates met, and among them those of the next round. -/
structure Frontier where
  /-- All candidates met. -/
  seen : Std.HashSet Candidate
  /-- The candidates of the next round. -/
  next : List Candidate

/-- Puts a candidate into the next round, unless it has been met. -/
def Frontier.push : Frontier → Candidate → Frontier
  | ⟨seen, next⟩, c =>
    if seen.contains c then ⟨seen, next⟩ else ⟨seen.insert c, c :: next⟩

/-- Goes through rounds until one settles a word or none has candidates. -/
def settleRounds (g : Grammar) (cutoff : Cutoff) :
    Nat → List Candidate → Std.HashSet Candidate → Nat → Searched (List Form)
  | _, [], _, checks => ⟨⟨[], []⟩, checks, true⟩
  | 0, _ :: _, _, checks => ⟨⟨[], []⟩, checks, false⟩
  | rounds + 1, candidates, seen, checks =>
    if cutoff.reached checks ([] : List Form) then ⟨⟨[], []⟩, checks + 1, true⟩
    else
      let table := g.replacements
      let settlements := candidates.flatMap fun c => settle table c.settled c.rest
      match dropRepeats (Form.sortShortlex (settledWords settlements)) with
      | [] =>
        let ⟨seen, next⟩ := (g.expansions settlements).foldl Frontier.push ⟨seen, []⟩
        g.settleRounds cutoff rounds next seen (checks + 1)
      | words => ⟨⟨words.map fun w => ⟨.shortest, .found w none⟩, words⟩, checks + 1, true⟩

/-- The words of least length of a grammar in normal form, ordered lexicographically. -/
def shortestWords (g : Grammar) (cutoff : Cutoff) (rounds : Nat) : Searched (List Form) :=
  let result :=
    if (g.bodies g.start).isEmpty then ⟨⟨[], []⟩, 0, true⟩
    else if g.has g.start [] then ⟨⟨[⟨.shortest, .found [] none⟩], [[]]⟩, 0, true⟩
    else g.settleRounds cutoff rounds [⟨[], [g.start]⟩] Std.HashSet.emptyWithCapacity 0
  { result with events := ⟨.shortest, .started⟩ :: result.events }

end Grammar

end ContextFree
