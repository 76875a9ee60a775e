import ContextFree.RuleTable
import ContextFree.Transform.NormalForm

/-!
# Transforming rule tables

A transformation copies the table it is given and changes the copy while it goes through it: the
heads are listed before the first of them is visited, the bodies of each when it is its turn. So
rows are opened and closed, and bodies are added to rows, in the middle of a visit
(`RuleTable.visit`).

What a transformation has to know about the whole grammar, such as which nonterminals are useless,
it reads off the table before it changes anything.
-/

namespace ContextFree

/-- What is to be done at a production: the edits, and what is known from then on. -/
abbrev Step (σ : Type) := σ → Production → Except Exhausted (List Edit × σ)

namespace RuleTable

variable {σ : Type}

/-- Carries out edits, and passes on what is known after them. -/
def carryOut (t : RuleTable) (result : List Edit × σ) : σ × RuleTable :=
  (result.2, t.editAll result.1)

/-- Takes a step at each body of a row. -/
def visitRow (step : Step σ) (a : Symbol) (state : σ × RuleTable) (bodies : List Form) :
    Except Exhausted (σ × RuleTable) :=
  bodies.foldlM (fun (s, t) body => (step s ⟨a, body⟩).map t.carryOut) state

/-- Takes a step at each production, row by row. -/
def visitRows (step : Step σ) (state : σ × RuleTable) (heads : List Symbol) :
    Except Exhausted (σ × RuleTable) :=
  heads.foldlM (fun (s, t) a => visitRow step a (s, t) (t.bodies a)) state

/-- The table after a step at each of its productions. -/
def visit (step : Step σ) (s : σ) (t : RuleTable) : Except Exhausted RuleTable :=
  (visitRows step (s, t) t.heads).map Prod.snd

/-! ## Useless nonterminals -/

/-- Removes the productions that are doomed. -/
def dropStep (doomed : Production → Bool) : Step Unit := fun _ p =>
  .ok (if doomed p then [.remove p] else [], ())

/-- Removes every production with a nonterminal in its body that derives no word. -/
def dropNonGenerating (t : RuleTable) : Except Exhausted RuleTable :=
  let t := t.clone
  let generating := t.grammar.generating
  let useless := t.nonterminals.filter fun a => !decide (a ∈ generating)
  if useless.isEmpty then .ok t
  else t.visit (dropStep fun p => p.body.any fun s => decide (s ∈ useless)) ()

/-- Removes the productions of every nonterminal that can not be reached. -/
def dropUnreachable (t : RuleTable) : Except Exhausted RuleTable :=
  let t := t.clone
  let reachable := t.grammar.reachable
  let useless := t.nonterminals.filter fun a => !decide (a ∈ reachable)
  if useless.isEmpty then .ok t
  else t.visit (dropStep fun p => decide (p.head ∈ useless)) ()

/-! ## Empty bodies -/

/-- Adds what is left of a body when nullable symbols are left out. -/
def shortenStep (nullable : SortedSet Symbol) : Step Unit := fun _ p =>
  .ok (((Marking.erasures (fun s => decide (s ∈ nullable)) p.body).filter
    fun body => !body.isEmpty && body != [p.head]).map fun body => .add ⟨p.head, body⟩, ())

/-- The start symbol that may have an empty body: the present one if it occurs in no body. -/
def epsilonStart (t : RuleTable) : Except Exhausted Symbol :=
  if t.grammar.occurs t.start then
    let used := t.nonterminals
    if Symbol.reserved ∈ used then
      match fresh? used.toList with
      | some s => .ok s
      | none => .error (.newStart t.start)
    else .ok Symbol.reserved
  else .ok t.start

/-- Gives the empty body to the start symbol, or to a new one. -/
def giveEpsilon (t : RuleTable) : Except Exhausted RuleTable :=
  t.epsilonStart.map fun s => t.editAll (t.grammar.epsilonRestart s)

/-- Removes the empty body of a symbol, unless it is the start symbol. -/
def clearRow (t : RuleTable) (a : Symbol) : RuleTable :=
  if a != t.start && t.has a [] then t.remove ⟨a, []⟩ else t

/-- Removes the empty body of each symbol but the start symbol. -/
def clearEpsilon (t : RuleTable) : RuleTable := t.heads.foldl clearRow t

/-- Removes the empty bodies. Fails if a new start symbol is needed and none is left. -/
def eliminateEpsilon (t : RuleTable) : Except Exhausted RuleTable :=
  let t := t.clone
  let nullable := t.grammar.nullable
  if nullable.isEmpty then .ok t
  else do
    let t ← t.visit (shortenStep nullable) ()
    if t.start ∈ nullable then t.giveEpsilon.map clearEpsilon else .ok t.clearEpsilon

/-! ## Unit productions -/

/-- Removes the unit productions. What is inherited is read off the table before it changes. -/
def eliminateUnits (t : RuleTable) : Except Exhausted RuleTable :=
  let t := t.clone
  let g := t.grammar
  let closure := g.unitClosure
  if closure.isEmpty then .ok t
  else .ok (t.editAll ((g.inherited closure).map .add ++ g.unitProductions.map .remove))

/-! ## Long and mixed bodies -/

/-- Splits a body of more than two symbols. -/
def splitStep : Step Names := fun names p =>
  if p.body.length ≤ 2 then .ok ([], names)
  else
    match splitBody names p.head p.body with
    | (edits, some names) => .ok (.remove p :: edits, names)
    | (_, none) => .error (.splitting p)

/-- Splits all bodies of more than two symbols. Fails if the nonterminals do not suffice. -/
def binarize (t : RuleTable) : Except Exhausted RuleTable :=
  let t := t.clone
  t.visit splitStep t.names

/-- Isolates the terminals of a body of two symbols. -/
def isolateStep : Step Names := fun names p =>
  if p.body.length != 2 || !p.body.any Symbol.isTerminal then .ok ([], names)
  else
    match isolateBody names p.body with
    | (edits, .ok (names, body)) => .ok (edits ++ [.remove p, .add ⟨p.head, body⟩], names)
    | (_, .error s) => .error (.isolating s p)

/-- Isolates the terminals of all bodies of two symbols. Fails if the nonterminals do not
suffice. -/
def isolateTerminals (t : RuleTable) : Except Exhausted RuleTable :=
  let t := t.clone
  t.visit isolateStep t.names

/-! ## Sequences of passes -/

/-- The reduced form of a table. -/
def simplify (t : RuleTable) : Except Exhausted RuleTable := do
  let t ← t.eliminateEpsilon
  let t ← t.eliminateUnits
  let t ← t.dropNonGenerating
  t.dropUnreachable

/-- The normal form of a table. -/
def normalize (t : RuleTable) : Except Exhausted RuleTable := do
  let t ← t.binarize
  let t ← t.simplify
  t.isolateTerminals

end RuleTable

/-- Transforms a table. -/
def Transformation.onTable : Transformation → RuleTable → Except Exhausted RuleTable
  | dropNonGenerating, t => t.dropNonGenerating
  | dropUnreachable, t => t.dropUnreachable
  | eliminateEpsilon, t => t.eliminateEpsilon
  | eliminateUnits, t => t.eliminateUnits
  | binarize, t => t.binarize
  | isolateTerminals, t => t.isolateTerminals
  | simplify, t => t.simplify
  | normalize, t => t.normalize

end ContextFree
