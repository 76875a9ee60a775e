import ContextFree.Search.Node

/-!
# The space of forms

Forms are expanded with contracted bodies: bodies of the grammar from which nullable symbols
have been left out, so that they are never empty. Every symbol of such a form yields at least
one terminal, hence the length of a form never exceeds that of the words it derives, and a
bound on the length of words bounds the forms.
-/

namespace ContextFree

/-- A contracted body, with the marking it comes from. -/
structure Contraction where
  /-- The body with the symbols marked that are left out. -/
  marking : Marking
  /-- What is left of the body. -/
  body : Form
  /-- The body is what the marking keeps. -/
  body_eq : body = marking.kept

namespace Contraction

/-- The contractions that a list of markings gives for a nonterminal: without empty bodies, without
those that lead the nonterminal to itself, and each body once. -/
def distinct (a : Symbol) (seen : List Form) : List Marking → List Contraction
  | [] => []
  | m :: ms =>
    let body := m.kept
    if body.isEmpty || body == [a] || seen.contains body then distinct a seen ms
    else ⟨m, m.kept, rfl⟩ :: distinct a (body :: seen) ms

end Contraction

/-- What a search goes through. -/
structure Space where
  /-- The start symbol. -/
  start : Symbol
  /-- The nonterminals in the order of the grammar, with their contracted bodies. -/
  rules : List (Symbol × List Contraction)
  /-- How nullable nonterminals vanish. -/
  erasers : List Production
  /-- The nonterminals that derive a word. -/
  generating : SortedSet Symbol
  /-- The greatest length of words, if it is bounded. -/
  limit : Option Nat
  /-- The only word that is looked for, if there is one. -/
  target : Option Form

namespace Space

/-- The space of a grammar. -/
def ofGrammar (g : Grammar) (limit : Option Nat) (target : Option Form) : Space :=
  let erasers := g.erasers
  let nullable := fun s => erasers.any fun p => p.head == s
  { start := g.start
    rules := g.heads.map fun a =>
      (a, Contraction.distinct a [] ((g.bodies a).flatMap (Marking.choices nullable)))
    erasers
    generating := g.generating
    limit
    target }

/-- Whether a form can lead to a word within the bounds: it is not too long, all its nonterminals
derive words, and the terminals it begins with are those of the target. -/
def viable (space : Space) (form : Form) : Bool :=
  space.limit.all (fun limit => decide (form.length ≤ limit)) &&
    form.all (fun s => s.isTerminal || decide (s ∈ space.generating)) &&
    space.target.all fun target => (form.takeWhile Symbol.isTerminal).isPrefixOf target

/-- The nodes one move further: the leftmost occurrence of each nonterminal is replaced by each of
its contracted bodies. -/
def successors (space : Space) (track : Bool) (node : Node) : List Node :=
  space.rules.flatMap fun (a, contractions) =>
    match Form.splitAt? a node.form with
    | none => []
    | some (left, right) =>
      contractions.filterMap fun c =>
        let form := left ++ (c.body ++ right)
        if space.viable form then
          some ⟨form, node.replay track space.erasers ⟨left, c.marking, right⟩⟩
        else none

/-- Whether a word is one that is looked for. -/
def wants (space : Space) (word : Form) : Bool :=
  space.target.all fun target => word == target

end Space

end ContextFree
