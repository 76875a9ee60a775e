import ContextFree.Production

/-!
# Context-free grammars

A grammar is a start symbol and a finite set of productions. Because the set is kept in order,
grammars with the same start symbol and the same productions are equal values, and everything
listed from a grammar comes in one canonical order.

A nonterminal has no existence of its own: it is in use if it is the start symbol, the head of
a production or part of a body.
-/

namespace ContextFree

/-- A context-free grammar. -/
structure Grammar where
  /-- The symbol from which words are derived. -/
  start : Symbol
  /-- The rules of the grammar. -/
  productions : SortedSet Production
deriving DecidableEq

namespace Grammar

/-- Grammars with the same start symbol and the same productions are equal. -/
theorem ext_productions {g h : Grammar} (hstart : g.start = h.start)
    (hmem : ∀ p, p ∈ g.productions ↔ p ∈ h.productions) : g = h := by
  cases g
  cases h
  simp only [mk.injEq]
  exact ⟨hstart, SortedSet.ext hmem⟩

/-! ## Looking things up -/

/-- Whether the grammar has the production `a → body`. -/
def has (g : Grammar) (a : Symbol) (body : Form) : Bool :=
  decide ((⟨a, body⟩ : Production) ∈ g.productions)

@[simp] theorem has_iff {g : Grammar} {a : Symbol} {body : Form} :
    g.has a body = true ↔ (⟨a, body⟩ : Production) ∈ g.productions := by
  simp [has]

/-- The bodies of a nonterminal in lexicographic order. -/
def bodies (g : Grammar) (a : Symbol) : List Form :=
  (g.productions.toList.filter fun p => decide (p.head = a)).map Production.body

@[simp] theorem mem_bodies {g : Grammar} {a : Symbol} {body : Form} :
    body ∈ g.bodies a ↔ (⟨a, body⟩ : Production) ∈ g.productions := by
  simp only [bodies, List.mem_map, List.mem_filter, SortedSet.mem_toList, decide_eq_true_eq]
  constructor
  · rintro ⟨p, ⟨hp, rfl⟩, rfl⟩
    exact hp
  · exact fun h => ⟨_, ⟨h, rfl⟩, rfl⟩

/-- The productions in the order in which they are shown and visited: those of the start
symbol first. -/
def listing (g : Grammar) : List Production :=
  g.productions.toList.filter (fun p => decide (p.head = g.start)) ++
    g.productions.toList.filter fun p => !decide (p.head = g.start)

@[simp] theorem mem_listing {g : Grammar} {p : Production} :
    p ∈ g.listing ↔ p ∈ g.productions := by
  by_cases h : p.head = g.start <;> simp [listing, h]

/-- The symbols that have productions. -/
def headSet (g : Grammar) : SortedSet Symbol :=
  .ofList (g.productions.toList.map Production.head)

@[simp] theorem mem_headSet {g : Grammar} {a : Symbol} :
    a ∈ g.headSet ↔ ∃ p ∈ g.productions, p.head = a := by
  simp [headSet]

/-- The symbols that have productions, the start symbol first and the others in alphabet
order. -/
def heads (g : Grammar) : List Symbol :=
  if g.start ∈ g.headSet then g.start :: (g.headSet.erase g.start).toList
  else g.headSet.toList

@[simp] theorem mem_heads {g : Grammar} {a : Symbol} :
    a ∈ g.heads ↔ ∃ p ∈ g.productions, p.head = a := by
  rw [← mem_headSet, heads]
  split
  · rename_i h
    by_cases ha : a = g.start
    · simp [ha, h]
    · simp [ha]
  · simp

/-- The nonterminals in use. -/
def nonterminals (g : Grammar) : SortedSet Symbol :=
  .ofList (g.start :: g.productions.toList.flatMap fun p =>
    p.head :: p.body.filter Symbol.isNonterminal)

@[simp] theorem mem_nonterminals {g : Grammar} {a : Symbol} :
    a ∈ g.nonterminals ↔ a = g.start ∨
      ∃ p ∈ g.productions, a = p.head ∨ (a ∈ p.body ∧ a.isNonterminal = true) := by
  simp [nonterminals]

/-- The terminals that occur in bodies. -/
def terminals (g : Grammar) : SortedSet Symbol :=
  .ofList (g.productions.toList.flatMap fun p => p.body.filter Symbol.isTerminal)

@[simp] theorem mem_terminals {g : Grammar} {a : Symbol} :
    a ∈ g.terminals ↔ ∃ p ∈ g.productions, a ∈ p.body ∧ a.isTerminal = true := by
  simp [terminals]

/-- Whether a symbol occurs in some body. -/
def occurs (g : Grammar) (a : Symbol) : Bool :=
  g.productions.toList.any fun p => p.body.contains a

@[simp] theorem occurs_iff {g : Grammar} {a : Symbol} :
    g.occurs a = true ↔ ∃ p ∈ g.productions, a ∈ p.body := by
  simp [occurs]

/-- The productions that are the only one of their head, in the order of the listing. -/
def soleProductions (g : Grammar) : List Production :=
  g.listing.filter fun p => g.bodies p.head == [p.body]

/-! ## Well-formed grammars -/

/-- The start symbol and all heads are nonterminals, and every other symbol is admissible. -/
structure Admissible (g : Grammar) : Prop where
  start : g.start.isNonterminal = true
  head : ∀ p ∈ g.productions, p.head.isNonterminal = true
  body : ∀ p ∈ g.productions, ∀ s ∈ p.body, s.isAdmissible = true

/-! ## Normal form -/

/-- Whether a production may stand in a grammar in normal form: its body is a single terminal
or two nonterminals, or it is empty and the head is the start symbol. -/
def isNormalProduction (g : Grammar) (p : Production) : Bool :=
  match p.body with
  | [] => decide (p.head = g.start)
  | [s] => s.isTerminal
  | [s, t] => s.isNonterminal && t.isNonterminal
  | _ => false

/-- Whether the grammar is in normal form. -/
def isNormal (g : Grammar) : Bool := g.productions.toList.all g.isNormalProduction

end Grammar

end ContextFree
