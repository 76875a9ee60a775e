import ContextFree.Proofs.NormalForm

/-!
# The shape of the reduced form

The reduced form has no unit production, no useless nonterminal and at most one empty body. That
body stands at the start symbol, and it is there exactly if the grammar derives the empty word:
the first pass puts it there, whatever the capacity for leaving symbols out, and no later pass
takes it away or gives it to another nonterminal.

The main result is `reduced_of_simplify`.
-/

namespace ContextFree.Grammar

variable {g h r : Grammar}

/-! ## The empty body on its way through the passes -/

/-- Where no other nonterminal has an empty body, the start symbol can not inherit one. -/
lemma EmptyAtStart.mem_empty_eliminateUnits_iff (hg : g.EmptyAtStart) :
    (⟨g.start, []⟩ : Production) ∈ g.eliminateUnits.value.productions ↔
      (⟨g.start, []⟩ : Production) ∈ g.productions := by
  constructor
  · intro hempty
    -- the body was inherited from a nonterminal with an empty body, and that is the start symbol
    obtain ⟨-, b, -, hb⟩ := mem_eliminateUnits.1 hempty
    obtain rfl : b = g.start := hg.head _ hb rfl
    exact hb
  · intro hempty
    exact mem_eliminateUnits.2 ⟨rfl, g.start, .refl, hempty⟩

/-- An empty body at the start symbol is useful. -/
lemma mem_empty_drop_iff (hg : g.Admissible) :
    (⟨g.start, []⟩ : Production) ∈ g.dropNonGenerating.value.dropUnreachable.value.productions ↔
      (⟨g.start, []⟩ : Production) ∈ g.productions := by
  constructor
  · exact mem_drop_drop hg
  · intro hempty
    have hkept : (⟨g.start, []⟩ : Production) ∈ g.dropNonGenerating.value.productions :=
      (mem_dropNonGenerating hg).2 ⟨hempty, [], .nil⟩
    refine mem_dropUnreachable.2 ⟨hkept, ?_⟩
    rw [← start_dropNonGenerating (g := g)]
    exact start_mem_reachable

/-- The reduced form has an empty body at its start symbol exactly if the empty word is in the
language. -/
theorem mem_empty_simplify_iff (hg : g.Admissible) (hr : g.simplify.value = .ok r) :
    (⟨r.start, []⟩ : Production) ∈ r.productions ↔ g.InLanguage [] := by
  obtain ⟨e, he, rfl⟩ := simplify_eq_ok_iff.1 hr
  have hfree := epsilonFree_of_eliminateEpsilon he
  have hunits : e.eliminateUnits.value.Admissible := (hfree.admissible hg).eliminateUnits
  rw [start_dropUnreachable, start_dropNonGenerating, mem_empty_drop_iff hunits,
    start_eliminateUnits, hfree.emptyAtStart.mem_empty_eliminateUnits_iff, hfree.mem_empty_iff,
    mem_nullable_iff, inLanguage_iff_yields]

/-! ## Main result -/

/-- The reduced form of a grammar has no unit production; no nonterminal but the start symbol has an
empty body, and the start symbol has one exactly if the grammar derives the empty word, and then
occurs in no body; every other nonterminal is useful; and without a word there are no
productions. -/
theorem reduced_of_simplify (hg : g.Built) (hr : g.simplify.value = .ok r) :
    (∀ a b, b.isNonterminal = true → r.has a [b] = false) ∧
    (∀ a, r.has a [] = true → a = r.start) ∧
    (r.has r.start [] = true ↔ g.InLanguage []) ∧
    (r.has r.start [] = true → r.occurs r.start = false) ∧
    (∀ a ∈ r.nonterminals, a ≠ r.start →
      (∃ w, r.Generates a w) ∧ ∃ u v, r.Derives [r.start] (u ++ a :: v)) ∧
    ((∀ w, ¬r.Generates r.start w) → ∀ p, p ∉ r.productions) := by
  have hsimple := simple_of_simplify hg.admissible hr
  refine ⟨fun a b hb => ?_, fun a ha => ?_, ?_, fun hempty => ?_, fun a ha hne => ⟨?_, ?_⟩,
    fun hnone => ?_⟩
  · rw [← Bool.not_eq_true, has_iff]
    intro hp
    have hunit := hsimple.unitFree _ hp
    rw [Production.unit?_eq_some_iff.2 ⟨rfl, hb⟩] at hunit
    contradiction
  · exact hsimple.emptyAtStart.head _ (has_iff.1 ha) rfl
  · rw [has_iff]
    exact mem_empty_simplify_iff hg.admissible hr
  · rw [← Bool.not_eq_true, occurs_iff]
    rintro ⟨p, hp, hmem⟩
    exact hsimple.emptyAtStart.absent (has_iff.1 hempty) p hp hmem
  · obtain ⟨w, hw⟩ := hsimple.reduced.exists_yields ha hne
    exact ⟨w, generates_iff_yields.2 hw⟩
  · exact exists_derives_of_path (hsimple.reduced.reached a ha)
  · exact hsimple.reduced.eq_empty fun w hw => hnone w (generates_iff_yields.2 hw)

/-- A grammar with a start symbol that vanishes and stands in bodies, a cycle of unit productions, a
nonterminal that yields nothing once empty bodies are gone, and one that can not be reached. -/
def cluttered : Grammar :=
  ⟨'S', .ofList [⟨'S', ['a', 'S', 'A']⟩, ⟨'S', ['B']⟩, ⟨'S', []⟩, ⟨'A', []⟩, ⟨'A', ['C']⟩,
    ⟨'B', ['S']⟩, ⟨'B', ['b', 'D']⟩, ⟨'C', ['c', 'C']⟩, ⟨'D', ['d']⟩, ⟨'E', ['D']⟩]⟩

/-- Its reduced form. -/
def cleared : Grammar :=
  ⟨'$', .ofList [⟨'$', []⟩, ⟨'$', ['a']⟩, ⟨'$', ['a', 'S']⟩, ⟨'$', ['b', 'D']⟩, ⟨'D', ['d']⟩,
    ⟨'S', ['a']⟩, ⟨'S', ['a', 'S']⟩, ⟨'S', ['b', 'D']⟩]⟩

lemma built_cluttered : cluttered.Built :=
  @Built.rules _ 'S' [('S', [['a', 'S', 'A'], ['B'], []]), ('A', [[], ['C']]),
    ('B', [['S'], ['b', 'D']]), ('C', [['c', 'C']]), ('D', [['d']]), ('E', [['D']])] rfl

lemma simplify_cluttered : cluttered.simplify.value = .ok cleared := by decide +kernel

theorem reduced_cleared :
    cluttered.Built ∧ cluttered.simplify.value = .ok cleared ∧
      (∀ a b, b.isNonterminal = true → cleared.has a [b] = false) ∧
      (∀ a, cleared.has a [] = true → a = cleared.start) ∧
      (cleared.has cleared.start [] = true ↔ cluttered.InLanguage []) ∧
      (cleared.has cleared.start [] = true → cleared.occurs cleared.start = false) ∧
      (∀ a ∈ cleared.nonterminals, a ≠ cleared.start →
        (∃ w, cleared.Generates a w) ∧ ∃ u v, cleared.Derives [cleared.start] (u ++ a :: v)) ∧
      ((∀ w, ¬cleared.Generates cleared.start w) → ∀ p, p ∉ cleared.productions) :=
  ⟨built_cluttered, simplify_cluttered, reduced_of_simplify built_cluttered simplify_cluttered⟩

end ContextFree.Grammar
