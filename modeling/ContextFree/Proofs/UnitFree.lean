import ContextFree.Proofs.Closures
import ContextFree.Transform.Unit

/-!
# Without unit productions

A nonterminal keeps the bodies that are not a single nonterminal, and gains those at the ends of
its chains of unit productions. The result is described by one equivalence
(`mem_eliminateUnits`); that it has no unit productions, and that every nonterminal yields what
it did before, are read off from there (`sameWords_of_eliminateUnits`).
-/

namespace ContextFree

namespace Production

/-- Whether a production is a unit production depends on its body alone. -/
lemma unit?_congr {p q : Production} (h : p.body = q.body) : p.unit? = q.unit? := by
  simp only [unit?, h]

end Production

namespace Grammar

variable {g : Grammar} {a b : Symbol} {p : Production} {u w : Form}

/-- A chain of unit productions leads from `a` to `b`; it may be empty. -/
def UnitPath (g : Grammar) : Symbol → Symbol → Prop := Relation.ReflTransGen g.UnitLink

lemma unitLink_of_unit? (hp : p ∈ g.productions) (hb : p.unit? = some b) :
    g.UnitLink p.head b := by
  obtain ⟨hbody, hn⟩ := Production.unit?_eq_some_iff.1 hb
  obtain ⟨a, body⟩ := p
  obtain rfl : body = [b] := hbody
  exact ⟨hp, hn⟩

lemma mem_inherited :
    p ∈ g.inherited g.unitClosure ↔ p.unit? = none ∧
      ∃ b, b ≠ p.head ∧ g.UnitPath p.head b ∧ (⟨b, p.body⟩ : Production) ∈ g.productions := by
  have hunit : ∀ b, (⟨b, p.body⟩ : Production).unit? = p.unit? :=
    fun b => Production.unit?_congr rfl
  obtain ⟨a, body⟩ := p
  simp only [inherited, List.mem_flatMap, List.mem_map, List.mem_filter, mem_bodies,
    SortedSet.mem_toList, Option.isNone_iff_eq_none, Prod.exists, Production.mk.injEq]
  constructor
  · rintro ⟨a', reached, hclosure, b, hb, body', ⟨hp, hnone⟩, rfl, rfl⟩
    obtain ⟨hne, hpath⟩ := mem_unitClosure_iff.1 ⟨reached, hclosure, hb⟩
    exact ⟨by rw [← hunit b]; exact hnone, b, hne, hpath, hp⟩
  · rintro ⟨hnone, b, hne, hpath, hp⟩
    obtain ⟨reached, hclosure, hb⟩ := mem_unitClosure_iff.2 ⟨hne, hpath⟩
    exact ⟨a, reached, hclosure, b, hb, body, ⟨hp, by rw [hunit b]; exact hnone⟩, rfl, rfl⟩

lemma mem_unitProductions :
    p ∈ g.unitProductions ↔ p ∈ g.productions ∧ p.unit? ≠ none := by
  simp only [unitProductions, List.mem_flatMap, List.mem_map, SortedSet.mem_toList,
    SortedSet.mem_filter, List.contains_iff_mem, mem_unitLinks]
  constructor
  · rintro ⟨a, -, b, ⟨-, hp, hn⟩, rfl⟩
    exact ⟨hp, by rw [Production.unit?_eq_some_iff.2 ⟨rfl, hn⟩]; simp⟩
  · rintro ⟨hp, hsome⟩
    obtain ⟨b, hb⟩ := Option.ne_none_iff_exists'.1 hsome
    have hlink := unitLink_of_unit? hp hb
    refine ⟨p.head, mem_unitHeads.2 ⟨b, hlink⟩, b, ⟨mem_unitTargets.2 ⟨_, hlink⟩, hlink⟩, ?_⟩
    rw [← (Production.unit?_eq_some_iff.1 hb).1]

/-- Where the closure is empty, there are no unit productions. -/
lemma not_unitLink_of_isEmpty (hempty : g.unitClosure.isEmpty = true) : ¬g.UnitLink a b := by
  intro hlink
  have hmem : a ∈ g.unitHeads.toList := mem_unitHeads.2 ⟨b, hlink⟩
  rw [unitClosure, List.isEmpty_iff, List.map_eq_nil_iff] at hempty
  rw [hempty] at hmem
  exact absurd hmem List.not_mem_nil

@[simp] lemma start_eliminateUnits : g.eliminateUnits.value.start = g.start := by
  unfold eliminateUnits
  dsimp only
  split
  · rfl
  · rw [Stage.value_perform, Edit.start_foldl_apply]
    simp

/-- The productions of the result: those that are no unit productions, for every nonterminal
with a chain of unit productions to their head. -/
theorem mem_eliminateUnits :
    p ∈ g.eliminateUnits.value.productions ↔ p.unit? = none ∧
      ∃ b, g.UnitPath p.head b ∧ (⟨b, p.body⟩ : Production) ∈ g.productions := by
  unfold eliminateUnits
  dsimp only
  split
  · rename_i hempty
    constructor
    · intro hp
      refine ⟨?_, p.head, .refl, hp⟩
      rw [Option.eq_none_iff_forall_ne_some]
      intro b hb
      exact not_unitLink_of_isEmpty hempty (unitLink_of_unit? hp hb)
    · rintro ⟨-, b, hpath, hp⟩
      rcases Relation.ReflTransGen.cases_head hpath with rfl | ⟨c, hlink, -⟩
      · exact hp
      · exact absurd hlink (not_unitLink_of_isEmpty hempty)
  · rw [Stage.value_perform, Edit.mem_foldl_apply]
    · simp only [List.mem_append, List.mem_map, Edit.add.injEq, Edit.remove.injEq, reduceCtorEq,
        and_false, exists_false, or_false, false_or, exists_eq_right, mem_inherited,
        mem_unitProductions]
      constructor
      · rintro (⟨hnone, b, -, hpath, hp⟩ | ⟨hp, hnot⟩)
        · exact ⟨hnone, b, hpath, hp⟩
        · exact ⟨by_contra fun hsome => hnot ⟨hp, hsome⟩, p.head, .refl, hp⟩
      · rintro ⟨hnone, b, hpath, hp⟩
        by_cases hb : b = p.head
        · subst hb
          exact .inr ⟨hp, fun hunit => hunit.2 hnone⟩
        · exact .inl ⟨hnone, b, hb, hpath, hp⟩
    · -- what is added is no unit production, what is removed is one
      simp [mem_inherited, mem_unitProductions]
      grind

lemma unit?_of_mem_eliminateUnits (hp : p ∈ g.eliminateUnits.value.productions) :
    p.unit? = none :=
  (mem_eliminateUnits.1 hp).1

/-- Every body of the result is a body of the grammar. -/
lemma exists_of_mem_eliminateUnits (hp : p ∈ g.eliminateUnits.value.productions) :
    ∃ q ∈ g.productions, q.body = p.body := by
  obtain ⟨-, b, -, hb⟩ := mem_eliminateUnits.1 hp
  exact ⟨_, hb, rfl⟩

lemma UnitPath.derives (hpath : g.UnitPath a b) : g.Derives [a] [b] := by
  induction hpath with
  | refl => exact .refl _
  | tail _ hlink ih => exact ih.trans (derives_body hlink.1)

/-- A unit production yields in the result what its only symbol yields: a production of that
symbol is one of the head as well. -/
lemma yields_eliminateUnits_of_unitLink (hlink : g.UnitLink a b)
    (hy : g.eliminateUnits.value.Yields [b] w) : g.eliminateUnits.value.Yields [a] w := by
  rcases yields_singleton_iff.1 hy with ⟨ht, -⟩ | ⟨q, hq, rfl, hbody⟩
  · rw [Symbol.isTerminal_eq_false hlink.2] at ht
    contradiction
  · obtain ⟨hnone, c, hpath, hc⟩ := mem_eliminateUnits.1 hq
    have hmem : (⟨a, q.body⟩ : Production) ∈ g.eliminateUnits.value.productions :=
      mem_eliminateUnits.2 ⟨by rwa [Production.unit?_congr rfl], c, hpath.head hlink, hc⟩
    exact .of_body hmem hbody

/-- No language changes. -/
theorem yields_eliminateUnits : g.eliminateUnits.value.Yields u w ↔ g.Yields u w := by
  constructor
  · refine Yields.of_simulates fun p hp x hx => ?_
    obtain ⟨-, b, hpath, hb⟩ := mem_eliminateUnits.1 hp
    exact .of_derives hpath.derives (.of_body hb hx)
  · refine Yields.of_simulates fun p hp x hx => ?_
    by_cases hnone : p.unit? = none
    · exact .of_body (mem_eliminateUnits.2 ⟨hnone, p.head, .refl, hp⟩) hx
    · obtain ⟨b, hb⟩ := Option.ne_none_iff_exists'.1 hnone
      rw [(Production.unit?_eq_some_iff.1 hb).1] at hx
      exact yields_eliminateUnits_of_unitLink (unitLink_of_unit? hp hb) hx

lemma Admissible.eliminateUnits (hg : g.Admissible) : g.eliminateUnits.value.Admissible where
  start := by
    rw [start_eliminateUnits]
    exact hg.start
  head p hp := by
    obtain ⟨-, b, hpath, hb⟩ := mem_eliminateUnits.1 hp
    rcases Relation.ReflTransGen.cases_head hpath with heq | ⟨c, hlink, -⟩
    · rw [heq]
      exact hg.head _ hb
    · exact hg.head ⟨p.head, [c]⟩ hlink.1
  body p hp := by
    obtain ⟨-, b, -, hb⟩ := mem_eliminateUnits.1 hp
    exact hg.body ⟨b, p.body⟩ hb

/-! ## Main result -/

/-- Whatever the grammar, no body of the result is a single nonterminal, and every symbol derives
the same words as before. -/
theorem sameWords_of_eliminateUnits (g : Grammar) :
    (∀ a b, b.isNonterminal = true → g.eliminateUnits.value.has a [b] = false) ∧
    ∀ a w, g.eliminateUnits.value.Generates a w ↔ g.Generates a w := by
  refine ⟨fun a b hb => ?_, fun a w => ?_⟩
  · rw [← Bool.not_eq_true, has_iff]
    intro hp
    have hunit := unit?_of_mem_eliminateUnits hp
    rw [Production.unit?_eq_some_iff.2 ⟨rfl, hb⟩] at hunit
    contradiction
  · rw [generates_iff_yields, generates_iff_yields]
    exact yields_eliminateUnits

/-- A grammar with a cycle of unit productions that begins at the start symbol, a nonterminal that
leads to itself, one that vanishes, and one that leads to a nonterminal without bodies. -/
def chained : Grammar :=
  ⟨'S', .ofList [⟨'S', ['A']⟩, ⟨'S', ['a', 'S']⟩, ⟨'A', ['B']⟩, ⟨'A', []⟩, ⟨'B', ['S']⟩,
    ⟨'B', ['B']⟩, ⟨'B', ['b', 'C']⟩, ⟨'C', ['D']⟩]⟩

/-- The same without unit productions: the symbols of the cycle share all bodies, and `C` has none
left. -/
def unchained : Grammar :=
  ⟨'S', .ofList [⟨'S', []⟩, ⟨'S', ['a', 'S']⟩, ⟨'S', ['b', 'C']⟩, ⟨'A', []⟩, ⟨'A', ['a', 'S']⟩,
    ⟨'A', ['b', 'C']⟩, ⟨'B', []⟩, ⟨'B', ['a', 'S']⟩, ⟨'B', ['b', 'C']⟩]⟩

theorem sameWords_unchained :
    chained.eliminateUnits.value = unchained ∧
      (∀ a b, b.isNonterminal = true → unchained.has a [b] = false) ∧
      ∀ a w, unchained.Generates a w ↔ chained.Generates a w := by
  have hvalue : chained.eliminateUnits.value = unchained := by decide +kernel
  refine ⟨hvalue, ?_⟩
  rw [← hvalue]
  exact sameWords_of_eliminateUnits chained

end Grammar

end ContextFree
