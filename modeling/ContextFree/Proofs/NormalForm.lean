import ContextFree.Proofs.Binarization
import ContextFree.Proofs.Built
import ContextFree.Proofs.EpsilonFree
import ContextFree.Proofs.Isolation
import ContextFree.Proofs.Reduction
import ContextFree.Proofs.UnitFree
import ContextFree.Transform.NormalForm

/-!
# Reduced form and normal form

The passes are put together. Each of them keeps what the earlier ones have achieved: bodies stay
short once they are split, only the start symbol has an empty body once the others are
eliminated, no unit production comes back, and isolating terminals leaves no useless
nonterminal behind.

The main results: a grammar and its normal form have the same language
(`inLanguage_normalize_iff`), and the normal form is one in the strict sense
(`strict_of_normalize`).
-/

namespace ContextFree

/-- A chain of two transformations succeeds if both of them do. -/
lemma Logged.value_andThenOk_eq_ok {ε α β : Type} {x : Logged (Except ε α)}
    {next : α → Logged (Except ε β)} {b : β} :
    (x.andThenOk next).value = .ok b ↔ ∃ a, x.value = .ok a ∧ (next a).value = .ok b := by
  rw [Logged.andThenOk, Logged.value_andThen]
  cases hx : x.value with
  | error e => simp
  | ok a => simp

namespace Grammar

variable {g h r c : Grammar} {p : Production} {u w : Form}

/-! ## What the passes keep -/

lemma EmptyAtStart.of_subset (hg : g.EmptyAtStart) (hstart : h.start = g.start)
    (hsub : ∀ p ∈ h.productions, p ∈ g.productions) : h.EmptyAtStart where
  head p hp hbody := by
    rw [hstart]
    exact hg.head p (hsub p hp) hbody
  absent hempty p hp := by
    rw [hstart] at hempty ⊢
    exact hg.absent (hsub _ hempty) p (hsub p hp)

/-- No chain of unit productions leads to a start symbol with an empty body, so no other
nonterminal inherits that body. -/
lemma EmptyAtStart.eliminateUnits (hg : g.EmptyAtStart) : g.eliminateUnits.value.EmptyAtStart := by
  have hsource : ∀ p ∈ g.eliminateUnits.value.productions, p.body = [] → p ∈ g.productions := by
    intro p hp hbody
    obtain ⟨-, b, hpath, hb⟩ := mem_eliminateUnits.1 hp
    have hstart : b = g.start := hg.head _ hb hbody
    subst hstart
    rw [hbody] at hb
    rcases Relation.ReflTransGen.cases_tail hpath with heq | ⟨c, -, hlink⟩
    · obtain ⟨a, body⟩ := p
      obtain rfl : g.start = a := heq
      obtain rfl : body = [] := hbody
      exact hb
    · exact absurd List.mem_cons_self (hg.absent hb _ hlink.1)
  refine ⟨fun p hp hbody => ?_, fun hempty p hp => ?_⟩
  · rw [start_eliminateUnits]
    exact hg.head p (hsource p hp hbody) hbody
  · rw [start_eliminateUnits] at hempty ⊢
    obtain ⟨q, hq, hbody⟩ := exists_of_mem_eliminateUnits hp
    rw [← hbody]
    exact hg.absent (hsource _ hempty rfl) q hq

/-- Short bodies are far below the capacity. -/
lemma withinCapacity_of_length_le (hlength : ∀ p ∈ g.productions, p.body.length ≤ 2) :
    g.WithinCapacity := by
  intro p hp
  calc p.body.countP _ ≤ p.body.length := List.countP_le_length
    _ ≤ 2 := hlength p hp
    _ ≤ Marking.capacity := by decide

/-! ## Reduced form -/

/-- A grammar in reduced form. -/
structure Simple (g : Grammar) : Prop where
  admissible : g.Admissible
  reduced : g.Reduced
  emptyAtStart : g.EmptyAtStart
  unitFree : ∀ p ∈ g.productions, p.unit? = none

/-- The passes that make up the reduced form. -/
lemma simplify_eq_ok_iff :
    g.simplify.value = .ok r ↔ ∃ e, g.eliminateEpsilon.value = .ok e ∧
      e.eliminateUnits.value.dropNonGenerating.value.dropUnreachable.value = r := by
  simp only [simplify, Logged.value_andThenOk_eq_ok, Logged.value_map, Logged.value_andThen,
    Except.ok.injEq]

/-- Every production of the reduced form has its body from the grammar without empty bodies. -/
lemma mem_drop_drop (hg : g.Admissible)
    (hp : p ∈ g.dropNonGenerating.value.dropUnreachable.value.productions) : p ∈ g.productions :=
  ((mem_dropNonGenerating hg).1 (mem_dropUnreachable.1 hp).1).1

theorem simple_of_simplify (hg : g.Admissible) (hr : g.simplify.value = .ok r) : r.Simple := by
  obtain ⟨e, he, rfl⟩ := simplify_eq_ok_iff.1 hr
  have hfree := epsilonFree_of_eliminateEpsilon he
  have hunits : e.eliminateUnits.value.Admissible := (hfree.admissible hg).eliminateUnits
  have hsub := fun p => mem_drop_drop (p := p) hunits
  refine ⟨hunits.dropNonGenerating.dropUnreachable, reduced_drop hunits, ?_, fun p hp => ?_⟩
  · exact hfree.emptyAtStart.eliminateUnits.of_subset (by simp) hsub
  · exact unit?_of_mem_eliminateUnits (hsub p hp)

/-- Short bodies stay short. -/
lemma length_le_simplify (hg : g.Admissible) (hlength : ∀ p ∈ g.productions, p.body.length ≤ 2)
    (hr : g.simplify.value = .ok r) : ∀ p ∈ r.productions, p.body.length ≤ 2 := by
  obtain ⟨e, he, rfl⟩ := simplify_eq_ok_iff.1 hr
  have hfree := epsilonFree_of_eliminateEpsilon he
  intro p hp
  obtain ⟨q, hq, hbody⟩ :=
    exists_of_mem_eliminateUnits (mem_drop_drop (hfree.admissible hg).eliminateUnits hp)
  rw [← hbody]
  exact hfree.length_le (by decide) hlength hq

/-- The reduced form has the same language. -/
theorem yields_start_simplify (hg : g.Admissible) (hcap : g.WithinCapacity)
    (hr : g.simplify.value = .ok r) : r.Yields [r.start] w ↔ g.Yields [g.start] w := by
  obtain ⟨e, he, rfl⟩ := simplify_eq_ok_iff.1 hr
  have hfree := epsilonFree_of_eliminateEpsilon he
  have hunits : e.eliminateUnits.value.Admissible := (hfree.admissible hg).eliminateUnits
  rw [start_dropUnreachable, yields_dropUnreachable _ hunits.dropNonGenerating,
    yields_dropNonGenerating hunits, yields_eliminateUnits, start_dropNonGenerating,
    start_eliminateUnits, hfree.yields_start_iff hg hcap]
  -- the start symbol is reachable
  intro s hs _
  rw [List.mem_singleton.1 hs]
  exact start_mem_reachable

/-! ## Normal form -/

/-- The passes that make up the normal form. -/
lemma normalize_eq_ok_iff :
    g.normalize.value = .ok c ↔ ∃ b, g.binarize.value = .ok b ∧ ∃ r, b.simplify.value = .ok r ∧
      r.isolateTerminals.value = .ok c := by
  simp only [normalize, Logged.value_andThenOk_eq_ok]
  constructor
  · rintro ⟨r, ⟨b, hb, hr⟩, hc⟩
    exact ⟨b, hb, r, hr, hc⟩
  · rintro ⟨b, hb, r, hr, hc⟩
    exact ⟨r, ⟨b, hb, hr⟩, hc⟩

lemma start_plain : ∀ s ∈ [g.start], s.isTerminal = true ∨ s ∈ g.nonterminals :=
  plain_of_mem_nonterminals (mem_nonterminals.2 (.inl rfl))

lemma yields_start_normalize (hg : g.Admissible) (hc : g.normalize.value = .ok c) :
    c.Yields [c.start] w ↔ g.Yields [g.start] w := by
  obtain ⟨b, hb, r, hr, hc⟩ := normalize_eq_ok_iff.1 hc
  have hbadm : b.Admissible := hg.binarize hb
  have hcap : b.WithinCapacity := withinCapacity_of_length_le fun p => length_le_of_binarize hb
  have hradm : r.Admissible := (simple_of_simplify hbadm hr).admissible
  calc c.Yields [c.start] w
      ↔ r.Yields [r.start] w := by
        rw [start_isolateTerminals hradm hc]
        exact yields_isolateTerminals hradm hc start_plain
    _ ↔ b.Yields [b.start] w := yields_start_simplify hbadm hcap hr
    _ ↔ g.Yields [g.start] w := by
        rw [start_binarize hb]
        exact yields_binarize hg hb start_plain

/-- The normal form is in normal form, has an empty body at a start symbol that occurs in no body or
not at all, and is reduced. -/
lemma shape_of_normalize (hg : g.Admissible) (hc : g.normalize.value = .ok c) :
    c.isNormal = true ∧ c.EmptyAtStart ∧ c.Reduced := by
  obtain ⟨b, hb, r, hr, hc⟩ := normalize_eq_ok_iff.1 hc
  have hbadm : b.Admissible := hg.binarize hb
  have hsimple := simple_of_simplify hbadm hr
  have hlength := length_le_simplify hbadm (fun p => length_le_of_binarize hb) hr
  refine ⟨?_, ?_, ?_⟩
  · exact isNormal_isolateTerminals hsimple.admissible hsimple.emptyAtStart hlength
      hsimple.unitFree hc
  · exact hsimple.emptyAtStart.isolateTerminals hsimple.admissible hc
  · exact hsimple.reduced.isolateTerminals hsimple.admissible hc

lemma start_normalize_isNonterminal (hg : g.Admissible) (hc : g.normalize.value = .ok c) :
    c.start.isNonterminal = true := by
  obtain ⟨b, hb, r, hr, hc⟩ := normalize_eq_ok_iff.1 hc
  have hsimple := simple_of_simplify (hg.binarize hb) hr
  rw [start_isolateTerminals hsimple.admissible hc]
  exact hsimple.admissible.start

/-! ## Main results -/

/-- A grammar in which the reserved nonterminal is the start symbol, stands in a body, vanishes and
lies on a cycle of unit productions. -/
def tangled : Grammar :=
  ⟨'$', .ofList [⟨'$', ['a', '$', 'b']⟩, ⟨'$', ['A']⟩, ⟨'$', []⟩, ⟨'A', ['$']⟩,
    ⟨'A', ['c', 'A', '$']⟩]⟩

/-- Its normal form. -/
def untangled : Grammar :=
  ⟨'D', .ofList [⟨'D', []⟩, ⟨'D', ['E', 'B']⟩, ⟨'D', ['F', 'C']⟩, ⟨'D', ['c']⟩,
    ⟨'$', ['E', 'B']⟩, ⟨'$', ['F', 'C']⟩, ⟨'$', ['c']⟩,
    ⟨'A', ['E', 'B']⟩, ⟨'A', ['F', 'C']⟩, ⟨'A', ['c']⟩, ⟨'B', ['$', 'G']⟩, ⟨'B', ['b']⟩,
    ⟨'C', ['A', '$']⟩, ⟨'C', ['E', 'B']⟩, ⟨'C', ['F', 'C']⟩, ⟨'C', ['c']⟩,
    ⟨'E', ['a']⟩, ⟨'F', ['c']⟩, ⟨'G', ['b']⟩]⟩

lemma built_tangled : tangled.Built :=
  @Built.rules _ '$' [('$', [['a', '$', 'b'], ['A'], []]), ('A', [['$'], ['c', 'A', '$']])] rfl

lemma normalize_tangled : tangled.normalize.value = .ok untangled := by decide +kernel

/-- A grammar and its normal form have the same language. -/
theorem inLanguage_normalize_iff (hg : g.Built) (hc : g.normalize.value = .ok c) (w : Form) :
    c.InLanguage w ↔ g.InLanguage w := by
  rw [inLanguage_iff_yields, inLanguage_iff_yields]
  exact yields_start_normalize hg.admissible hc

theorem inLanguage_untangled_iff :
    tangled.Built ∧ tangled.normalize.value = .ok untangled ∧
      ∀ w, untangled.InLanguage w ↔ tangled.InLanguage w :=
  ⟨built_tangled, normalize_tangled, inLanguage_normalize_iff built_tangled normalize_tangled⟩

/-- The normal form is strict: only the start symbol may have an empty body, and then it occurs in
no body; every other nonterminal is useful; and no production is left exactly if the language
is empty. -/
theorem strict_of_normalize (hg : g.Built) (hc : g.normalize.value = .ok c) :
    c.isNormal = true ∧
    (c.has c.start [] = true → c.occurs c.start = false) ∧
    (∀ a ∈ c.nonterminals, a ≠ c.start →
      (∃ w, c.Generates a w) ∧ ∃ u v, c.Derives [c.start] (u ++ a :: v)) ∧
    ((∀ p, p ∉ c.productions) ↔ ∀ w, ¬g.InLanguage w) := by
  obtain ⟨hnormal, hempty, hreduced⟩ := shape_of_normalize hg.admissible hc
  have hlanguage : ∀ w, c.Yields [c.start] w ↔ g.InLanguage w := by
    intro w
    rw [inLanguage_iff_yields]
    exact yields_start_normalize hg.admissible hc
  refine ⟨hnormal, fun hhas => ?_, fun a ha hne => ⟨?_, ?_⟩, fun hnone w hw => ?_, fun hno => ?_⟩
  · rw [← Bool.not_eq_true, occurs_iff]
    rintro ⟨p, hp, hmem⟩
    exact hempty.absent (has_iff.1 hhas) p hp hmem
  · obtain ⟨w, hw⟩ := hreduced.exists_yields ha hne
    exact ⟨w, generates_iff_yields.2 hw⟩
  · exact exists_derives_of_path (hreduced.reached a ha)
  · -- without productions the start symbol, which is no terminal, yields nothing
    rcases yields_singleton_iff.1 ((hlanguage w).2 hw) with ⟨ht, -⟩ | ⟨p, hp, -⟩
    · rw [Symbol.isTerminal_eq_false (start_normalize_isNonterminal hg.admissible hc)] at ht
      contradiction
    · exact hnone p hp
  · exact hreduced.eq_empty fun w hw => hno w ((hlanguage w).1 hw)

theorem strict_untangled :
    tangled.Built ∧ tangled.normalize.value = .ok untangled ∧
      untangled.isNormal = true ∧
      (untangled.has untangled.start [] = true → untangled.occurs untangled.start = false) ∧
      (∀ a ∈ untangled.nonterminals, a ≠ untangled.start →
        (∃ w, untangled.Generates a w) ∧ ∃ u v, untangled.Derives [untangled.start] (u ++ a :: v)) ∧
      ((∀ p, p ∉ untangled.productions) ↔ ∀ w, ¬tangled.InLanguage w) :=
  ⟨built_tangled, normalize_tangled, strict_of_normalize built_tangled normalize_tangled⟩

end Grammar

end ContextFree
