import ContextFree.Proofs.Built
import ContextFree.Proofs.Closures
import ContextFree.Transform.Useless

/-!
# Without useless nonterminals

Dropping the productions that yield nothing changes no language, and dropping the productions
of unreachable nonterminals changes none of those that can be reached. Done in this order, what
is left is reduced (`Grammar.Reduced`): every production yields a word, and every nonterminal in
use can be reached from the start symbol.

The main result is `useful_of_drop`.
-/

namespace ContextFree.Grammar

variable {g h r : Grammar} {a : Symbol} {p : Production} {u w : Form}

lemma Admissible.of_subset (hg : g.Admissible) (hstart : h.start = g.start)
    (hsub : ∀ p ∈ h.productions, p ∈ g.productions) : h.Admissible where
  start := hstart ▸ hg.start
  head p hp := hg.head p (hsub p hp)
  body p hp := hg.body p (hsub p hp)

/-! ## Dropping productions -/

/-- A stage that drops the productions of a certain kind, and is skipped where there is nothing
useless, for then no production is of that kind. -/
lemma mem_drop {stage : Stage} {notes notes' : List Action} {useless : SortedSet Symbol}
    {doomed : Production → Bool}
    (hnone : useless.isEmpty = true → ∀ p ∈ g.productions, doomed p = false) :
    p ∈ (if useless.isEmpty then stage.skip notes g
      else stage.perform notes' ((g.listing.filter doomed).map Edit.remove) g).value.productions ↔
      p ∈ g.productions ∧ doomed p = false := by
  split
  · rename_i hempty
    rw [Stage.value_skip]
    exact (and_iff_left_of_imp (hnone hempty p)).symm
  · rw [Stage.value_perform, Edit.mem_foldl_apply (by simp)]
    simp only [List.mem_map, List.mem_filter, mem_listing, Edit.remove.injEq, reduceCtorEq,
      and_false, exists_false, false_or, exists_eq_right, not_and, Bool.not_eq_true]
    exact and_congr_right fun hp => forall_prop_of_true hp

lemma start_drop {stage : Stage} {notes notes' : List Action} {useless : SortedSet Symbol}
    {doomed : Production → Bool} :
    (if useless.isEmpty then stage.skip notes g
      else stage.perform notes' ((g.listing.filter doomed).map Edit.remove) g).value.start =
      g.start := by
  split
  · rfl
  · rw [Stage.value_perform, Edit.start_foldl_apply]
    simp

/-! ## Nonterminals that generate nothing -/

lemma mem_nonGenerating : a ∈ g.nonGenerating ↔ a ∈ g.nonterminals ∧ a ∉ g.generating := by
  simp [nonGenerating]

lemma productive_iff (hg : g.Admissible) (hp : p ∈ g.productions) :
    (∀ s ∈ p.body, s ∉ g.nonGenerating) ↔ ∃ w, g.Yields p.body w := by
  constructor
  · intro hbody
    refine exists_yields_of_forall fun s hs => ?_
    rcases hg.terminal_or_nonterminal hp hs with ht | hn
    · exact ⟨[s], .terminal ht .nil⟩
    · have hmem : s ∈ g.nonterminals := mem_nonterminals.2 (.inr ⟨p, hp, .inr ⟨hs, hn⟩⟩)
      by_contra hnone
      refine hbody s hs (mem_nonGenerating.2 ⟨hmem, fun hgen => hnone ?_⟩)
      exact exists_yields_of_mem_generating hg hgen
  · rintro ⟨w, hw⟩ s hs hnot
    rw [mem_nonGenerating] at hnot
    exact hnot.2 (hw.mem_generating s hs (hg.isNonterminal hnot.1))

@[simp] lemma start_dropNonGenerating : g.dropNonGenerating.value.start = g.start :=
  start_drop

/-- Exactly the productions that yield a word are kept. -/
theorem mem_dropNonGenerating (hg : g.Admissible) :
    p ∈ g.dropNonGenerating.value.productions ↔
      p ∈ g.productions ∧ ∃ w, g.Yields p.body w := by
  rw [← and_congr_right fun hp => productive_iff hg hp]
  refine (mem_drop fun hempty p _ => ?_).trans (and_congr_right fun _ => ?_)
  · simp [SortedSet.isEmpty_iff.1 hempty]
  · simp

lemma Admissible.dropNonGenerating (hg : g.Admissible) :
    g.dropNonGenerating.value.Admissible :=
  hg.of_subset start_dropNonGenerating fun _ hp => ((mem_dropNonGenerating hg).1 hp).1

/-- No language changes. -/
theorem yields_dropNonGenerating (hg : g.Admissible) :
    g.dropNonGenerating.value.Yields u w ↔ g.Yields u w := by
  have hsub : ∀ p ∈ g.dropNonGenerating.value.productions, p ∈ g.productions :=
    fun p hp => ((mem_dropNonGenerating hg).1 hp).1
  constructor
  · exact Yields.mono hsub
  · refine Yields.of_simulates fun p hp x hx => ?_
    -- the production yields something, so it is kept
    exact .of_body ((mem_dropNonGenerating hg).2 ⟨hp, x, hx.mono hsub⟩) hx

/-- Each production that is kept still yields a word. -/
lemma productive_dropNonGenerating (hg : g.Admissible)
    (hp : p ∈ g.dropNonGenerating.value.productions) :
    ∃ w, g.dropNonGenerating.value.Yields p.body w := by
  obtain ⟨-, w, hw⟩ := (mem_dropNonGenerating hg).1 hp
  exact ⟨w, (yields_dropNonGenerating hg).2 hw⟩

/-! ## Nonterminals that can not be reached -/

lemma mem_unreachable : a ∈ g.unreachable ↔ a ∈ g.nonterminals ∧ a ∉ g.reachable := by
  simp [unreachable]

@[simp] lemma start_dropUnreachable : g.dropUnreachable.value.start = g.start :=
  start_drop

/-- Exactly the productions of reachable nonterminals are kept. -/
theorem mem_dropUnreachable :
    p ∈ g.dropUnreachable.value.productions ↔ p ∈ g.productions ∧ p.head ∈ g.reachable := by
  have hiff : p ∈ g.productions → (p.head ∉ g.unreachable ↔ p.head ∈ g.reachable) := by
    intro hp
    have hmem : p.head ∈ g.nonterminals := mem_nonterminals.2 (.inr ⟨p, hp, .inl rfl⟩)
    simp [mem_unreachable, hmem]
  rw [← and_congr_right hiff]
  refine (mem_drop fun hempty p _ => ?_).trans (and_congr_right fun _ => ?_)
  · simp [SortedSet.isEmpty_iff.1 hempty]
  · simp

lemma Admissible.dropUnreachable (hg : g.Admissible) : g.dropUnreachable.value.Admissible :=
  hg.of_subset start_dropUnreachable fun _ hp => (mem_dropUnreachable.1 hp).1

lemma start_mem_reachable : g.start ∈ g.reachable :=
  mem_reachable_iff_path.2 ⟨mem_nonterminals.2 (.inl rfl), .refl⟩

/-- What a reachable nonterminal mentions can be reached. -/
lemma mem_reachable_of_mem_body (hp : p ∈ g.productions) (hhead : p.head ∈ g.reachable)
    (ha : a ∈ p.body) (hn : a.isNonterminal = true) : a ∈ g.reachable := by
  have hpath := (mem_reachable_iff_path.1 hhead).2.tail ⟨p.body, hp, ha, hn⟩
  exact mem_reachable_iff_path.2 ⟨path_mem_nonterminals hpath, hpath⟩

/-- No language of a reachable nonterminal changes. -/
theorem yields_dropUnreachable (hu : ∀ s ∈ u, s.isNonterminal = true → s ∈ g.reachable)
    (hg : g.Admissible) : g.dropUnreachable.value.Yields u w ↔ g.Yields u w := by
  constructor
  · exact Yields.mono fun p hp => (mem_dropUnreachable.1 hp).1
  · intro hy
    -- a symbol is read in the smaller grammar, provided that it can be reached
    have hclosed : g.Closed fun s x => (s.isNonterminal = true → s ∈ g.reachable) →
        g.dropUnreachable.value.Yields [s] x := by
      refine ⟨fun s hs _ => .terminal hs .nil, fun p hp x hx hreach => ?_⟩
      have hhead : p.head ∈ g.reachable := hreach (hg.head p hp)
      refine .of_body (mem_dropUnreachable.2 ⟨hp, hhead⟩) (reads_yields_self_iff.1 ?_)
      exact hx.mono fun s hs y hy => hy (mem_reachable_of_mem_body hp hhead hs)
    exact reads_yields_self_iff.1 ((hy.reads hclosed).mono fun s hs x hx => hx (hu s hs))

/-! ## Reduced grammars -/

/-- Every production yields a word, and every nonterminal in use can be reached. -/
structure Reduced (g : Grammar) : Prop where
  productive : ∀ p ∈ g.productions, ∃ w, g.Yields p.body w
  reached : ∀ a ∈ g.nonterminals, Relation.ReflTransGen g.Mentions g.start a

/-- Paths from the start symbol survive the removal of what can not be reached. -/
lemma path_dropUnreachable (hpath : Relation.ReflTransGen g.Mentions g.start a) :
    Relation.ReflTransGen g.dropUnreachable.value.Mentions g.start a := by
  induction hpath with
  | refl => exact .refl
  | @tail b c hpath hbc ih =>
    obtain ⟨body, hp, hc, hn⟩ := hbc
    have hb : b ∈ g.reachable := mem_reachable_iff_path.2 ⟨path_mem_nonterminals hpath, hpath⟩
    exact ih.tail ⟨body, mem_dropUnreachable.2 ⟨hp, hb⟩, hc, hn⟩

/-- Every nonterminal that is left in use can be reached. -/
lemma path_of_mem_dropUnreachable (ha : a ∈ g.dropUnreachable.value.nonterminals) :
    Relation.ReflTransGen g.dropUnreachable.value.Mentions g.dropUnreachable.value.start a := by
  rw [start_dropUnreachable]
  refine path_dropUnreachable (mem_reachable_iff_path.1 ?_).2
  rcases mem_nonterminals.1 ha with rfl | ⟨p, hp, hpa⟩
  · rw [start_dropUnreachable]
    exact start_mem_reachable
  · obtain ⟨hp, hhead⟩ := mem_dropUnreachable.1 hp
    rcases hpa with rfl | ⟨ha, hn⟩
    · exact hhead
    · exact mem_reachable_of_mem_body hp hhead ha hn

lemma Reduced.dropUnreachable (hg : g.Admissible)
    (hproductive : ∀ p ∈ g.productions, ∃ w, g.Yields p.body w) :
    g.dropUnreachable.value.Reduced where
  productive p hp := by
    obtain ⟨hp, hhead⟩ := mem_dropUnreachable.1 hp
    obtain ⟨w, hw⟩ := hproductive p hp
    refine ⟨w, (yields_dropUnreachable (fun s hs hn => ?_) hg).2 hw⟩
    exact mem_reachable_of_mem_body hp hhead hs hn
  reached a := path_of_mem_dropUnreachable

/-- Dropping first what generates nothing and then what can not be reached reduces a grammar. -/
theorem reduced_drop (hg : g.Admissible) :
    g.dropNonGenerating.value.dropUnreachable.value.Reduced :=
  .dropUnreachable hg.dropNonGenerating fun _ => productive_dropNonGenerating hg

namespace Reduced

lemma exists_yields (hg : g.Reduced) (ha : a ∈ g.nonterminals) (hstart : a ≠ g.start) :
    ∃ w, g.Yields [a] w := by
  rcases mem_nonterminals.1 ha with rfl | ⟨p, hp, rfl | ⟨hs, -⟩⟩
  · contradiction
  · obtain ⟨w, hw⟩ := hg.productive p hp
    exact ⟨w, .of_body hp hw⟩
  · obtain ⟨w, hw⟩ := hg.productive p hp
    exact hw.exists_of_mem hs

/-- Without a word, a reduced grammar has no productions. -/
lemma eq_empty (hg : g.Reduced) (hempty : ∀ w, ¬g.Yields [g.start] w) :
    ∀ p, p ∉ g.productions := by
  have hstart : ∀ body, (⟨g.start, body⟩ : Production) ∉ g.productions := by
    intro body hp
    obtain ⟨w, hw⟩ := hg.productive _ hp
    exact hempty w (.of_body hp hw)
  intro p hp
  have hpath := hg.reached p.head (mem_nonterminals.2 (.inr ⟨p, hp, .inl rfl⟩))
  rcases Relation.ReflTransGen.cases_head hpath with heq | ⟨b, ⟨body, hb, -⟩, -⟩
  · exact hstart p.body (heq ▸ hp)
  · exact hstart body hb

end Reduced

/-! ## Main result -/

/-- Dropping what generates nothing changes no language, and dropping what can not be reached none
of a symbol in a form derived from the start symbol. After the one and then the other, the language
is the same, and every nonterminal in use but the start symbol occurs in a form derived from it and
derives a word. -/
theorem useful_of_drop (hg : g.Built) (hr : g.dropNonGenerating.value.dropUnreachable.value = r) :
    (∀ a w, g.dropNonGenerating.value.Generates a w ↔ g.Generates a w) ∧
    (∀ a, (∃ u v, g.Derives [g.start] (u ++ a :: v)) →
      ∀ w, g.dropUnreachable.value.Generates a w ↔ g.Generates a w) ∧
    (∀ w, r.InLanguage w ↔ g.InLanguage w) ∧
    ∀ a ∈ r.nonterminals, a ≠ r.start →
      (∃ u v, r.Derives [r.start] (u ++ a :: v)) ∧ ∃ w, r.Generates a w := by
  subst hr
  have hadm := hg.admissible
  have hreduced := reduced_drop hadm
  simp only [inLanguage_iff_yields, generates_iff_yields]
  refine ⟨fun a w => yields_dropNonGenerating hadm, fun a ha w => ?_, fun w => ?_,
    fun a ha hne => ⟨exists_derives_of_path (hreduced.reached a ha), hreduced.exists_yields ha hne⟩⟩
  · refine yields_dropUnreachable (fun s hs hn => ?_) hadm
    obtain rfl := List.mem_singleton.1 hs
    exact (mem_reachable_iff hadm).2 ⟨hn, ha⟩
  · rw [start_dropUnreachable, yields_dropUnreachable ?_ hadm.dropNonGenerating,
      start_dropNonGenerating, yields_dropNonGenerating hadm]
    intro s hs _
    rw [List.mem_singleton.1 hs]
    exact start_mem_reachable

/-- A grammar in which `B` can only be reached beside `A`, which derives no word, and `E` has no
bodies at all. -/
def overgrown : Grammar :=
  ⟨'S', .ofList [⟨'S', ['A', 'B']⟩, ⟨'S', ['a', 'C']⟩, ⟨'A', ['a', 'A']⟩, ⟨'B', ['b']⟩,
    ⟨'C', ['c', 'S']⟩, ⟨'C', []⟩, ⟨'C', ['E']⟩, ⟨'D', ['S', 'D']⟩, ⟨'D', ['d']⟩]⟩

/-- What is left of it: without `A` nothing leads to `B` any more. -/
def pruned : Grammar :=
  ⟨'S', .ofList [⟨'S', ['a', 'C']⟩, ⟨'C', ['c', 'S']⟩, ⟨'C', []⟩]⟩

lemma built_overgrown : overgrown.Built :=
  @Built.rules _ 'S' [('S', [['A', 'B'], ['a', 'C']]), ('A', [['a', 'A']]), ('B', [['b']]),
    ('C', [['c', 'S'], [], ['E']]), ('D', [['S', 'D'], ['d']])] rfl

lemma drop_overgrown : overgrown.dropNonGenerating.value.dropUnreachable.value = pruned := by
  decide +kernel

theorem useful_pruned :
    overgrown.Built ∧ overgrown.dropNonGenerating.value.dropUnreachable.value = pruned ∧
      (∀ a w, overgrown.dropNonGenerating.value.Generates a w ↔ overgrown.Generates a w) ∧
      (∀ a, (∃ u v, overgrown.Derives [overgrown.start] (u ++ a :: v)) →
        ∀ w, overgrown.dropUnreachable.value.Generates a w ↔ overgrown.Generates a w) ∧
      (∀ w, pruned.InLanguage w ↔ overgrown.InLanguage w) ∧
      ∀ a ∈ pruned.nonterminals, a ≠ pruned.start →
        (∃ u v, pruned.Derives [pruned.start] (u ++ a :: v)) ∧ ∃ w, pruned.Generates a w :=
  ⟨built_overgrown, drop_overgrown, useful_of_drop built_overgrown drop_overgrown⟩

end ContextFree.Grammar
