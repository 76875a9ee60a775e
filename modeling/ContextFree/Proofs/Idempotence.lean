import ContextFree.Proofs.Transformed

/-!
# Transforming a second time

For every pass there is a kind of grammar that it leaves as it is, without asking for a fresh
nonterminal: `binarize` one without long bodies, `eliminateEpsilon` one with an empty body at most
at a start symbol that occurs in no body, and so on. The result of a pass is of that kind, and the
later passes of the reduced form and of the normal form keep it so. Hence a second run succeeds
even if no nonterminal is left to take, and returns what it is given
(`Transformation.run_idempotent`).
-/

namespace ContextFree

namespace Grammar

variable {g h : Grammar} {p q : Production} {a : Symbol}

/-! ## What each pass leaves as it is -/

lemma filter_listing_eq_nil {bad : Production → Bool}
    (hnone : ∀ p ∈ g.productions, bad p = false) : g.listing.filter bad = [] := by
  rw [List.filter_eq_nil_iff]
  intro p hp
  rw [hnone p (mem_listing.1 hp)]
  exact Bool.false_ne_true

lemma binarize_eq_self (hlength : ∀ p ∈ g.productions, p.body.length ≤ 2) :
    g.binarize.value = .ok g := by
  have hlong : g.longProductions = [] := by
    apply filter_listing_eq_nil
    intro p hp
    have hle := hlength p hp
    rw [decide_eq_false_iff_not]
    omega
  unfold binarize
  rw [hlong]
  rfl

lemma isolateTerminals_eq_self (hmixed : ∀ p ∈ g.productions, p.isMixed = false) :
    g.isolateTerminals.value = .ok g := by
  have hnone : g.mixedProductions = [] := filter_listing_eq_nil hmixed
  unfold isolateTerminals
  rw [hnone]
  rfl

lemma eliminateUnits_eq_self (hunit : ∀ p ∈ g.productions, p.unit? = none) :
    g.eliminateUnits.value = g := by
  apply ext_productions start_eliminateUnits
  intro p
  rw [mem_eliminateUnits]
  constructor
  · rintro ⟨-, b, hpath, hp⟩
    -- there is no link along which a path could leave the head
    rcases Relation.ReflTransGen.cases_head hpath with heq | ⟨c, hlink, -⟩
    · rwa [← heq] at hp
    · have hnone := hunit _ hlink.1
      rw [Production.unit?_eq_some_iff.2 ⟨rfl, hlink.2⟩] at hnone
      contradiction
  · intro hp
    exact ⟨hunit p hp, p.head, .refl, hp⟩

lemma dropNonGenerating_eq_self (hg : g.Admissible)
    (hproductive : ∀ p ∈ g.productions, ∃ w, g.Yields p.body w) :
    g.dropNonGenerating.value = g := by
  apply ext_productions start_dropNonGenerating
  intro p
  rw [mem_dropNonGenerating hg]
  exact and_iff_left_of_imp (hproductive p)

lemma dropUnreachable_eq_self
    (hreached : ∀ a ∈ g.nonterminals, Relation.ReflTransGen g.Mentions g.start a) :
    g.dropUnreachable.value = g := by
  apply ext_productions start_dropUnreachable
  intro p
  rw [mem_dropUnreachable]
  apply and_iff_left_of_imp
  intro hp
  have hhead := head_mem_nonterminals hp
  exact mem_reachable_iff_path.2 ⟨hhead, hreached p.head hhead⟩

lemma EmptyAtStart.of_mem_nullable (he : g.EmptyAtStart) (ha : a ∈ g.nullable) :
    a = g.start ∧ (⟨g.start, []⟩ : Production) ∈ g.productions :=
  he.of_yields_nil (mem_nullable_iff.1 ha) rfl a (by simp)

/-- A start symbol that occurs in no body is kept, so the pass asks for no other. -/
lemma exists_eliminateEpsilon
    (habsent : g.start ∈ g.nullable → ∀ p ∈ g.productions, g.start ∉ p.body) :
    ∃ h, g.eliminateEpsilon.value = .ok h ∧ h.start = g.start := by
  unfold eliminateEpsilon
  dsimp only
  split
  · exact ⟨g, rfl, rfl⟩
  · split
    · rename_i hstart
      have hs : g.epsilonStart = .ok g.start := by
        have hoccurs : g.occurs g.start = false := by
          rw [← Bool.not_eq_true, occurs_iff]
          rintro ⟨p, hp, hmem⟩
          exact habsent hstart p hp hmem
        rw [epsilonStart, hoccurs, if_neg Bool.false_ne_true]
      rw [hs]
      refine ⟨_, rfl, ?_⟩
      rw [Stage.value_perform]
      exact start_contractAt_restart
    · refine ⟨_, rfl, ?_⟩
      rw [Stage.value_perform, Edit.start_foldl_apply]
      simp [epsilonRemovals]

lemma eliminateEpsilon_eq_self (he : g.EmptyAtStart) : g.eliminateEpsilon.value = .ok g := by
  have habsent : g.start ∈ g.nullable → ∀ p ∈ g.productions, g.start ∉ p.body :=
    fun hstart => he.absent (he.of_mem_nullable hstart).2
  obtain ⟨h, hh, hstart⟩ := exists_eliminateEpsilon habsent
  have hfree := epsilonFree_of_eliminateEpsilon hh
  suffices heq : h = g by rw [hh, heq]
  apply ext_productions hstart
  intro q
  rw [hfree.mem_iff, hstart]
  constructor
  · rintro (⟨-, hq | hq⟩ | ⟨hnull, rfl⟩ | ⟨hne, -⟩)
    · exact hq
    · -- a shortening would leave out the start symbol, which is in no body
      obtain ⟨-, -, m, hp, hm, herased, -⟩ := mem_shortenings.1 hq
      obtain ⟨mark, hmark, hmarked⟩ := List.any_eq_true.1 herased
      have hnull : mark.symbol ∈ g.nullable := by
        simpa using (Marking.of_mem_choices hm).2 mark hmark hmarked
      obtain ⟨hsymbol, hempty⟩ := he.of_mem_nullable hnull
      have hmem : mark.symbol ∈ m.origin := List.mem_map_of_mem hmark
      rw [hsymbol] at hmem
      exact absurd hmem (he.absent hempty _ hp)
    · exact (he.of_mem_nullable hnull).2
    · exact absurd rfl hne
  · intro hq
    by_cases hbody : q.body = []
    · right
      left
      have hhead : q.head = g.start := he.head q hq hbody
      refine ⟨hhead ▸ mem_nullable_of_empty hq hbody, ?_⟩
      rw [← hhead, ← hbody]
    · exact .inl ⟨hbody, .inl hq⟩

/-! ## Reduced form and normal form -/

theorem Simple.simplify_eq_self (hg : g.Simple) : g.simplify.value = .ok g := by
  rw [simplify_eq_ok_iff]
  refine ⟨g, eliminateEpsilon_eq_self hg.emptyAtStart, ?_⟩
  rw [eliminateUnits_eq_self hg.unitFree,
    dropNonGenerating_eq_self hg.admissible hg.reduced.productive,
    dropUnreachable_eq_self hg.reduced.reached]

/-- A production in normal form is neither long nor a unit production nor mixed. -/
lemma of_isNormalProduction (hp : g.isNormalProduction p = true) :
    p.body.length ≤ 2 ∧ p.unit? = none ∧ p.isMixed = false := by
  unfold isNormalProduction at hp
  unfold Production.unit? Production.isMixed
  split at hp
  · rename_i hbody
    simp [hbody]
  · rename_i s hbody
    simp [hbody, Symbol.isNonterminal_eq_false hp]
  · rename_i s t hbody
    rw [Bool.and_eq_true] at hp
    simp [hbody, Symbol.isTerminal_eq_false hp.1, Symbol.isTerminal_eq_false hp.2]
  · contradiction

/-- The normal form is its own normal form. -/
theorem normalize_eq_self (hg : g.Admissible) (hnormal : g.isNormal = true)
    (hempty : g.EmptyAtStart) (hred : g.Reduced) : g.normalize.value = .ok g := by
  have hshape : ∀ p ∈ g.productions,
      p.body.length ≤ 2 ∧ p.unit? = none ∧ p.isMixed = false :=
    fun p hp => of_isNormalProduction (List.all_eq_true.1 hnormal p hp)
  have hsimple : g.Simple := ⟨hg, hred, hempty, fun p hp => (hshape p hp).2.1⟩
  rw [normalize_eq_ok_iff]
  refine ⟨g, binarize_eq_self fun p hp => (hshape p hp).1, g, hsimple.simplify_eq_self, ?_⟩
  exact isolateTerminals_eq_self fun p hp => (hshape p hp).2.2

end Grammar

/-! ## All transformations -/

namespace Transformation

open Grammar

variable {g r : Grammar}

/-- A transformation that is applied to its own result succeeds and changes nothing. -/
theorem run_idempotent (hg : g.Built) (t : Transformation) (hr : (t.run g).value = .ok r) :
    (t.run r).value = .ok r := by
  have hadm : g.Admissible := hg.admissible
  cases t with
  | dropNonGenerating =>
    obtain rfl := Except.ok.inj hr
    show Except.ok _ = _
    rw [dropNonGenerating_eq_self hadm.dropNonGenerating fun p => productive_dropNonGenerating hadm]
  | dropUnreachable =>
    obtain rfl := Except.ok.inj hr
    show Except.ok _ = _
    rw [dropUnreachable_eq_self fun a => path_of_mem_dropUnreachable]
  | eliminateEpsilon =>
    exact eliminateEpsilon_eq_self (epsilonFree_of_eliminateEpsilon hr).emptyAtStart
  | eliminateUnits =>
    obtain rfl := Except.ok.inj hr
    show Except.ok _ = _
    rw [eliminateUnits_eq_self fun p => unit?_of_mem_eliminateUnits]
  | binarize => exact binarize_eq_self fun p => length_le_of_binarize hr
  | isolateTerminals =>
    exact isolateTerminals_eq_self fun p => isMixed_of_isolateTerminals hadm hr
  | simplify => exact (simple_of_simplify hadm hr).simplify_eq_self
  | normalize =>
    obtain ⟨hnormal, hempty, hred⟩ := shape_of_normalize hadm hr
    exact normalize_eq_self (hadm.normalize hr) hnormal hempty hred

theorem run_idempotent_tangled :
    tangled.Built ∧ (normalize.run tangled).value = .ok untangled ∧
      (normalize.run untangled).value = .ok untangled :=
  ⟨built_tangled, normalize_tangled, run_idempotent built_tangled normalize normalize_tangled⟩

end Transformation

end ContextFree
