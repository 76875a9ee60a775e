import ContextFree.Proofs.Search.Cancellation
import ContextFree.Proofs.Search.Enumeration

/-!
# Words with and without their derivations

The enumeration of words tracks no chains, that of derivations does, and this changes neither the
forms nor the questions of the search (`Space.forget_explore`). So both tell of the same words.
Afterwards each sorts what it returns: the words by length and then lexicographically, the
derivations by the number of their forms alone. Since a chain ends in the form of its node, the
derivations that are returned are those of the words that are returned, one for each, and the
sorting is stable (`Grammar.derivations_match_words`).
-/

namespace ContextFree

/-! ## Sorting by a measure -/

section

variable {α : Type} (measure : α → Nat)

/-- The order by a measure. -/
def byMeasure (a b : α) : Bool := decide (measure a ≤ measure b)

lemma byMeasure_iff {a b : α} : byMeasure measure a b = true ↔ measure a ≤ measure b :=
  decide_eq_true_iff

lemma byMeasure_trans (a b c : α) (hab : byMeasure measure a b = true)
    (hbc : byMeasure measure b c = true) : byMeasure measure a c = true := by
  rw [byMeasure_iff] at hab hbc ⊢
  omega

lemma byMeasure_total (a b : α) : (byMeasure measure a b || byMeasure measure b a) = true := by
  rw [Bool.or_eq_true, byMeasure_iff, byMeasure_iff]
  omega

lemma pairwise_mergeSort_byMeasure (l : List α) :
    (l.mergeSort (byMeasure measure)).Pairwise fun a b => measure a ≤ measure b := by
  have hsorted := List.pairwise_mergeSort (byMeasure_trans measure) (byMeasure_total measure) l
  exact hsorted.imp (byMeasure_iff measure).1

/-- Elements of the same measure keep their order. -/
lemma filter_mergeSort_byMeasure (l : List α) (k : Nat) :
    (l.mergeSort (byMeasure measure)).filter (fun a => measure a == k) =
      l.filter fun a => measure a == k := by
  -- among themselves they are in order already, so they are left so
  have hpairwise : (l.filter fun a => measure a == k).Pairwise
      fun a b => byMeasure measure a b = true := by
    apply List.pairwise_of_forall_mem_list
    intro a ha b hb
    have hak := beq_iff_eq.1 (List.mem_filter.1 ha).2
    have hbk := beq_iff_eq.1 (List.mem_filter.1 hb).2
    rw [byMeasure_iff]
    omega
  have hsublist := List.sublist_mergeSort (byMeasure_trans measure) (byMeasure_total measure)
    hpairwise List.filter_sublist
  have hkept := hsublist.filter fun a => measure a == k
  simp only [List.filter_filter, Bool.and_self] at hkept
  -- sorting makes them neither more nor fewer
  have hlength := ((List.mergeSort_perm l (byMeasure measure)).filter
    fun a => measure a == k).length_eq
  exact (hkept.eq_of_length hlength.symm).symm

end

/-! ## What the enumerations have in common -/

/-- The derivation that an event reports, if it reports one. -/
def Event.chain? (event : Event) : Option Derivation :=
  match event.action with
  | .found _ chain => chain
  | _ => none

/-- The derivations that a log reports, in order. -/
def reportedChains (events : List Event) : List Derivation := events.filterMap Event.chain?

/-- An enumeration of words and one of derivations that agree: they report the same words in the
same order, the second one each with a chain that ends in it, and ask equally often whether to
continue. The derivations returned are derivations of the words returned, one for each, ordered by
the number of their forms and then as they were reported. -/
structure Matches (plain : Searched (List Form)) (detailed : Searched (List Derivation)) :
    Prop where
  reported : reportedWords detailed.events = reportedWords plain.events
  chains : (reportedChains detailed.events).map Derivation.word = reportedWords detailed.events
  checks : detailed.checks = plain.checks
  ended : detailed.ended = plain.ended
  words : (detailed.value.map Derivation.word).Perm plain.value
  nodup : (detailed.value.map Derivation.word).Nodup
  ordered : detailed.value.Pairwise fun c d => c.length ≤ d.length
  stable : ∀ k, detailed.value.filter (fun c => c.length == k) =
    (reportedChains detailed.events).filter fun c => c.length == k

namespace Grammar

variable {g : Grammar} {limit : Option Nat} {cutoff : Cutoff} {rounds : Nat}

lemma derivations_value :
    (g.derivations limit cutoff rounds).value =
      (((Space.ofGrammar g limit none).explore true cutoff rounds).found.map
        fun t => t.chain.getD []).mergeSort (byMeasure List.length) := by
  simp only [derivations, List.map_map]
  rfl

lemma reportedChains_derivations :
    reportedChains (g.derivations limit cutoff rounds).events =
      ((Space.ofGrammar g limit none).explore true cutoff rounds).found.map
        fun t => t.chain.getD [] := by
  rw [reportedChains, tells_derivations.events, List.filterMap_cons_none rfl, List.filterMap_map,
    ← List.filterMap_eq_map]
  rfl

/-- The chains that are tracked end in the forms of their nodes. -/
lemma map_word_chain_found :
    (((Space.ofGrammar g limit none).explore true cutoff rounds).found.map
        fun t => t.chain.getD []).map Derivation.word =
      ((Space.ofGrammar g limit none).explore true cutoff rounds).found.map Node.form := by
  rw [List.map_map]
  refine List.map_congr_left fun t ht => ?_
  obtain ⟨chain, hchain, hproves, -⟩ := Space.proves_of_mem_found ht
  rw [Function.comp_apply, hchain, Option.getD_some, hproves.word_eq]

lemma map_word_derivations_perm :
    ((g.derivations limit cutoff rounds).value.map Derivation.word).Perm
      (((Space.ofGrammar g limit none).explore true cutoff rounds).found.map Node.form) := by
  rw [derivations_value, ← map_word_chain_found]
  exact (List.mergeSort_perm _ _).map Derivation.word

lemma matches_derivations :
    Matches (g.words limit cutoff rounds) (g.derivations limit cutoff rounds) where
  reported := by
    rw [tells_derivations.reportedWords, tells_words.reportedWords]
    exact Space.map_form_found _ true cutoff rounds
  chains := by
    rw [reportedChains_derivations, tells_derivations.reportedWords, map_word_chain_found]
  checks := Space.checks_explore _ true cutoff rounds
  ended := Space.ended_explore _ true cutoff rounds
  words := by
    refine map_word_derivations_perm.trans ?_
    rw [Space.map_form_found]
    exact (List.mergeSort_perm _ Form.shortlex).symm
  nodup := map_word_derivations_perm.nodup_iff.2 (g.nodup_found limit true cutoff rounds)
  ordered := by
    rw [derivations_value]
    exact pairwise_mergeSort_byMeasure List.length _
  stable k := by
    rw [derivations_value, reportedChains_derivations]
    exact filter_mergeSort_byMeasure List.length _ k

/-- Both enumerations agree, whatever the bound on the length of words and however they are cut
off. With a budget of questions, or with a bound and no cutoff, they come to their end. -/
theorem derivations_match_words (g : Grammar) (limit : Option Nat) (cutoff : Cutoff) :
    (∀ rounds, Matches (g.words limit cutoff rounds) (g.derivations limit cutoff rounds)) ∧
    ((∃ n, cutoff = .after n) ∨ (limit.isSome = true ∧ cutoff = .never) →
      ∃ k, ∀ rounds ≥ k, (g.words limit cutoff rounds).ended = true) := by
  refine ⟨fun rounds => matches_derivations, ?_⟩
  rintro (⟨n, rfl⟩ | ⟨hlimit, rfl⟩)
  · exact ⟨n + 1, fun rounds hrounds => (Space.explore_stop hrounds).1⟩
  · obtain ⟨l, rfl⟩ := Option.isSome_iff_exists.1 hlimit
    exact g.exists_ended_words l

theorem derivations_match_words_swelling :
    (∀ rounds, Matches (swelling.words none (.after 7) rounds)
      (swelling.derivations none (.after 7) rounds)) ∧
    ∃ k, ∀ rounds ≥ k, (swelling.words none (.after 7) rounds).ended = true :=
  ⟨(derivations_match_words swelling none (.after 7)).1,
    (derivations_match_words swelling none (.after 7)).2 (.inl ⟨7, rfl⟩)⟩

end Grammar

end ContextFree
