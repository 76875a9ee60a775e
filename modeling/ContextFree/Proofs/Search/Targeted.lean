import ContextFree.Proofs.Search.Enumeration
import ContextFree.Proofs.Search.Replay

/-!
# Deriving one word

A derivation of a given word is searched for among the forms that are not longer than the word,
so the search always ends. It returns a chain exactly if the search can come upon the word, and
within the capacity that is so for every word of the language (`isSome_derive_iff`). The chain is
a derivation of the word that was asked for (`proves_of_derive`).

Looking for one word loses nothing against listing all of them, also beyond the capacity
(`isSome_derive_iff_mem_words`): both searches apply the same contracted bodies, and no form from
which the word can be got is longer than the word or begins with other terminals.
-/

namespace ContextFree.Grammar

variable {g : Grammar} {word : Form} {cutoff : Cutoff} {rounds : Nat}

/-- Nothing but the given word is found. -/
lemma form_eq_of_mem_found {track : Bool} {t : Node}
    (ht : t ∈
      ((Space.ofGrammar g (some word.length) (some word)).explore track cutoff rounds).found) :
    t.form = word := by
  have hfinds := (Space.explore_sound Space.lengthens_ofGrammar track cutoff rounds).1 t ht
  simpa [Space.wants, Space.ofGrammar] using hfinds.wants

lemma proves_of_derive {chain : Derivation}
    (hchain : (g.derive word cutoff rounds).value = some chain) :
    Derivation.Proves g chain word := by
  obtain ⟨t, hfirst, rfl⟩ := Option.map_eq_some_iff.1 hchain
  have ht := List.mem_of_mem_head? hfirst
  obtain ⟨chain, hchain, hproves, -⟩ := Space.proves_of_mem_found ht
  rwa [hchain, Option.getD_some, ← form_eq_of_mem_found ht]

/-- The search returns a chain if and only if it can come upon the word. -/
lemma isSome_derive_iff_attains (hg : g.Admissible)
    (hended : (g.derive word .never rounds).ended = true) :
    (g.derive word .never rounds).value.isSome = true ↔
      (Space.ofGrammar g (some word.length) (some word)).Attains word := by
  have hfound := Space.mem_explore_iff (f := word) Space.lengthens_ofGrammar
    (Space.expandsNonwords_ofGrammar hg) hended
  rw [← hfound, derive, Option.isSome_map]
  constructor
  · intro hsome
    obtain ⟨t, hfirst⟩ := Option.isSome_iff_exists.1 hsome
    have ht := List.mem_of_mem_head? hfirst
    exact List.mem_map.2 ⟨t, ht, form_eq_of_mem_found ht⟩
  · intro hword
    obtain ⟨t, ht, -⟩ := List.mem_map.1 hword
    exact List.isSome_head?.2 (List.ne_nil_of_mem ht)

lemma admits_target : (Space.ofGrammar g (some word.length) (some word)).Admits word := by
  simp [Space.Admits, Space.ofGrammar, Space.wants]

/-- Within the capacity, every word of the language is derived and no other. -/
theorem isSome_derive_iff (hg : g.Admissible) (hcap : g.WithinCapacity)
    (hended : (g.derive word .never rounds).ended = true) :
    (g.derive word .never rounds).value.isSome = true ↔ g.InLanguage word := by
  rw [isSome_derive_iff_attains hg hended, Space.attains_iff hg, Space.yields_start_iff hcap,
    inLanguage_iff_yields]
  exact and_iff_right admits_target

/-- The search for a word comes to its end. -/
lemma exists_ended_derive (g : Grammar) (word : Form) :
    ∃ n, ∀ rounds ≥ n, (g.derive word .never rounds).ended = true :=
  Space.exists_ended_explore Space.lengthens_ofGrammar <|
    Space.finite_forms (finite_length_le word.length) fun _ hf => Space.length_le_of_viable hf rfl

/-- There are finitely many words up to a length, so one number of generations is enough for the
searches for all of them. -/
lemma exists_ended_derive_of_length_le (g : Grammar) (l : Nat) :
    ∃ n, ∀ rounds ≥ n, ∀ w : Form, w.length ≤ l → (g.derive w .never rounds).ended = true := by
  choose enough henough using g.exists_ended_derive
  obtain ⟨n, hn⟩ := ((finite_length_le l).image enough).bddAbove
  refine ⟨n, fun rounds hrounds w hw => henough w rounds ?_⟩
  have hle : enough w ≤ n := hn (Set.mem_image_of_mem enough hw)
  omega

/-! ## Against the enumeration -/

/-- The bounds of both searches admit the word, and apart from their bounds the spaces are one: what
the contracted bodies yield does not depend on them. -/
lemma attains_target_iff (hg : g.Admissible) {limit : Nat} (hlimit : word.length ≤ limit) :
    (Space.ofGrammar g (some word.length) (some word)).Attains word ↔
      (Space.ofGrammar g (some limit) none).Attains word := by
  have hadmits : (Space.ofGrammar g (some limit) none).Admits word := by
    simpa [Space.Admits, Space.ofGrammar, Space.wants] using hlimit
  rw [Space.attains_iff hg, Space.attains_iff hg]
  exact and_congr (iff_of_true admits_target hadmits) Iff.rfl

/-- A derivation of a word is found if and only if the enumeration lists the word, for every bound
that is not below the length of the word. Both searches come to their end. -/
theorem isSome_derive_iff_mem_words (hg : g.Built) (word : Form) {limit : Nat}
    (hlimit : word.length ≤ limit) :
    ∃ n, ∀ rounds ≥ n, ∀ rounds' ≥ n,
      (g.derive word .never rounds).ended = true ∧
      (g.words (some limit) .never rounds').ended = true ∧
      ((g.derive word .never rounds).value.isSome = true ↔
        word ∈ (g.words (some limit) .never rounds').value) := by
  obtain ⟨n, hn⟩ := g.exists_ended_derive word
  obtain ⟨m, hm⟩ := g.exists_ended_words limit
  refine ⟨max n m, fun rounds hrounds rounds' hrounds' => ?_⟩
  have hderive : (g.derive word .never rounds).ended = true := hn rounds (by omega)
  have hwords : (g.words (some limit) .never rounds').ended = true := hm rounds' (by omega)
  refine ⟨hderive, hwords, ?_⟩
  calc (g.derive word .never rounds).value.isSome = true
      ↔ (Space.ofGrammar g (some word.length) (some word)).Attains word :=
        isSome_derive_iff_attains hg.admissible hderive
    _ ↔ (Space.ofGrammar g (some limit) none).Attains word :=
        attains_target_iff hg.admissible hlimit
    _ ↔ word ∈ (g.words (some limit) .never rounds').value :=
        (mem_words_iff_attains hg.admissible hwords).symm

/-- A grammar with a body beyond the capacity: its symbols vanish, but none of them is left out. -/
def crowded : Grammar :=
  ⟨'S', .ofList [⟨'S', List.replicate 63 'A'⟩, ⟨'S', ['A', 'S', 'b']⟩, ⟨'A', ['a']⟩, ⟨'A', []⟩]⟩

lemma built_crowded : crowded.Built :=
  @Built.rules _ 'S' [('S', [List.replicate 63 'A', ['A', 'S', 'b']]), ('A', [['a'], []])]
    (by decide +kernel)

theorem isSome_derive_iff_mem_words_crowded :
    crowded.Built ∧ ['b'].length ≤ 64 ∧ ∃ n, ∀ rounds ≥ n, ∀ rounds' ≥ n,
      (crowded.derive ['b'] .never rounds).ended = true ∧
      (crowded.words (some 64) .never rounds').ended = true ∧
      ((crowded.derive ['b'] .never rounds).value.isSome = true ↔
        ['b'] ∈ (crowded.words (some 64) .never rounds').value) :=
  ⟨built_crowded, by decide, isSome_derive_iff_mem_words built_crowded ['b'] (by decide)⟩

end ContextFree.Grammar
