import ContextFree.Command
import ContextFree.Proofs.Search.Settling
import ContextFree.Proofs.Search.Targeted
import ContextFree.Proofs.Transformed

/-!
# The report of the shortest words

The words are found in the normal form and then derived in the grammar itself, and a word whose
derivation is not found would be left out without notice. This never happens within the
capacity: both grammars have the same words (`shortest_normalize_iff`), and every word of the
language is derived. So the command writes that the language is empty if and only if it is, and
otherwise the rows of its table and the lines of its file are one derivation for each shortest word
(`run_shortest_exact`).
-/

namespace ContextFree

/-! ## Derivations of a list of words -/

namespace Derivation

/-- If every word is derived, the derivations are derivations of the words in their order. -/
lemma map_word_filterMap {words : List Form} {derive : Form → Option Derivation}
    (hderive : ∀ w ∈ words, ∃ chain, derive w = some chain ∧ chain.word = w) :
    (words.filterMap derive).map word = words := by
  induction words with
  | nil => rfl
  | cons w words ih =>
    obtain ⟨chain, hchain, hword⟩ := hderive w (by simp)
    rw [List.filterMap_cons_some hchain, List.map_cons, hword,
      ih fun v hv => hderive v (List.mem_cons_of_mem _ hv)]

end Derivation

namespace Grammar

variable {g c : Grammar} {w : Form}

/-- The chains are derivations in the grammar, one for each of the shortest words of its language,
in the lexicographic order of the words. -/
structure DerivesShortest (g : Grammar) (chains : List Derivation) : Prop where
  proves : ∀ chain ∈ chains, Derivation.Proves g chain chain.word
  ordered : (chains.map Derivation.word).Pairwise fun u v => Form.before u v = true
  words : ∀ w, w ∈ chains.map Derivation.word ↔
    g.InLanguage w ∧ ∀ v, g.InLanguage v → w.length ≤ v.length

/-- A grammar and its normal form have the same shortest words. -/
lemma shortest_normalize_iff (hg : g.Admissible) (hc : g.normalize.value = .ok c) :
    c.Shortest [c.start] w ↔ g.Shortest [g.start] w := by
  have hyields : ∀ v, c.Yields [c.start] v ↔ g.Yields [g.start] v :=
    fun v => yields_start_normalize hg hc
  constructor
  · intro hw
    exact ⟨(hyields w).1 hw.yields, fun v hv => hw.least v ((hyields v).2 hv)⟩
  · intro hw
    exact ⟨(hyields w).2 hw.yields, fun v hv => hw.least v ((hyields v).1 hv)⟩

/-- Without words there is nothing to search in the normal form. -/
lemma shortestWords_normalize_of_empty (hg : g.Admissible) (hc : g.normalize.value = .ok c)
    (hempty : ∀ w, ¬g.InLanguage w) (rounds : Nat) :
    (c.shortestWords .never rounds).ended = true ∧ (c.shortestWords .never rounds).value = [] := by
  have hnone : ∀ p, p ∉ c.productions := by
    refine (shape_of_normalize hg hc).2.2.eq_empty fun w hw => hempty w ?_
    rw [inLanguage_iff_yields]
    exact (yields_start_normalize hg hc).1 hw
  have hbodies : c.bodies c.start = [] :=
    List.eq_nil_iff_forall_not_mem.2 fun body hbody => hnone _ (mem_bodies.1 hbody)
  unfold shortestWords
  dsimp only
  rw [hbodies]
  exact ⟨rfl, rfl⟩

/-- The derivations of the shortest words: all searches end, and no word is left out. -/
lemma exists_derivesShortest (hg : g.Admissible) (hcap : g.WithinCapacity)
    (hc : g.normalize.value = .ok c) (hlanguage : ∃ w, g.InLanguage w) :
    ∃ n, ∀ rounds ≥ n, (c.shortestWords .never rounds).ended = true ∧
      (∀ w ∈ (c.shortestWords .never rounds).value, (g.derive w .never rounds).ended = true) ∧
      g.DerivesShortest ((c.shortestWords .never rounds).value.filterMap
        fun w => (g.derive w .never rounds).value) := by
  obtain ⟨v, hv⟩ := hlanguage
  rw [inLanguage_iff_yields] at hv
  have hnormal : c.isNormal = true := (shape_of_normalize hg hc).1
  obtain ⟨n, hn⟩ := exists_shortestWords (hg.normalize hc) hnormal
    ⟨v, (yields_start_normalize hg hc).2 hv⟩
  obtain ⟨m, hm⟩ := g.exists_ended_derive_of_length_le v.length
  refine ⟨max n m, fun rounds hrounds => ?_⟩
  obtain ⟨hended, hsorted, hmem⟩ := hn rounds (by omega)
  have hshortest : ∀ w, w ∈ (c.shortestWords .never rounds).value ↔ g.Shortest [g.start] w :=
    fun w => (hmem w).trans (shortest_normalize_iff hg hc)
  have hderives : ∀ w ∈ (c.shortestWords .never rounds).value,
      (g.derive w .never rounds).ended = true := by
    intro w hw
    exact hm rounds (by omega) w (((hshortest w).1 hw).least v hv)
  -- each word is in the language of the grammar, so its derivation is found
  have hchains : ∀ w ∈ (c.shortestWords .never rounds).value,
      ∃ chain, (g.derive w .never rounds).value = some chain ∧ chain.word = w := by
    intro w hw
    have hword : g.InLanguage w := inLanguage_iff_yields.2 ((hshortest w).1 hw).yields
    have hsome := (isSome_derive_iff hg hcap (hderives w hw)).2 hword
    obtain ⟨chain, hchain⟩ := Option.isSome_iff_exists.1 hsome
    exact ⟨chain, hchain, (proves_of_derive hchain).word_eq⟩
  refine ⟨hended, hderives, fun chain hchain => ?_, ?_, fun w => ?_⟩
  · obtain ⟨w, -, hw⟩ := List.mem_filterMap.1 hchain
    have hproves := proves_of_derive hw
    rwa [hproves.word_eq]
  · rwa [Derivation.map_word_filterMap hchains]
  · rw [Derivation.map_word_filterMap hchains, hshortest, shortest_start_iff]

end Grammar

/-! ## What is written -/

namespace Derivation

/-- The text of a derivation begins with the start symbol. -/
lemma Proves.head?_text {g : Grammar} {chain : Derivation} {w : Form} (hproves : Proves g chain w) :
    chain.text.toList.head? = some g.start := by
  obtain ⟨forms, rfl⟩ : ∃ forms, chain = [g.start] :: forms := by
    cases chain with
    | nil => exact absurd hproves.head (by simp)
    | cons form forms => exact ⟨forms, by rw [Option.some.inj hproves.head]⟩
  rw [text, String.toList_ofList]
  cases forms with
  | nil => rfl
  | cons form forms => rfl

end Derivation

namespace Document

/-- The table of derivations numbers them and shows each with its word. -/
lemma shown_ofDerivations (chains : List Derivation) :
    (ofDerivations chains).shown = .table
      { titles := ["#", "Word", "Derivation"]
        rows := chains.zipIdx.map fun (chain, i) =>
          [toString (i + 1), Form.text chain.word, chain.text] } := by
  rw [ofDerivations, ofRows, List.zipIdx_map, List.map_map]
  rfl

/-- The file has one line per derivation. -/
lemma saved_ofDerivations (chains : List Derivation) :
    (ofDerivations chains).saved = String.join (chains.map fun chain => chain.text ++ "\n") := by
  rw [ofDerivations, ofRows, List.map_map]
  rfl

/-- Lines of derivations are not taken for the remark that there are no words. -/
lemma saved_ofDerivations_ne {g : Grammar} (hg : g.Admissible) {chains : List Derivation}
    (hproves : ∀ chain ∈ chains, Derivation.Proves g chain chain.word) (hne : chains ≠ []) :
    (ofDerivations chains).saved ≠ "the language is empty\n" := by
  obtain ⟨chain, chains, rfl⟩ := List.exists_cons_of_ne_nil hne
  intro heq
  have hfirst : (chain.text ++ "\n" ++ String.join
      (chains.map fun chain => chain.text ++ "\n")).toList.head? = some 't' := by
    rw [← String.join_cons, ← List.map_cons (f := fun chain : Derivation => chain.text ++ "\n"),
      ← saved_ofDerivations, heq]
    rfl
  -- the first line begins with the start symbol, which is a nonterminal
  have hstart : g.start = 't' := by
    simpa [(hproves chain List.mem_cons_self).head?_text] using hfirst
  have hn := hg.start
  rw [hstart] at hn
  exact absurd hn (by decide)

end Document

namespace Report

/-- What is left of a document: it is written after all else, and saved unless there is no place for
it. -/
lemma leaves_finished (destination : Destination) (first second third : String)
    (document : Document) :
    let report := finished destination [.text first, .text second, .text third] document
    report.output = [.text first, .text second, .text third, document.shown] ∧
    (∀ draw, (report.printed draw).output =
      first ++ second ++ third ++ document.shown.print draw) ∧
    (report.saved, report.failure) =
      match destination with
      | .nowhere => (none, none)
      | .file => (some document.saved, none)
      | .unwritable => (none, some .unwritable) := by
  have houtput : (finished destination [.text first, .text second, .text third] document).output =
      [.text first, .text second, .text third, document.shown] := by
    cases destination <;> rfl
  refine ⟨houtput, fun draw => ?_, ?_⟩
  · rw [printed, houtput]
    simp [Written.print, String.join_cons, String.append_assoc]
  · cases destination <;> rfl

end Report

namespace Command

variable {g c : Grammar}

/-- What the derivations of the shortest words are reported as. -/
lemma leaves_shortest (hc : g.normalize.value = .ok c) (options : Options)
    {chains : List Derivation} {document : Document}
    (hchains : (c.shortestWords .never options.rounds).value.filterMap
      (fun w => (g.derive w .never options.rounds).value) = chains)
    (hdocument : (if chains.isEmpty then .ofText "the language is empty\n"
      else .ofDerivations chains) = document) :
    let report := run g options shortest
    report.output = [.text (options.narration g.normalize.events), .text searchNotice,
      .text (options.narration (c.shortestWords .never options.rounds).events),
      document.shown] ∧
    (∀ draw, (report.printed draw).output =
      options.narration g.normalize.events ++ searchNotice ++
        options.narration (c.shortestWords .never options.rounds).events ++
        document.shown.print draw) ∧
    (report.saved, report.failure) =
      match options.destination with
      | .nowhere => (none, none)
      | .file => (some document.saved, none)
      | .unwritable => (none, some .unwritable) := by
  have hrun : run g options shortest = Report.finished options.destination
      [.text (options.narration g.normalize.events), .text searchNotice,
        .text (options.narration (c.shortestWords .never options.rounds).events)] document := by
    rw [run, reportShortest]
    dsimp only
    rw [hc, ← hdocument, ← hchains]
    rfl
  dsimp only
  rw [hrun]
  exact Report.leaves_finished ..

/-- The command for the shortest words, given enough generations, comes to its end. After what is
told about the search it writes a single thing and saves it as a text, if that is asked for: the
remark that the language is empty, exactly if the grammar derives no word. Otherwise the rows of the
table and the lines of the text are one derivation in the grammar for each word of least length, in
the lexicographic order of the words. -/
theorem run_shortest_exact (hg : g.Built) (hcap : g.WithinCapacity)
    (hc : g.normalize.value = .ok c) (options : Options) :
    ∃ n, ∀ rounds ≥ n,
      (c.shortestWords .never rounds).ended = true ∧
      (∀ w ∈ (c.shortestWords .never rounds).value, (g.derive w .never rounds).ended = true) ∧
      ∃ result text,
        (run g { options with rounds } shortest).output =
          [.text (options.narration g.normalize.events), .text searchNotice,
            .text (options.narration (c.shortestWords .never rounds).events), result] ∧
        (∀ draw, ((run g { options with rounds } shortest).printed draw).output =
          options.narration g.normalize.events ++ searchNotice ++
            options.narration (c.shortestWords .never rounds).events ++ result.print draw) ∧
        ((run g { options with rounds } shortest).saved,
          (run g { options with rounds } shortest).failure) =
          (match options.destination with
          | .nowhere => (none, none)
          | .file => (some text, none)
          | .unwritable => (none, some .unwritable)) ∧
        (result = .text "the language is empty\n\n" ↔ ∀ w, ¬g.InLanguage w) ∧
        (text = "the language is empty\n" ↔ ∀ w, ¬g.InLanguage w) ∧
        ((∃ w, g.InLanguage w) → ∃ chains, g.DerivesShortest chains ∧
          result = .table
            { titles := ["#", "Word", "Derivation"]
              rows := chains.zipIdx.map fun (chain, i) =>
                [toString (i + 1), Form.text chain.word, chain.text] } ∧
          text = String.join (chains.map fun chain => chain.text ++ "\n")) := by
  by_cases hlanguage : ∃ w, g.InLanguage w
  · obtain ⟨n, hn⟩ := Grammar.exists_derivesShortest hg.admissible hcap hc hlanguage
    refine ⟨n, fun rounds hrounds => ?_⟩
    obtain ⟨hended, hderives, hshortest⟩ := hn rounds hrounds
    generalize hchains : (c.shortestWords .never rounds).value.filterMap
      (fun w => (g.derive w .never rounds).value) = chains at hshortest
    -- a shortest word has its derivation in the list
    have hne : chains ≠ [] := by
      obtain ⟨v, hv⟩ := hlanguage
      obtain ⟨w, hw⟩ := Grammar.exists_shortest (Grammar.inLanguage_iff_yields.1 hv)
      obtain ⟨chain, hchain, -⟩ :=
        List.mem_map.1 ((hshortest.words w).2 (Grammar.shortest_start_iff.1 hw))
      exact List.ne_nil_of_mem hchain
    have hsome : ¬∀ w, ¬g.InLanguage w := fun hnone => hlanguage.elim hnone
    obtain ⟨houtput, hprinted, hsaved⟩ := leaves_shortest hc { options with rounds } hchains
      (if_neg (by simpa using hne))
    refine ⟨hended, hderives, (Document.ofDerivations chains).shown,
      (Document.ofDerivations chains).saved, houtput, hprinted, hsaved, ?_, ?_,
      fun _ => ⟨chains, hshortest, Document.shown_ofDerivations chains,
        Document.saved_ofDerivations chains⟩⟩
    · rw [Document.shown_ofDerivations]
      exact iff_of_false (by simp) hsome
    · exact iff_of_false (Document.saved_ofDerivations_ne hg.admissible hshortest.proves hne) hsome
  · have hempty : ∀ w, ¬g.InLanguage w := fun w hw => hlanguage ⟨w, hw⟩
    refine ⟨0, fun rounds _ => ?_⟩
    obtain ⟨hended, hvalue⟩ :=
      Grammar.shortestWords_normalize_of_empty hg.admissible hc hempty rounds
    have hchains : (c.shortestWords .never rounds).value.filterMap
        (fun w => (g.derive w .never rounds).value) = [] := by
      rw [hvalue, List.filterMap_nil]
    obtain ⟨houtput, hprinted, hsaved⟩ := leaves_shortest hc { options with rounds } hchains
      (if_pos rfl)
    exact ⟨hended, by simp [hvalue], .text "the language is empty\n\n",
      "the language is empty\n", houtput, hprinted, hsaved, iff_of_true rfl hempty,
      iff_of_true rfl hempty, fun hw => absurd hw hlanguage⟩

/-- A grammar in which a shortest word comes from a body whose nonterminal vanishes, and whose
normal form takes a nonterminal for a new purpose. -/
def forked : Grammar :=
  ⟨'S', .ofList [⟨'S', ['a', 'A']⟩, ⟨'S', ['b', 'B', 'a']⟩, ⟨'S', ['b', 'B']⟩,
    ⟨'A', ['a', 'A']⟩, ⟨'A', []⟩, ⟨'B', []⟩, ⟨'C', ['B']⟩]⟩

/-- Its normal form. -/
def forkedNormal : Grammar :=
  ⟨'S', .ofList [⟨'S', ['B', 'D']⟩, ⟨'S', ['D', 'A']⟩, ⟨'S', ['a']⟩, ⟨'S', ['b']⟩,
    ⟨'A', ['D', 'A']⟩, ⟨'A', ['a']⟩, ⟨'B', ['b']⟩, ⟨'D', ['a']⟩]⟩

lemma built_forked : forked.Built :=
  @Grammar.Built.rules _ 'S' [('S', [['a', 'A'], ['b', 'B', 'a'], ['b', 'B']]),
    ('A', [['a', 'A'], []]), ('B', [[]]), ('C', [['B']])] rfl

lemma withinCapacity_forked : forked.WithinCapacity := by decide +kernel

lemma normalize_forked : forked.normalize.value = .ok forkedNormal := by decide +kernel

/-- The options of a command that is quiet and saves its result. -/
def savingOptions : Options where
  limit := none
  word := ""
  rounds := patience
  narrated := false
  style := ⟨false, false⟩
  destination := .file

theorem run_shortest_forked :
    forked.Built ∧ forked.WithinCapacity ∧ forked.normalize.value = .ok forkedNormal ∧
    ∃ n, ∀ rounds ≥ n,
      (forkedNormal.shortestWords .never rounds).ended = true ∧
      (∀ w ∈ (forkedNormal.shortestWords .never rounds).value,
        (forked.derive w .never rounds).ended = true) ∧
      ∃ result text,
        (run forked { savingOptions with rounds } shortest).output =
          [.text (savingOptions.narration forked.normalize.events), .text searchNotice,
            .text (savingOptions.narration (forkedNormal.shortestWords .never rounds).events),
            result] ∧
        (∀ draw, ((run forked { savingOptions with rounds } shortest).printed draw).output =
          savingOptions.narration forked.normalize.events ++ searchNotice ++
            savingOptions.narration (forkedNormal.shortestWords .never rounds).events ++
            result.print draw) ∧
        ((run forked { savingOptions with rounds } shortest).saved,
          (run forked { savingOptions with rounds } shortest).failure) = (some text, none) ∧
        (result = .text "the language is empty\n\n" ↔ ∀ w, ¬forked.InLanguage w) ∧
        (text = "the language is empty\n" ↔ ∀ w, ¬forked.InLanguage w) ∧
        ((∃ w, forked.InLanguage w) → ∃ chains, forked.DerivesShortest chains ∧
          result = .table
            { titles := ["#", "Word", "Derivation"]
              rows := chains.zipIdx.map fun (chain, i) =>
                [toString (i + 1), Form.text chain.word, chain.text] } ∧
          text = String.join (chains.map fun chain => chain.text ++ "\n")) :=
  ⟨built_forked, withinCapacity_forked, normalize_forked,
    run_shortest_exact built_forked withinCapacity_forked normalize_forked savingOptions⟩

end Command

end ContextFree
