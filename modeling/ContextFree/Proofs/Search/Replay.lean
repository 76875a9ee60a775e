import ContextFree.Proofs.Search.Moves
import ContextFree.Search.Words

/-!
# Moves are replayed as derivations

The search applies contracted bodies; the chain that it tracks applies the productions of the
grammar and lets the symbols vanish that were left out. Every move passes forms of the grammar from
one form of the search to the next (`MovesBy.passes`), so the chain of a node ends in the form of
the node.

The main result, `proves_of_search`, holds for every way to cut a search off: each chain that
is returned is a derivation in the grammar.
-/

namespace ContextFree

lemma Derivation.Proves.word_eq {g : Grammar} {chain : Derivation} {w : Form}
    (hchain : Derivation.Proves g chain w) : chain.word = w := by
  rw [Derivation.word, List.getLastD_eq_getLast?, hchain.last, Option.getD_some]

namespace Space

variable {g : Grammar} {limit : Option Nat} {target : Option Form} {t : Node} {u v : Form}

/-- A move puts the whole body in and lets symbols of it vanish. -/
theorem MovesBy.passes {a : Symbol} {move : Move} (hmove : MovesBy g u v a move) :
    g.Passes u (move.forms g.erasers) v := by
  have herases : move.marking.Erases fun s => ∃ p ∈ g.erasers, p.head = s :=
    fun mark hmark he => Grammar.mem_erasers_iff.2 (hmove.erases mark hmark he)
  have hpassed := (Grammar.passes_passed Grammar.grounded_erasers herases).context
    move.left move.right
  have hstep : g.Step u (move.left ++ move.marking.origin ++ move.right) := by
    rw [hmove.source]
    exact .apply move.left move.right hmove.production
  rw [hmove.result, Move.forms, List.map_cons]
  exact .cons hstep hpassed

/-- The node has a chain. It begins at the start symbol and passes forms of the grammar up to the
form of the node. -/
def Replays (g : Grammar) (t : Node) : Prop :=
  ∃ l, t.chain = some ([g.start] :: l) ∧ g.Passes [g.start] l t.form

lemma replays_root : Replays g (Node.root true g.start) :=
  ⟨[], rfl, .nil _⟩

lemma replays_vanished (hstart : ∃ p ∈ g.erasers, p.head = g.start) :
    Replays g (Node.vanished true g.erasers g.start) :=
  ⟨vanish g.erasers g.start, rfl, Grammar.passes_vanish Grammar.grounded_erasers hstart⟩

/-- One move further, the forms of the move are added to the chain. -/
lemma Replays.move {t' : Node} (ht : Replays g t)
    (ht' : t' ∈ (ofGrammar g limit target).successors true t) : Replays g t' := by
  obtain ⟨l, hchain, hpasses⟩ := ht
  obtain ⟨a, move, hmove, hreplay⟩ := mem_successors_ofGrammar ht'
  refine ⟨l ++ move.forms g.erasers, ?_, hpasses.append hmove.passes⟩
  rw [hreplay, Node.replay, if_pos rfl, hchain, Option.getD_some, List.cons_append]

lemma Reached.replays (ht : (ofGrammar g limit target).Reached true t) : Replays g t := by
  induction ht with
  | root => exact replays_root
  | move _ ht' ih => exact ih.move ht'

lemma Finds.replays (ht : (ofGrammar g limit target).Finds true t) : Replays g t := by
  rcases ht with ht | ⟨ht, -⟩
  · obtain ⟨rfl, hstart, -⟩ := mem_foundAtOnce.1 ht
    exact replays_vanished hstart
  · exact ht.replays

lemma Finds.isTerminal {space : Space} {track : Bool} (ht : space.Finds track t) :
    ∀ s ∈ t.form, s.isTerminal = true := by
  rcases ht with ht | ⟨-, hterminal, -⟩
  · obtain ⟨rfl, -⟩ := mem_foundAtOnce.1 ht
    exact fun s hs => absurd hs List.not_mem_nil
  · exact List.all_eq_true.1 hterminal

lemma Finds.wants {space : Space} {track : Bool} (ht : space.Finds track t) :
    space.wants t.form = true := by
  rcases ht with ht | ⟨-, -, hwants⟩
  · obtain ⟨rfl, -, hwants⟩ := mem_foundAtOnce.1 ht
    exact hwants
  · exact hwants

/-- Every word that a search with chains finds comes with a derivation of it. -/
lemma proves_of_mem_found {cutoff : Cutoff} {rounds : Nat}
    (ht : t ∈ ((ofGrammar g limit target).explore true cutoff rounds).found) :
    ∃ chain, t.chain = some chain ∧ Derivation.Proves g chain t.form ∧
      ∀ s ∈ t.form, s.isTerminal = true := by
  have hfinds := (explore_sound lengthens_ofGrammar true cutoff rounds).1 t ht
  obtain ⟨l, hchain, hpasses⟩ := hfinds.replays
  obtain ⟨hlinked, hlast⟩ := hpasses.linked
  exact ⟨[g.start] :: l, hchain, ⟨rfl, hlast, hlinked⟩, hfinds.isTerminal⟩

end Space

namespace Grammar

/-- Every chain that a search returns is a derivation in the grammar, from the start symbol to a
word of terminals: to the given word, if a derivation of that one was asked for. This holds for
every bound on the length, however the search is cut off. -/
theorem proves_of_search (g : Grammar) (limit : Option Nat) (word : Form) (cutoff : Cutoff)
    (rounds : Nat) :
    (∀ chain ∈ (g.derivations limit cutoff rounds).value,
      chain ≠ [] ∧ ∃ w, Derivation.Proves g chain w ∧ ∀ s ∈ w, s.isTerminal = true) ∧
    (∀ chain, (g.derive word cutoff rounds).value = some chain →
      chain ≠ [] ∧ Derivation.Proves g chain word ∧ ∀ s ∈ word, s.isTerminal = true) := by
  have hne : ∀ {chain : Derivation} {w : Form}, Derivation.Proves g chain w → chain ≠ [] := by
    intro chain w hproves hnil
    have hhead := hproves.head
    rw [hnil] at hhead
    contradiction
  constructor
  · intro chain hchain
    simp only [derivations, List.mem_mergeSort, List.map_map, List.mem_map] at hchain
    obtain ⟨t, ht, rfl⟩ := hchain
    obtain ⟨chain, hchain, hproves, hterminal⟩ := Space.proves_of_mem_found ht
    simp only [Function.comp_apply, hchain, Option.getD_some]
    exact ⟨hne hproves, t.form, hproves, hterminal⟩
  · intro chain hchain
    obtain ⟨t, hfirst, rfl⟩ := Option.map_eq_some_iff.1 hchain
    have ht := List.mem_of_mem_head? hfirst
    obtain ⟨chain, hchain, hproves, hterminal⟩ := Space.proves_of_mem_found ht
    -- nothing but the word is looked for
    have hword : t.form = word := by
      have hfinds := (Space.explore_sound Space.lengthens_ofGrammar true cutoff rounds).1 t ht
      simpa [Space.wants, Space.ofGrammar] using hfinds.wants
    rw [hword] at hproves hterminal
    rw [hchain, Option.getD_some]
    exact ⟨hne hproves, hproves, hterminal⟩

/-- A grammar in which two nonterminals vanish, one of them by way of the other. -/
def fading : Grammar :=
  ⟨'S', .ofList [⟨'S', ['A', 'B']⟩, ⟨'A', ['B', 'B']⟩, ⟨'B', []⟩, ⟨'B', ['b']⟩]⟩

/-- How a word is derived in it by letting the first nonterminal vanish. -/
def fadingChain : Derivation := [['S'], ['A', 'B'], ['B', 'B', 'B'], ['B', 'B'], ['B'], ['b']]

/-- The search replays the body of the start symbol without its first nonterminal. -/
lemma explore_fading {target : Option Form} (htarget : target = none ∨ target = some ['b']) :
    ((Space.ofGrammar fading (some 1) target).explore true .never 5).found =
      ((Space.ofGrammar fading (some 1) target).foundAtOnce true).reverse ++
        [⟨['b'], some fadingChain⟩] := by
  generalize hspace : Space.ofGrammar fading (some 1) target = space
  have hroot : space.start = 'S' ∧ space.successors true ⟨['S'], some [['S']]⟩ =
      [⟨['B'], some fadingChain.dropLast⟩, ⟨['A'], some [['S'], ['A', 'B'], ['A']]⟩] := by
    rcases htarget with rfl | rfl <;> rw [← hspace] <;> decide +kernel
  have hnext : space.successors true ⟨['B'], some fadingChain.dropLast⟩ =
        [⟨['b'], some fadingChain⟩] ∧
      space.successors true ⟨['A'], some [['S'], ['A', 'B'], ['A']]⟩ =
        [⟨['B'], some [['S'], ['A', 'B'], ['A'], ['B', 'B'], ['B']]⟩] := by
    rcases htarget with rfl | rfl <;> rw [← hspace] <;> decide +kernel
  have hword : space.wants ['b'] = true ∧
      ¬(space.target.isSome && !(space.foundAtOnce true).isEmpty) = true := by
    rcases htarget with rfl | rfl <;> rw [← hspace] <;> decide +kernel
  have hterminal : Symbol.isTerminal 'S' = false ∧ Symbol.isTerminal 'A' = false ∧
      Symbol.isTerminal 'B' = false ∧ Symbol.isTerminal 'b' = true := by decide
  -- of the two forms that are met first, the second one only leads to the first
  rw [Space.explore_eq, Cutoff.reached_never, if_neg Bool.false_ne_true, if_neg hword.2]
  cases hsome : space.target.isSome <;>
    simp [Space.generations, Space.sweep, Progress.push, Space.initial, Node.root, hroot, hnext,
      hword.1, hterminal, hsome]

lemma fadingChain_mem : fadingChain ∈ (fading.derivations (some 1) .never 5).value := by
  simp [derivations, explore_fading (.inl rfl)]

lemma derive_fading : (fading.derive ['b'] .never 5).value = some fadingChain := by
  have hnone : (Space.ofGrammar fading (some 1) (some ['b'])).foundAtOnce true = [] := by
    decide +kernel
  simp [derive, explore_fading (.inr rfl), hnone]

theorem proves_fadingChain :
    (fadingChain ∈ (fading.derivations (some 1) .never 5).value ∧ fadingChain ≠ [] ∧
      ∃ w, Derivation.Proves fading fadingChain w ∧ ∀ s ∈ w, s.isTerminal = true) ∧
    ((fading.derive ['b'] .never 5).value = some fadingChain ∧ fadingChain ≠ [] ∧
      Derivation.Proves fading fadingChain ['b'] ∧
      ∀ s ∈ (['b'] : Form), s.isTerminal = true) :=
  ⟨⟨fadingChain_mem, (proves_of_search fading (some 1) [] .never 5).1 _ fadingChain_mem⟩,
    derive_fading, (proves_of_search fading (some 1) ['b'] .never 5).2 _ derive_fading⟩

end Grammar

end ContextFree
