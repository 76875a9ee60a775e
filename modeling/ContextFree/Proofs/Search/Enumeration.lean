import ContextFree.Proofs.Built
import ContextFree.Proofs.Paths
import ContextFree.Proofs.Search.Exhaustion
import ContextFree.Proofs.Search.Moves
import ContextFree.Search.Words

/-!
# Enumerating words

The search comes upon a word exactly if the contracted bodies yield it and it is within the
bounds (`attains_iff`). That nothing is pruned too early rests on one fact: a form from which a
word within the bounds can be got is viable (`viable_of_yields`), since contracted bodies are
never empty and so no form is longer than the words it yields. The words themselves are reached
by replacing the leftmost nonterminal again and again (`path_of_yields`).

With a bound on the length there are finitely many forms, so the enumeration ends, and its
result is the list of the words of the language up to that length (`words_exact`).
-/

namespace ContextFree

namespace Grammar

variable {g : Grammar} {s : Symbol} {u w : Form}

/-- Without empty bodies, a form is not longer than what it yields. -/
lemma Yields.length_le (hne : ∀ p ∈ g.productions, p.body ≠ []) (hy : g.Yields u w) :
    u.length ≤ w.length := by
  induction hy with
  | nil => exact Nat.le_refl 0
  | terminal _ _ ih =>
    rw [List.length_cons, List.length_cons]
    omega
  | @production p u x y hp _ _ ihx ihy =>
    have hpos : 0 < p.body.length := List.length_pos_iff.2 (hne p hp)
    rw [List.length_cons, List.length_append]
    omega

/-- The terminals that a form begins with are those that the word begins with. -/
lemma Yields.takeWhile_prefix (hhead : ∀ p ∈ g.productions, p.head.isTerminal = false)
    (hy : g.Yields u w) : u.takeWhile Symbol.isTerminal <+: w := by
  induction hy with
  | nil => exact List.nil_prefix
  | terminal hs _ ih =>
    rw [List.takeWhile_cons_of_pos hs]
    exact (List.prefix_cons_inj _).2 ih
  | @production p u x y hp _ _ _ _ =>
    rw [List.takeWhile_cons_of_neg (by simp [hhead p hp])]
    exact List.nil_prefix

lemma Yields.terminal_or_head (hy : g.Yields u w) (hs : s ∈ u) :
    s.isTerminal = true ∨ ∃ p ∈ g.productions, p.head = s := by
  obtain ⟨x, hx⟩ := hy.exists_of_mem hs
  rcases yields_singleton_iff.1 hx with ⟨ht, -⟩ | ⟨p, hp, hhead, -⟩
  · exact .inl ht
  · exact .inr ⟨p, hp, hhead⟩

end Grammar

namespace Space

variable {g : Grammar} {limit : Option Nat} {target : Option Form} {t r u w z : Form}

/-- The word is within the bounds: not too long, and the one that is looked for. -/
def Admits (space : Space) (w : Form) : Prop :=
  (∀ n ∈ space.limit, w.length ≤ n) ∧ space.wants w = true

lemma head_isTerminal (hg : g.Admissible) {p : Production}
    (hp : p ∈ (ofGrammar g limit target).grammar.productions) : p.head.isTerminal = false := by
  obtain ⟨⟨q, hq, hhead⟩, -⟩ := of_mem_grammar hp
  rw [← hhead]
  exact Symbol.isTerminal_eq_false (hg.head q hq)

/-- What the contracted bodies yield, the grammar yields. -/
lemma yields_of_grammar (hy : (ofGrammar g limit target).grammar.Yields u w) : g.Yields u w :=
  hy.of_simulates fun _ hp _ hx => .of_derives (of_mem_grammar hp).2.2 hx

/-- A form that yields a word within the bounds is viable. -/
theorem viable_of_yields (hg : g.Admissible)
    (hy : (ofGrammar g limit target).grammar.Yields u w)
    (hw : (ofGrammar g limit target).Admits w) : (ofGrammar g limit target).viable u = true := by
  have hlength := hy.length_le fun p hp => (of_mem_grammar hp).2.1
  have hprefix := hy.takeWhile_prefix fun p hp => head_isTerminal hg hp
  rw [viable, Bool.and_eq_true, Bool.and_eq_true]
  refine ⟨⟨?_, ?_⟩, ?_⟩
  · cases hlimit : (ofGrammar g limit target).limit with
    | none => rfl
    | some n =>
      have hbound := hw.1 n hlimit
      exact decide_eq_true (by omega)
  · rw [List.all_eq_true]
    intro s hs
    rcases (yields_of_grammar hy).terminal_or_head hs with ht | ⟨p, hp, rfl⟩
    · rw [ht, Bool.true_or]
    · have hgenerating := (yields_of_grammar hy).mem_generating p.head hs (hg.head p hp)
      rw [Bool.or_eq_true]
      exact .inr (decide_eq_true hgenerating)
  · cases htarget : (ofGrammar g limit target).target with
    | none => rfl
    | some x =>
      have hwants := hw.2
      rw [wants, htarget, Option.all_some, beq_iff_eq] at hwants
      rw [Option.all_some, List.isPrefixOf_iff_prefix, ← hwants]
      exact hprefix

/-- Behind terminals, a part of a form is replaced by what it yields, leftmost nonterminal first,
as long as the whole form leads to a word within the bounds. -/
theorem path_of_yields (hg : g.Admissible)
    (hy : (ofGrammar g limit target).grammar.Yields u w)
    (ht : ∀ s ∈ t, s.isTerminal = true)
    (hr : (ofGrammar g limit target).grammar.Yields r z)
    (hadmits : (ofGrammar g limit target).Admits (t ++ w ++ z))
    (hpath : Relation.ReflTransGen (ofGrammar g limit target).Leads [g.start] (t ++ u ++ r)) :
    Relation.ReflTransGen (ofGrammar g limit target).Leads [g.start] (t ++ w ++ r) := by
  induction hy generalizing t r z with
  | nil => exact hpath
  | @terminal s u w hs _ ih =>
    -- the terminal joins those before it
    have ht' : ∀ a ∈ t ++ [s], a.isTerminal = true := by
      intro a ha
      rcases List.mem_append.1 ha with ha | ha
      · exact ht a ha
      · rwa [List.mem_singleton.1 ha]
    have hrest := ih ht' hr (by simpa using hadmits) (by simpa using hpath)
    simpa using hrest
  | @production p u x y hp hx hy ihx ihy =>
    have hhead : p.head ∉ t := by
      intro hmem
      have hterminal := ht _ hmem
      rw [head_isTerminal hg hp] at hterminal
      contradiction
    have hyields : (ofGrammar g limit target).grammar.Yields (t ++ (p.body ++ (u ++ r)))
        (t ++ (x ++ (y ++ z))) :=
      (Grammar.yields_self ht).append (hx.append (hy.append hr))
    have hadmits' : (ofGrammar g limit target).Admits (t ++ (x ++ (y ++ z))) := by
      simpa using hadmits
    have hlead := leads_of_mem_grammar hp hhead (viable_of_yields hg hyields hadmits')
    -- first the body is replaced by what it yields, then the rest of the form
    have hbody := ihx ht (hy.append hr) (by simpa using hadmits)
      (by simpa using hpath.tail (by simpa using hlead))
    have htx : ∀ s ∈ t ++ x, s.isTerminal = true := by
      intro s hs
      rcases List.mem_append.1 hs with hs | hs
      · exact ht s hs
      · exact hx.isTerminal s hs
    have hrest := ihy htx hr (by simpa using hadmits) (by simpa using hbody)
    simpa using hrest

/-! ## What the search comes upon -/

lemma length_le_of_viable {space : Space} (hu : space.viable u = true) {n : Nat}
    (hn : n ∈ space.limit) : u.length ≤ n := by
  rw [viable, Bool.and_eq_true, Bool.and_eq_true] at hu
  have hlength := hu.1.1
  rw [Option.mem_def.1 hn, Option.all_some, decide_eq_true_iff] at hlength
  exact hlength

lemma derives_of_path {space : Space} (hpath : Relation.ReflTransGen space.Leads u w) :
    space.grammar.Derives u w := by
  induction hpath with
  | refl => exact .refl _
  | tail _ hlead ih => exact ih.trans (.step (step_of_leads hlead) (.refl _))

lemma expandsNonwords_ofGrammar (hg : g.Admissible) :
    (ofGrammar g limit target).ExpandsNonwords := by
  intro u v huv
  obtain ⟨left, right, hp⟩ := step_of_leads huv
  rw [List.all_eq_false]
  exact ⟨_, List.mem_append_right _ List.mem_cons_self, by simp [head_isTerminal hg hp]⟩

lemma Attains.admits (hg : g.Admissible) (hw : (ofGrammar g limit target).Attains w) :
    (ofGrammar g limit target).Admits w := by
  refine ⟨fun n hn => ?_, hw.wants⟩
  rcases hw with ⟨rfl, -⟩ | ⟨hpath, hterminal, -⟩
  · exact Nat.zero_le n
  · rcases Relation.ReflTransGen.cases_tail hpath with rfl | ⟨v, -, hlead⟩
    · -- the start symbol alone is no word
      have hstart := List.all_eq_true.1 hterminal g.start (List.mem_singleton.2 rfl)
      rw [Symbol.isTerminal_eq_false hg.start] at hstart
      contradiction
    · exact length_le_of_viable (viable_of_leads hlead) hn

/-- The search comes upon the words within the bounds that the contracted bodies yield, and upon the
empty word if the start symbol is nullable. -/
theorem attains_iff (hg : g.Admissible) :
    (ofGrammar g limit target).Attains w ↔ (ofGrammar g limit target).Admits w ∧
      ((w = [] ∧ g.start ∈ g.nullable) ∨
        (ofGrammar g limit target).grammar.Yields [g.start] w) := by
  constructor
  · intro hw
    refine ⟨hw.admits hg, ?_⟩
    rcases hw with ⟨rfl, herasers, -⟩ | ⟨hpath, hterminal, -⟩
    · exact .inl ⟨rfl, Grammar.mem_erasers_iff.1 herasers⟩
    · exact .inr (Grammar.yields_iff.2 ⟨derives_of_path hpath, List.all_eq_true.1 hterminal⟩)
  · rintro ⟨hadmits, ⟨rfl, hstart⟩ | hy⟩
    · exact .inl ⟨rfl, Grammar.mem_erasers_iff.2 hstart, hadmits.2⟩
    · have hpath := path_of_yields hg hy (t := []) (by simp) .nil (by simpa using hadmits) .refl
      rw [List.nil_append, List.append_nil] at hpath
      exact .inr ⟨hpath, List.all_eq_true.2 hy.isTerminal, hadmits.2⟩

/-- Within the capacity, the contracted bodies yield every word but the empty one. -/
theorem yields_start_iff (hcap : g.WithinCapacity) :
    ((w = [] ∧ g.start ∈ g.nullable) ∨ (ofGrammar g limit target).grammar.Yields [g.start] w) ↔
      g.Yields [g.start] w := by
  constructor
  · rintro (⟨rfl, hstart⟩ | hy)
    · exact Grammar.mem_nullable_iff.1 hstart
    · exact yields_of_grammar hy
  · intro hy
    by_cases hw : w = []
    · subst hw
      exact .inl ⟨rfl, Grammar.mem_nullable_iff.2 hy⟩
    · exact .inr (hy.of_contracts (contracts_grammar hcap) hw)

end Space

/-! ## The enumeration -/

namespace Grammar

variable {g : Grammar} {w : Form}

/-- With a bound on the length, the enumeration comes to its end. -/
lemma exists_ended_words (g : Grammar) (limit : Nat) :
    ∃ n, ∀ rounds ≥ n, (g.words (some limit) .never rounds).ended = true :=
  Space.exists_ended_explore Space.lengthens_ofGrammar <|
    Space.finite_forms (finite_length_le limit) fun _ hf => Space.length_le_of_viable hf rfl

/-- However the enumeration is cut off, no word is listed twice. -/
lemma nodup_found (g : Grammar) (limit : Option Nat) (track : Bool) (cutoff : Cutoff)
    (rounds : Nat) :
    (((Space.ofGrammar g limit none).explore track cutoff rounds).found.map Node.form).Nodup :=
  (Space.explore_sound Space.lengthens_ofGrammar track cutoff rounds).2

/-- When the enumeration comes to its end, it lists the words that the search can come upon. -/
lemma mem_words_iff_attains (hg : g.Admissible) {limit rounds : Nat}
    (hended : (g.words (some limit) .never rounds).ended = true) :
    w ∈ (g.words (some limit) .never rounds).value ↔
      (Space.ofGrammar g (some limit) none).Attains w := by
  rw [words, Form.mem_sortShortlex]
  exact Space.mem_explore_iff Space.lengthens_ofGrammar (Space.expandsNonwords_ofGrammar hg) hended

/-- Within the capacity, these are the words of the language. -/
lemma mem_words_iff (hg : g.Admissible) (hcap : g.WithinCapacity) {limit rounds : Nat}
    (hended : (g.words (some limit) .never rounds).ended = true) :
    w ∈ (g.words (some limit) .never rounds).value ↔ g.InLanguage w ∧ w.length ≤ limit := by
  have hadmits : (Space.ofGrammar g (some limit) none).Admits w ↔ w.length ≤ limit := by
    simp [Space.Admits, Space.ofGrammar, Space.wants]
  rw [mem_words_iff_attains hg hended, Space.attains_iff hg, Space.yields_start_iff hcap, hadmits,
    inLanguage_iff_yields, and_comm]

/-- The enumeration of the words up to a length comes to its end and lists exactly the words of the
language up to that length, each once, by their number of symbols and then lexicographically. -/
theorem words_exact (hg : g.Built) (hcap : g.WithinCapacity) (limit : Nat) :
    ∃ n, ∀ rounds ≥ n,
      (g.words (some limit) .never rounds).ended = true ∧
      (g.words (some limit) .never rounds).value.Nodup ∧
      (g.words (some limit) .never rounds).value.Pairwise (fun u v =>
        u.length < v.length ∨ (u.length = v.length ∧ Form.before u v = true)) ∧
      ∀ w, w ∈ (g.words (some limit) .never rounds).value ↔
        g.InLanguage w ∧ w.length ≤ limit := by
  obtain ⟨n, hn⟩ := g.exists_ended_words limit
  refine ⟨n, fun rounds hrounds => ?_⟩
  have hended := hn rounds hrounds
  have hnodup := g.nodup_found (some limit) false .never rounds
  refine ⟨hended, ?_, Form.pairwise_sortShortlex hnodup, fun w => ?_⟩
  · exact (List.mergeSort_perm _ _).nodup_iff.2 hnodup
  · exact mem_words_iff hg.admissible hcap hended

/-- A grammar whose forms can grow without yielding longer words: every symbol of the body of three
is nullable, and there is a nonterminal that yields nothing. -/
def swelling : Grammar :=
  ⟨'S', .ofList [⟨'S', ['S', 'A', 'S']⟩, ⟨'S', []⟩, ⟨'A', ['a', 'S', 'b']⟩, ⟨'A', ['S']⟩,
    ⟨'A', ['C']⟩, ⟨'C', ['c', 'C']⟩]⟩

lemma built_swelling : swelling.Built :=
  @Built.rules _ 'S' [('S', [['S', 'A', 'S'], []]), ('A', [['a', 'S', 'b'], ['S'], ['C']]),
    ('C', [['c', 'C']])] rfl

lemma withinCapacity_swelling : swelling.WithinCapacity := by decide +kernel

theorem words_swelling :
    swelling.Built ∧ swelling.WithinCapacity ∧ ∃ n, ∀ rounds ≥ n,
      (swelling.words (some 6) .never rounds).ended = true ∧
      (swelling.words (some 6) .never rounds).value.Nodup ∧
      (swelling.words (some 6) .never rounds).value.Pairwise (fun u v =>
        u.length < v.length ∨ (u.length = v.length ∧ Form.before u v = true)) ∧
      ∀ w, w ∈ (swelling.words (some 6) .never rounds).value ↔
        swelling.InLanguage w ∧ w.length ≤ 6 :=
  ⟨built_swelling, withinCapacity_swelling, words_exact built_swelling withinCapacity_swelling 6⟩

end Grammar

end ContextFree
