import ContextFree.Proofs.Search.Cancellation
import ContextFree.Proofs.Search.Settling

/-!
# Cutting the search for shortest words off

The search for the shortest words asks once per round whether to continue, and the candidates of
round `k` are forms of `k` symbols. So words of least length `l` are settled in round `l`, after `l`
questions. A budget that allows for these does not show in the result. With a smaller one the search
is told to stop in a round that has candidates but no words, and lists nothing
(`Tracks.settleRounds_after`).

The main result is `shortestWords_after`.
-/

namespace ContextFree.Grammar

variable {g : Grammar} {w : Form} {k l n rounds checks : Nat} {candidates : List Candidate}
  {seen : Std.HashSet Candidate}

/-! ## Rounds -/

/-- A round in which words are settled is that of their length. -/
lemma Tracks.eq_length_of_settled (hb : g.Branching) (ht : g.Tracks k candidates seen)
    (hshortest : ∀ v, g.Shortest [g.start] v → v.length = l)
    (hk : ∀ v, g.Yields [g.start] v → k ≤ v.length)
    (hw : w ∈ settledWords (g.settlementsOf candidates)) : k = l := by
  obtain ⟨hw, hlength⟩ := (ht.mem_settledWords_iff hb hk).1 hw
  rw [← hlength, hshortest w hw]

/-- If the budget is used up before the round of the least length, the search is told to stop when
it asks the next time, and has nothing to show. -/
theorem Tracks.settleRounds_after (hb : g.Branching) (hl : ∃ w, g.Shortest [g.start] w)
    (hshortest : ∀ w, g.Shortest [g.start] w → w.length = l)
    (ht : g.Tracks k candidates seen) (hrounds : l < rounds + k) (hgo : checks ≤ n)
    (hstop : n + k ≤ checks + l) :
    g.settleRounds (.after n) rounds candidates seen checks = ⟨⟨[], []⟩, n + 1, true⟩ := by
  have hleast : ∀ v, g.Yields [g.start] v → l ≤ v.length := by
    intro v hv
    obtain ⟨w, hw⟩ := hl
    rw [← hshortest w hw]
    exact hw.least v hv
  fun_induction Grammar.settleRounds g (.after n) rounds candidates seen checks
    generalizing k with
  | case1 rounds seen checks =>
    obtain ⟨w, hw⟩ := hl
    obtain ⟨c, hc, -⟩ := ht.covers w hw
    exact absurd hc List.not_mem_nil
  | case2 seen checks c candidates => omega
  | case3 rounds candidates seen checks _ hreached =>
    rw [Cutoff.reached_after, decide_eq_true_eq] at hreached
    obtain rfl : checks = n := by omega
    rfl
  | case4 rounds candidates seen checks _ hreached table settlements hnone seen' next hpush =>
    rename_i ih
    rw [Cutoff.reached_after, decide_eq_true_eq] at hreached
    -- a question was answered with yes, so the round of the least length is still to come
    have hlt : k < l := by omega
    have hnext : g.Tracks (k + 1) next seen' :=
      ht.expand hb (fun w hw => by rw [hshortest w hw]; exact hlt) hpush
    exact ih hnext (by omega) (by omega) (by omega)
  | case5 rounds candidates seen checks _ hreached table settlements =>
    rename_i hwords
    rw [Cutoff.reached_after, decide_eq_true_eq] at hreached
    obtain ⟨w, hw⟩ := List.exists_mem_of_ne_nil _ hwords
    rw [mem_dropRepeats, Form.mem_sortShortlex] at hw
    have hlt : k < l := by omega
    have hk : k = l :=
      ht.eq_length_of_settled hb hshortest (fun v hv => hlt.le.trans (hleast v hv)) hw
    omega

/-! ## The search -/

/-- Where all words have symbols, the search is nothing but its rounds. -/
lemma shortestWords_eq_settleRounds (hg : g.Admissible) (hl : 1 ≤ l)
    (hword : ∃ w, g.Yields [g.start] w) (hleast : ∀ w, g.Yields [g.start] w → l ≤ w.length)
    (cutoff : Cutoff) (rounds : Nat) :
    ¬g.has g.start [] = true ∧
    g.shortestWords cutoff rounds =
      let result :=
        g.settleRounds cutoff rounds [⟨[], [g.start]⟩] Std.HashSet.emptyWithCapacity 0
      { result with events := ⟨.shortest, .started⟩ :: result.events } := by
  have hempty : ¬g.has g.start [] = true := by
    intro hempty
    have hle : l ≤ 0 := hleast [] (.of_body (has_iff.1 hempty) .nil)
    omega
  refine ⟨hempty, ?_⟩
  have hbodies : ¬(g.bodies g.start).isEmpty = true := by
    obtain ⟨w, hw⟩ := hword
    rcases yields_singleton_iff.1 hw with ⟨ht, -⟩ | ⟨⟨a, body⟩, hp, rfl, -⟩
    · rw [Symbol.isTerminal_eq_false hg.start] at ht
      contradiction
    · rw [List.isEmpty_iff]
      exact List.ne_nil_of_mem (mem_bodies.2 hp)
  rw [shortestWords, if_neg hbodies, if_neg hempty]

/-- Let `l` be the least length of the words of a grammar in normal form, the empty word not being
among them. However many questions are answered with yes, the search for the shortest words comes
to its end. If there are `l` of them, it lists all words of length `l`; otherwise it lists none. It
asks `l` times, but never again after it was told to stop. -/
theorem shortestWords_after (hg : g.Built) (hnormal : g.isNormal = true) (hl : 1 ≤ l)
    (hword : ∃ w, g.InLanguage w ∧ w.length = l) (hleast : ∀ w, g.InLanguage w → l ≤ w.length)
    (n rounds : Nat) (hrounds : l ≤ rounds) :
    (g.shortestWords (.after n) rounds).ended = true ∧
    (g.shortestWords (.after n) rounds).checks = min (n + 1) l ∧
    (l ≤ n →
      (g.shortestWords (.after n) rounds).value.Pairwise (fun u v => Form.before u v = true) ∧
      ∀ w, w ∈ (g.shortestWords (.after n) rounds).value ↔ g.InLanguage w ∧ w.length = l) ∧
    (n < l → (g.shortestWords (.after n) rounds).value = []) := by
  simp only [inLanguage_iff_yields] at hword hleast ⊢
  obtain ⟨w₀, hw₀, hlength₀⟩ := hword
  obtain ⟨hempty, heq⟩ := shortestWords_eq_settleRounds hg.admissible hl ⟨w₀, hw₀⟩ hleast
    (.after n) rounds
  have hb := branching_of_isNormal hg.admissible hnormal hempty
  -- the words of length `l` are the shortest ones
  have hiff : ∀ w, g.Shortest [g.start] w ↔ g.Yields [g.start] w ∧ w.length = l := by
    intro w
    constructor
    · intro hw
      have hle := hw.least w₀ hw₀
      have hge := hleast w hw.yields
      exact ⟨hw.yields, by omega⟩
    · rintro ⟨hw, rfl⟩
      exact ⟨hw, hleast⟩
  have hshortest : ∀ w, g.Shortest [g.start] w → w.length = l := fun w hw => ((hiff w).1 hw).2
  have hsome : ∃ w, g.Shortest [g.start] w := ⟨w₀, (hiff w₀).2 ⟨hw₀, hlength₀⟩⟩
  rw [heq]
  by_cases hn : l ≤ n
  · have hgo : ∀ i, 0 ≤ i → i ≤ 0 + (l - 1) →
        (Cutoff.after n).reached i ([] : List Form) = false := by
      intro i _ hi
      rw [Cutoff.reached_after, decide_eq_false_iff_not]
      omega
    obtain ⟨hended, hchecks, hsorted, hmem⟩ := g.tracks_initial.settleRounds hb hsome hshortest hl
      (Nat.lt_succ_of_le hrounds) hgo
    refine ⟨hended, ?_, fun _ => ⟨hsorted, fun w => (hmem w).trans (hiff w)⟩, fun hlt => ?_⟩
    · show Searched.checks _ = _
      rw [hchecks]
      omega
    · omega
  · have hstopped := g.tracks_initial.settleRounds_after hb hsome hshortest
      (Nat.lt_succ_of_le hrounds) (Nat.zero_le n) (by omega)
    rw [hstopped]
    refine ⟨rfl, ?_, fun hle => absurd hle hn, fun _ => rfl⟩
    show n + 1 = min (n + 1) l
    omega

/-- How many symbols a word of each nonterminal of the grammar has at least. -/
def lopsidedLength (s : Symbol) : Nat :=
  if s = 'S' then 3 else if s = 'B' ∨ s = 'D' then 2 else 1

lemma closed_lopsidedLength : lopsided.Closed fun s w => lopsidedLength s ≤ w.length := by
  refine ⟨fun s hs => ?_, fun p hp w hw => ?_⟩
  · -- a terminal is none of the nonterminals that count more
    have hone : lopsidedLength s = 1 := by
      unfold lopsidedLength
      rw [if_neg, if_neg]
      · rintro (rfl | rfl)
        · exact absurd hs (by decide)
        · exact absurd hs (by decide)
      · rintro rfl
        exact absurd hs (by decide)
    rw [hone]
    exact Nat.le_refl 1
  · simp only [lopsided, SortedSet.mem_ofList, List.mem_cons, List.not_mem_nil, or_false] at hp
    rcases hp with rfl | rfl | rfl | rfl | rfl | rfl | rfl | rfl
    all_goals
      simp only [Reads, lopsidedLength] at hw ⊢
      grind

theorem shortestWords_after_lopsided :
    lopsided.Built ∧ lopsided.isNormal = true ∧
      (∃ w, lopsided.InLanguage w ∧ w.length = 3) ∧
      (∀ w, lopsided.InLanguage w → 3 ≤ w.length) ∧
      ((lopsided.shortestWords (.after 2) 3).value = [] ∧
        (lopsided.shortestWords (.after 2) 3).checks = 3) ∧
      (lopsided.shortestWords (.after 3) 3).checks = 3 ∧
      ∀ w, w ∈ (lopsided.shortestWords (.after 3) 3).value ↔
        lopsided.InLanguage w ∧ w.length = 3 := by
  have hnormal : lopsided.isNormal = true := by decide +kernel
  have hword : ∃ w, lopsided.InLanguage w ∧ w.length = 3 := by
    have ha : ∀ {s}, (⟨s, ['a']⟩ : Production) ∈ lopsided.productions → lopsided.Yields [s] ['a'] :=
      fun hp => .of_body hp (.terminal (by decide) .nil)
    have hC : lopsided.Yields ['C'] ['a'] := ha (by simp [lopsided])
    have hB : lopsided.Yields ['B'] ['a', 'a'] :=
      @Yields.of_body _ _ _ ['C', 'C'] (by simp [lopsided]) (hC.append hC)
    have hA : lopsided.Yields ['A'] ['a'] := ha (by simp [lopsided])
    have hS : lopsided.Yields ['S'] ['a', 'a', 'a'] :=
      @Yields.of_body _ _ _ ['A', 'B'] (by simp [lopsided]) (hA.append hB)
    exact ⟨_, inLanguage_iff_yields.2 hS, rfl⟩
  have hleast : ∀ w, lopsided.InLanguage w → 3 ≤ w.length := fun w hw =>
    reads_singleton_iff.1 ((inLanguage_iff_yields.1 hw).reads closed_lopsidedLength)
  have hafter := shortestWords_after built_lopsided hnormal (by decide) hword hleast
  obtain ⟨-, hchecks, -, hnone⟩ := hafter 2 3 (Nat.le_refl 3)
  obtain ⟨-, hchecks', hall, -⟩ := hafter 3 3 (Nat.le_refl 3)
  exact ⟨built_lopsided, hnormal, hword, hleast, ⟨hnone (by decide), hchecks⟩, hchecks',
    (hall (by decide)).2⟩

end ContextFree.Grammar
