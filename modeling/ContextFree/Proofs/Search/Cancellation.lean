import ContextFree.Proofs.Search.Exhaustion
import ContextFree.Proofs.Search.Replay
import ContextFree.Proofs.Search.Tracking

/-!
# Cutting a search off after a number of questions

A search that is told to stop leaves only the generation it is in, and the next one is told to stop
at its first form. What one node does to the progress does not depend on the cutoff
(`Space.visit`), so two searches with different budgets run side by side until the smaller budget
is used up. From then on one of them finds nothing more, while what the other has found stays found.

The statements are shown for a generation (`sweep`), for all of them (`generations`) and for the
exploration. The main result is `Grammar.cancellable_search`.
-/

namespace ContextFree

/-- The cutoff after `n` questions that are answered with yes. -/
def Cutoff.after (n : Nat) : Cutoff := ⟨some n, none⟩

@[simp] lemma Cutoff.reached_after {α : Type} (n checks : Nat) (found : List α) :
    (after n).reached checks found = decide (n ≤ checks) := by
  simp [after, reached]

namespace Progress

variable {p : Progress}

/-- Pushing nodes asks no question and finds no word. -/
lemma foldl_push_eq (ts : List Node) :
    (ts.foldl push p).checks = p.checks ∧ (ts.foldl push p).found = p.found := by
  induction ts generalizing p with
  | nil => exact ⟨rfl, rfl⟩
  | cons t ts ih =>
    rw [List.foldl_cons, ih.1, ih.2]
    rcases push_cases (p := p) (t := t) with ⟨-, heq⟩ | ⟨-, heq⟩ <;> rw [heq] <;> exact ⟨rfl, rfl⟩

end Progress

namespace Space

variable {space : Space} {track : Bool} {cutoff : Cutoff} {t : Node} {ts : List Node} {p : Progress}
  {m n rounds : Nat}

/-! ## One node -/

/-- What dealing with a node makes of the progress. -/
def visit (space : Space) (track : Bool) (t : Node) (p : Progress) : Progress :=
  if t.form.all Symbol.isTerminal then
    if space.wants t.form then { p with checks := p.checks + 1, found := t :: p.found }
    else { p with checks := p.checks + 1 }
  else (space.successors track t).foldl Progress.push { p with checks := p.checks + 1 }

/-- Whether the search ends with a node because its form is the target. -/
def hits (space : Space) (t : Node) : Bool :=
  t.form.all Symbol.isTerminal && space.wants t.form && space.target.isSome

/-- A generation deals with its first node and goes on, unless it is told to stop or has found the
target. -/
lemma sweep_cons :
    space.sweep track cutoff (t :: ts) p =
      if cutoff.reached p.checks p.found then ({ p with checks := p.checks + 1 }, false)
      else if space.hits t then (space.visit track t p, true)
      else space.sweep track cutoff ts (space.visit track t p) := by
  obtain ⟨checks, found, seen, next⟩ := p
  rw [sweep, hits, visit]
  cases t.form.all Symbol.isTerminal with
  | false => simp
  | true =>
    cases space.wants t.form with
    | false => simp
    | true => simp

/-- A generation that begins with the budget used up is left at once. -/
lemma sweep_after_of_le (hcut : n ≤ p.checks) :
    space.sweep track (.after n) (t :: ts) p = ({ p with checks := p.checks + 1 }, false) := by
  rw [sweep_cons, Cutoff.reached_after, if_pos (decide_eq_true hcut)]

/-- Otherwise the first node is dealt with, whatever is left of the budget. -/
lemma sweep_after_of_lt (hgo : p.checks < n) :
    space.sweep track (.after n) (t :: ts) p =
      if space.hits t then (space.visit track t p, true)
      else space.sweep track (.after n) ts (space.visit track t p) := by
  have hnot : ¬n ≤ p.checks := by omega
  rw [sweep_cons, Cutoff.reached_after, if_neg (by simpa using hnot)]

lemma checks_visit : (space.visit track t p).checks = p.checks + 1 := by
  unfold visit
  split
  · split <;> rfl
  · rw [(Progress.foldl_push_eq _).1]

/-- What has been found stays found. -/
lemma found_suffix_visit : p.found <:+ (space.visit track t p).found := by
  unfold visit
  split
  · split
    · exact List.suffix_cons t p.found
    · exact List.suffix_rfl
  · rw [(Progress.foldl_push_eq _).2]

/-! ## One generation -/

lemma found_suffix_sweep : p.found <:+ (space.sweep track cutoff ts p).1.found := by
  induction ts generalizing p with
  | nil => exact List.suffix_rfl
  | cons t ts ih =>
    rw [sweep_cons]
    split
    · exact List.suffix_rfl
    · split
      · exact found_suffix_visit
      · exact found_suffix_visit.trans ih

lemma le_checks_sweep : p.checks ≤ (space.sweep track cutoff ts p).1.checks := by
  induction ts generalizing p with
  | nil => exact Nat.le_refl _
  | cons t ts ih =>
    have hvisit : (space.visit track t p).checks = p.checks + 1 := checks_visit
    rw [sweep_cons]
    split
    · show p.checks ≤ p.checks + 1
      omega
    · split
      · show p.checks ≤ (space.visit track t p).checks
        omega
      · have hrest := ih (p := space.visit track t p)
        omega

/-- A generation that is not empty asks at least once. -/
lemma lt_checks_sweep : p.checks < (space.sweep track cutoff (t :: ts) p).1.checks := by
  have hvisit : (space.visit track t p).checks = p.checks + 1 := checks_visit
  rw [sweep_cons]
  split
  · show p.checks < p.checks + 1
    omega
  · split
    · show p.checks < (space.visit track t p).checks
      omega
    · have hrest : (space.visit track t p).checks ≤
          (space.sweep track cutoff ts (space.visit track t p)).1.checks :=
        le_checks_sweep
      omega

/-- A generation asks no further question once one has been answered with no. -/
lemma checks_sweep_after_le (hchecks : p.checks ≤ n) :
    (space.sweep track (.after n) ts p).1.checks ≤ n + 1 := by
  induction ts generalizing p with
  | nil =>
    show p.checks ≤ n + 1
    omega
  | cons t ts ih =>
    by_cases hcut : n ≤ p.checks
    · rw [sweep_after_of_le hcut]
      show p.checks + 1 ≤ n + 1
      omega
    · have hvisit : (space.visit track t p).checks = p.checks + 1 := checks_visit
      rw [sweep_after_of_lt (by omega)]
      split
      · show (space.visit track t p).checks ≤ n + 1
        omega
      · exact ih (by omega)

/-- With a smaller budget a generation is the same, or it was left with fewer words found. -/
lemma sweep_after_cases (space : Space) (track : Bool) (hmn : m ≤ n) (ts : List Node)
    (p : Progress) :
    space.sweep track (.after m) ts p = space.sweep track (.after n) ts p ∨
    (m < (space.sweep track (.after m) ts p).1.checks ∧
      (space.sweep track (.after m) ts p).2 = false ∧
      (space.sweep track (.after m) ts p).1.found <:+
        (space.sweep track (.after n) ts p).1.found) := by
  induction ts generalizing p with
  | nil => exact .inl rfl
  | cons t ts ih =>
    by_cases hcut : m ≤ p.checks
    · right
      have hfound : p.found <:+ (space.sweep track (.after n) (t :: ts) p).1.found :=
        found_suffix_sweep
      rw [sweep_after_of_le hcut]
      refine ⟨?_, rfl, hfound⟩
      show m < p.checks + 1
      omega
    · -- neither budget is used up, so both generations deal with the node
      rw [sweep_after_of_lt (by omega), sweep_after_of_lt (by omega)]
      split
      · exact .inl rfl
      · exact ih (space.visit track t p)

/-! ## All generations -/

lemma found_prefix_generations :
    p.found.reverse <+: (space.generations track cutoff rounds ts p).found := by
  fun_induction Space.generations space track cutoff rounds ts p with
  | case1 => exact List.prefix_rfl
  | case2 => exact List.prefix_rfl
  | case3 rounds ts p _ checks found seen next hsweep =>
    have hsuffix : p.found <:+ (space.sweep track cutoff ts p).1.found := found_suffix_sweep
    rw [hsweep] at hsuffix
    exact List.reverse_prefix.2 hsuffix
  | case4 rounds ts p _ checks found seen next hsweep ih =>
    have hsuffix : p.found <:+ (space.sweep track cutoff ts p).1.found := found_suffix_sweep
    rw [hsweep] at hsuffix
    exact (List.reverse_prefix.2 hsuffix).trans ih

/-- The words of the first generation are among all words. -/
lemma found_sweep_prefix_generations :
    (space.sweep track cutoff (t :: ts) p).1.found.reverse <+:
      (space.generations track cutoff (rounds + 1) (t :: ts) p).found := by
  rw [generations_cons]
  split
  · exact List.prefix_rfl
  · exact found_prefix_generations (p := (space.sweep track cutoff (t :: ts) p).1.cleared)

/-- Once the budget is used up, one more question is asked. -/
lemma generations_of_le_checks (hcut : n ≤ p.checks) (hnext : p.next = []) :
    space.generations track (.after n) (rounds + 1) (t :: ts) p =
      ⟨p.found.reverse, p.checks + 1, true⟩ := by
  rw [generations_cons, sweep_after_of_le hcut, if_neg Bool.false_ne_true, hnext, List.reverse_nil,
    generations_nil]
  rfl

lemma found_generations_of_le_checks (hcut : n ≤ p.checks) (hnext : p.next = []) :
    (space.generations track (.after n) rounds ts p).found = p.found.reverse := by
  cases ts with
  | nil => rw [generations_nil]
  | cons t ts =>
    cases rounds with
    | zero => rfl
    | succ rounds => rw [generations_of_le_checks hcut hnext]

/-- A budget of `n` stops the generations: each of them asks, and of those that are told to stop
only the first can leave something for a next one. -/
lemma generations_stop (hchecks : p.checks ≤ n + 1) (hnext : p.next = [])
    (hrounds : n + 2 ≤ rounds + p.checks) :
    (space.generations track (.after n) rounds ts p).ended = true ∧
      (space.generations track (.after n) rounds ts p).checks ≤ n + 2 := by
  induction rounds generalizing ts p with
  | zero => omega
  | succ rounds ih =>
    cases ts with
    | nil =>
      rw [generations_nil]
      refine ⟨rfl, ?_⟩
      show p.checks ≤ n + 2
      omega
    | cons t ts =>
      by_cases hcut : n < p.checks
      · rw [generations_of_le_checks (by omega) hnext]
        refine ⟨rfl, ?_⟩
        show p.checks + 1 ≤ n + 2
        omega
      · have hupper : (space.sweep track (.after n) (t :: ts) p).1.checks ≤ n + 1 :=
          checks_sweep_after_le (by omega)
        have hlower : p.checks < (space.sweep track (.after n) (t :: ts) p).1.checks :=
          lt_checks_sweep
        rw [generations_cons]
        split
        · refine ⟨rfl, ?_⟩
          show (space.sweep track (.after n) (t :: ts) p).1.checks ≤ n + 2
          omega
        · refine ih hupper rfl ?_
          show n + 2 ≤ rounds + (space.sweep track (.after n) (t :: ts) p).1.checks
          omega

/-- A larger budget only adds words at the end. -/
lemma found_generations_prefix_of_le (hmn : m ≤ n) (rounds : Nat) :
    (space.generations track (.after m) rounds ts p).found <+:
      (space.generations track (.after n) rounds ts p).found := by
  induction rounds generalizing ts p with
  | zero =>
    cases ts with
    | nil => exact List.prefix_rfl
    | cons t ts => exact List.prefix_rfl
  | succ rounds ih =>
    cases ts with
    | nil => rw [generations_nil, generations_nil]
    | cons t ts =>
      rcases space.sweep_after_cases track hmn (t :: ts) p with heq | ⟨hcut, hflag, hfound⟩
      · rw [generations_cons, generations_cons, heq]
        split
        · exact List.prefix_rfl
        · exact ih
      · -- with the smaller budget nothing more is found after this generation
        have hstopped : (space.generations track (.after m) (rounds + 1) (t :: ts) p).found =
            (space.sweep track (.after m) (t :: ts) p).1.found.reverse := by
          rw [generations_cons, hflag, if_neg Bool.false_ne_true]
          exact found_generations_of_le_checks (Nat.le_of_lt hcut) rfl
        rw [hstopped]
        exact (List.reverse_prefix.2 hfound).trans found_sweep_prefix_generations

/-- More generations than it takes to come to the end make no difference. -/
lemma generations_eq_of_ended {rounds' : Nat} (hle : rounds ≤ rounds')
    (hended : (space.generations track cutoff rounds ts p).ended = true) :
    space.generations track cutoff rounds' ts p = space.generations track cutoff rounds ts p := by
  induction rounds generalizing rounds' ts p with
  | zero =>
    cases ts with
    | nil => rw [generations_nil, generations_nil]
    | cons t ts => exact absurd hended Bool.false_ne_true
  | succ rounds ih =>
    obtain ⟨more, rfl⟩ : ∃ more, rounds' = more + 1 := ⟨rounds' - 1, by omega⟩
    cases ts with
    | nil => rw [generations_nil, generations_nil]
    | cons t ts =>
      rw [generations_cons] at hended ⊢
      rw [generations_cons]
      split
      · rfl
      · rename_i hflag
        rw [if_neg hflag] at hended
        exact ih (by omega) hended

/-! ## The exploration -/

theorem explore_stop (hrounds : n < rounds) :
    (space.explore track (.after n) rounds).ended = true ∧
      (space.explore track (.after n) rounds).checks ≤ n + 2 := by
  rw [explore_eq]
  split
  · refine ⟨rfl, ?_⟩
    show 1 ≤ n + 2
    omega
  · split
    · refine ⟨rfl, ?_⟩
      show 1 ≤ n + 2
      omega
    · apply generations_stop _ rfl
      · show n + 2 ≤ rounds + 1
        omega
      · show 1 ≤ n + 1
        omega

theorem explore_eq_of_ended {rounds' : Nat} (hle : rounds ≤ rounds')
    (hended : (space.explore track cutoff rounds).ended = true) :
    space.explore track cutoff rounds' = space.explore track cutoff rounds := by
  rw [explore_eq] at hended ⊢
  rw [explore_eq]
  split
  · rfl
  · rename_i hgo
    rw [if_neg hgo] at hended
    split
    · rfl
    · rename_i hgo'
      rw [if_neg hgo'] at hended
      exact generations_eq_of_ended hle hended

lemma found_explore_prefix_of_le (hmn : m ≤ n) (rounds : Nat) :
    (space.explore track (.after m) rounds).found <+:
      (space.explore track (.after n) rounds).found := by
  by_cases hm : m = 0
  · rw [hm]
    exact List.nil_prefix
  · -- the first question is answered with yes under both budgets
    have hgo : ∀ k, m ≤ k → space.explore track (.after k) rounds =
        if space.target.isSome && !(space.foundAtOnce track).isEmpty then
          ⟨space.foundAtOnce track, 1, true⟩
        else
          space.generations track (.after k) rounds [Node.root track space.start]
            (space.initial track) := by
      intro k hk
      have hnot : ¬k ≤ 0 := by omega
      rw [explore_eq, Cutoff.reached_after, if_neg (by simpa using hnot)]
    rw [hgo m (Nat.le_refl m), hgo n hmn]
    split
    · exact List.prefix_rfl
    · exact found_generations_prefix_of_le hmn rounds

/-- With a larger budget an exploration that comes to its end finds the same words first. -/
theorem found_explore_prefix {rounds' : Nat} (hmn : m ≤ n) (hrounds : m < rounds)
    (hrounds' : n < rounds') :
    (space.explore track (.after m) rounds).found <+:
      (space.explore track (.after n) rounds').found := by
  have hm : space.explore track (.after m) (max rounds rounds') =
      space.explore track (.after m) rounds :=
    explore_eq_of_ended (Nat.le_max_left _ _) (explore_stop hrounds).1
  have hn : space.explore track (.after n) (max rounds rounds') =
      space.explore track (.after n) rounds' :=
    explore_eq_of_ended (Nat.le_max_right _ _) (explore_stop hrounds').1
  rw [← hm, ← hn]
  exact found_explore_prefix_of_le hmn _

end Space

/-! ## What a log reports -/

/-- The word that an event reports, if it reports one. -/
def Event.word? (event : Event) : Option Form :=
  match event.action with
  | .found word _ => some word
  | _ => none

/-- The words that a log reports, in order. -/
def reportedWords (events : List Event) : List Form := events.filterMap Event.word?

namespace Grammar

variable {g : Grammar} {limit : Option Nat} {α : Type} {search : Cutoff → Nat → Searched α}
  {tell : Node → Event} {track : Bool} {cutoff : Cutoff} {rounds : Nat}

/-- The search explores the space of the grammar and tells of every node that it finds. -/
structure Tells (g : Grammar) (limit : Option Nat) (track : Bool)
    (search : Cutoff → Nat → Searched α) (tell : Node → Event) : Prop where
  events : ∀ cutoff rounds, (search cutoff rounds).events =
    ⟨.enumerate, .started⟩ ::
      ((Space.ofGrammar g limit none).explore track cutoff rounds).found.map tell
  checks : ∀ cutoff rounds, (search cutoff rounds).checks =
    ((Space.ofGrammar g limit none).explore track cutoff rounds).checks
  ended : ∀ cutoff rounds, (search cutoff rounds).ended =
    ((Space.ofGrammar g limit none).explore track cutoff rounds).ended
  word : ∀ t, (tell t).word? = some t.form

lemma tells_words :
    g.Tells limit false (g.words limit) fun t => ⟨.enumerate, .found t.form none⟩ where
  events _ _ := by simp [words, Function.comp_def]
  checks _ _ := rfl
  ended _ _ := rfl
  word _ := rfl

lemma tells_derivations :
    g.Tells limit true (g.derivations limit) fun t =>
      ⟨.enumerate, .found t.form (some (t.chain.getD []))⟩ where
  events _ _ := by simp [derivations, Function.comp_def]
  checks _ _ := rfl
  ended _ _ := rfl
  word _ := rfl

/-- The reported words are those of the nodes that are found. -/
lemma Tells.reportedWords (h : g.Tells limit track search tell) (cutoff : Cutoff) (rounds : Nat) :
    reportedWords (search cutoff rounds).events =
      ((Space.ofGrammar g limit none).explore track cutoff rounds).found.map Node.form := by
  have htell : Event.word? ∘ tell = some ∘ Node.form := funext h.word
  rw [ContextFree.reportedWords, h.events, List.filterMap_cons_none rfl, List.filterMap_map, htell,
    List.filterMap_eq_map]

lemma inLanguage_of_mem_found {t : Node}
    (ht : t ∈ ((Space.ofGrammar g limit none).explore track cutoff rounds).found) :
    g.InLanguage t.form := by
  -- the search that tracks chains finds the same word, with a derivation of it
  have hform : t.form ∈
      ((Space.ofGrammar g limit none).explore true cutoff rounds).found.map Node.form := by
    rw [Space.map_form_found, ← Space.map_form_found _ track]
    exact List.mem_map_of_mem ht
  obtain ⟨u, hu, heq⟩ := List.mem_map.1 hform
  have hfinds := (Space.explore_sound Space.lengthens_ofGrammar true cutoff rounds).1 u hu
  obtain ⟨l, -, hpasses⟩ := hfinds.replays
  rw [← heq]
  exact ⟨hpasses.derives, hfinds.isTerminal⟩

/-- How a search obeys a budget of questions: it ends after at most two questions more than the
budget allows, a larger budget only lets it tell more, and it reports words of the language, each
once. -/
structure Cancellable (g : Grammar) (search : Cutoff → Nat → Searched α) : Prop where
  stops : ∀ n rounds, n < rounds →
    (search (.after n) rounds).ended = true ∧ (search (.after n) rounds).checks ≤ n + 2
  grows : ∀ m n rounds rounds', m ≤ n → m < rounds → n < rounds' →
    (search (.after m) rounds).events <+: (search (.after n) rounds').events
  sound : ∀ n rounds, ∀ w ∈ reportedWords (search (.after n) rounds).events, g.InLanguage w
  once : ∀ n rounds, (reportedWords (search (.after n) rounds).events).Nodup

lemma Tells.cancellable (h : g.Tells limit track search tell) : g.Cancellable search where
  stops n rounds hrounds := by
    rw [h.ended, h.checks]
    exact Space.explore_stop hrounds
  grows m n rounds rounds' hmn hrounds hrounds' := by
    rw [h.events, h.events, List.prefix_cons_inj]
    exact (Space.found_explore_prefix hmn hrounds hrounds').map tell
  sound n rounds w hw := by
    rw [h.reportedWords] at hw
    obtain ⟨t, ht, rfl⟩ := List.mem_map.1 hw
    exact inLanguage_of_mem_found ht
  once n rounds := by
    rw [h.reportedWords]
    exact (Space.explore_sound Space.lengthens_ofGrammar track (.after n) rounds).2

/-- Both enumerations obey a budget of questions, with or without a bound on the length of words. -/
theorem cancellable_search (g : Grammar) (limit : Option Nat) :
    g.Cancellable (g.words limit) ∧ g.Cancellable (g.derivations limit) :=
  ⟨tells_words.cancellable, tells_derivations.cancellable⟩

end Grammar

end ContextFree
