import ContextFree.Proofs.Paths
import ContextFree.Proofs.Search.Settling
import Mathlib.Algebra.Order.BigOperators.Group.List

/-!
# Looking for shortest words where there are none

Where a grammar in normal form has no words, nothing is ever settled completely, and the search
goes on as long as forms can be expanded (`Lasts`). A form is expanded at the first symbol that is
not settled at once, so a nonterminal has its turn only after all symbols before it have been
settled, which they are if they derive words (`Yields.lasts`).

Hence the search comes to its end exactly if no nonterminal that can have its turn leads back to
itself (`shortestWords_of_empty_language`). If none does, the nonterminals that can have their turn
are gone through in the order of the number of symbols to which they lead (`exists_not_lasts`).
-/

namespace ContextFree.Grammar

open Relation

variable {g : Grammar} {a b s t : Symbol} {r u v w : Form} {n : Nat}

/-! ## Where a form is expanded -/

/-- Whether a symbol is settled without an expansion. -/
def settles (g : Grammar) (s : Symbol) : Bool :=
  s.isTerminal || g.replacements.any fun r => r.1 == s

lemma settles_iff : g.settles s = true ↔
    s.isTerminal = true ∨ ∃ t, t.isTerminal = true ∧ (⟨s, [t]⟩ : Production) ∈ g.productions := by
  simp only [settles, Bool.or_eq_true, List.any_eq_true, Prod.exists, mem_replacements,
    beq_iff_eq]
  refine or_congr_right ⟨?_, ?_⟩
  · rintro ⟨b, t, hreplace, rfl⟩
    exact ⟨t, hreplace⟩
  · rintro ⟨t, hreplace⟩
    exact ⟨s, t, hreplace, rfl⟩

lemma exists_yields_of_settles (hs : g.settles s = true) : ∃ w, g.Yields [s] w := by
  rcases settles_iff.1 hs with ht | ⟨t, ht, hp⟩
  · exact ⟨[s], .terminal ht .nil⟩
  · exact ⟨[t], .of_body hp (.terminal ht .nil)⟩

lemma filter_replacements_eq_nil_iff (hs : ¬s.isTerminal = true) :
    (g.replacements.filter fun r => r.1 == s) = [] ↔ ¬g.settles s = true := by
  rw [settles, Bool.or_eq_true, or_iff_right hs, List.any_eq_true, List.filter_eq_nil_iff]
  simp only [not_exists, not_and]

/-- A form gets stuck at its first symbol that is not settled at once. -/
lemma exists_stuck_iff {settled : Form} :
    (∃ x, .stuck x a v ∈ settle g.replacements settled u) ↔ u.dropWhile g.settles = a :: v := by
  induction u generalizing settled with
  | nil => simp [settle]
  | cons s u ih =>
    rw [settle]
    split
    · rename_i hs
      rw [List.dropWhile_cons_of_pos (settles_iff.2 (.inl hs)), ih]
    · rename_i hs
      split
      · rename_i hnone
        rw [List.dropWhile_cons_of_neg ((filter_replacements_eq_nil_iff hs).1 hnone)]
        simp [eq_comm]
      · rename_i hsome
        have hsettles : g.settles s = true :=
          Decidable.not_not.1 (mt (filter_replacements_eq_nil_iff hs).2 hsome)
        rw [List.dropWhile_cons_of_pos hsettles]
        -- what comes after the symbol does not depend on the terminal that is put for it
        constructor
        · rintro ⟨x, hx⟩
          obtain ⟨r, -, hx⟩ := List.mem_flatMap.1 hx
          exact ih.1 ⟨x, hx⟩
        · intro hu
          obtain ⟨r, hr⟩ := List.exists_mem_of_ne_nil _ hsome
          obtain ⟨x, hx⟩ := (@ih (r.2 :: settled)).2 hu
          exact ⟨x, List.mem_flatMap.2 ⟨r, hr, hx⟩⟩

/-- The first symbol of a form that is not settled at once is expanded, and the symbols before it
are done with. -/
def Continues (g : Grammar) (u v : Form) : Prop :=
  ∃ a rest body, u.dropWhile g.settles = a :: rest ∧
    (⟨a, body⟩ : Production) ∈ g.productions ∧ v = body ++ rest

lemma continues_cons_of_settles (hs : g.settles s = true) :
    g.Continues (s :: u) v ↔ g.Continues u v := by
  simp only [Continues, List.dropWhile_cons_of_pos hs]

lemma continues_cons_of_not_settles (hs : ¬g.settles s = true) :
    g.Continues (s :: u) v ↔ ∃ body, (⟨s, body⟩ : Production) ∈ g.productions ∧ v = body ++ u := by
  simp only [Continues, List.dropWhile_cons_of_neg hs, List.cons.injEq]
  constructor
  · rintro ⟨a, rest, body, ⟨rfl, rfl⟩, hbody⟩
    exact ⟨body, hbody⟩
  · rintro ⟨body, hbody⟩
    exact ⟨s, u, body, ⟨rfl, rfl⟩, hbody⟩

/-! ## How long a form lasts -/

/-- The form can be expanded in as many rounds. -/
def Lasts (g : Grammar) : Nat → Form → Prop
  | 0, _ => True
  | n + 1, u => ∃ v, g.Continues u v ∧ g.Lasts n v

lemma Lasts.of_succ (hu : g.Lasts (n + 1) u) : g.Lasts n u := by
  induction n generalizing u with
  | zero => exact trivial
  | succ n ih =>
    obtain ⟨v, huv, hv⟩ := hu
    exact ⟨v, huv, ih hv⟩

lemma Lasts.of_le {m : Nat} (hmn : m ≤ n) (hu : g.Lasts n u) : g.Lasts m u := by
  induction hmn with
  | refl => exact hu
  | step _ ih => exact ih hu.of_succ

lemma lasts_cons_of_settles (hs : g.settles s = true) : g.Lasts n (s :: u) ↔ g.Lasts n u := by
  cases n with
  | zero => exact Iff.rfl
  | succ n => simp only [Lasts, continues_cons_of_settles hs]

/-- What derives a word does not keep from its turn what comes after it. -/
lemma Yields.lasts (hy : g.Yields u w) (hr : g.Lasts n r) : g.Lasts n (u ++ r) := by
  induction hy generalizing r with
  | nil => exact hr
  | terminal hs _ ih => exact (lasts_cons_of_settles (settles_iff.2 (.inl hs))).2 (ih hr)
  | @production p u x y hp _ _ ihx ihy =>
    by_cases hs : g.settles p.head = true
    · exact (lasts_cons_of_settles hs).2 (ihy hr)
    · -- the head is expanded, and the body lasts as long as what comes after it
      have hnext : g.Lasts (n + 1) (p.head :: (u ++ r)) :=
        ⟨_, (continues_cons_of_not_settles hs).2 ⟨p.body, hp, rfl⟩, ihx (ihy hr)⟩
      exact hnext.of_succ

/-! ## Nonterminals that have their turn -/

/-- The nonterminal is expanded, and the other symbol is part of its body and can have its turn. -/
def Pursues (g : Grammar) (a b : Symbol) : Prop :=
  ¬g.settles a = true ∧ ∃ c, (⟨a, [b, c]⟩ : Production) ∈ g.productions ∨
    (⟨a, [c, b]⟩ : Production) ∈ g.productions ∧ ∃ w, g.Yields [c] w

/-- A nonterminal that can have its turn leads back to itself. -/
def Circles (g : Grammar) : Prop :=
  ∃ a, ReflTransGen g.Pursues g.start a ∧ TransGen g.Pursues a a

/-- No nonterminal leads back to itself if what is pursued comes later in some order. -/
lemma not_circles_of_descends (order : Symbol → Nat)
    (horder : ∀ a b, g.Pursues a b → order b < order a) : ¬g.Circles := by
  rintro ⟨a, -, hcycle⟩
  have hlt : ∀ b, TransGen g.Pursues a b → order b < order a := by
    intro b hab
    induction hab with
    | single hab => exact horder _ _ hab
    | tail _ hbc ih => exact (horder _ _ hbc).trans ih
  exact Nat.lt_irrefl _ (hlt a hcycle)

/-- Whatever comes after it, a symbol lasts for one round more than the symbols it pursues. -/
lemma Pursues.lasts (hab : g.Pursues a b) (hb : ∀ r, g.Lasts n (b :: r)) (r : Form) :
    g.Lasts (n + 1) (a :: r) := by
  obtain ⟨hs, c, hp | ⟨hp, w, hw⟩⟩ := hab
  · exact ⟨_, (continues_cons_of_not_settles hs).2 ⟨_, hp, rfl⟩, hb (c :: r)⟩
  · exact ⟨_, (continues_cons_of_not_settles hs).2 ⟨_, hp, rfl⟩, hw.lasts (hb r)⟩

lemma lasts_of_transGen (hab : TransGen g.Pursues a b) (hb : ∀ r, g.Lasts n (b :: r)) :
    ∀ r, g.Lasts (n + 1) (a :: r) := by
  induction hab using TransGen.head_induction_on with
  | single hab => exact hab.lasts hb
  | head hac _ ih => exact fun r => (hac.lasts ih r).of_succ

/-- Where a nonterminal leads back to itself, the start symbol lasts for ever. -/
theorem Circles.lasts (hcircles : g.Circles) (n : Nat) : g.Lasts n [g.start] := by
  obtain ⟨a, hstart, hcycle⟩ := hcircles
  have hlasts : ∀ r, g.Lasts n (a :: r) := by
    induction n with
    | zero => exact fun _ => trivial
    | succ n ih => exact lasts_of_transGen hcycle ih
  rcases reflTransGen_iff_eq_or_transGen.1 hstart with heq | hpath
  · rw [← heq]
    exact hlasts []
  · exact (lasts_of_transGen hpath hlasts []).of_succ

/-- If no body of a symbol lasts together with what comes after it, neither does the symbol: it has
finitely many bodies. -/
lemma exists_not_lasts_of_bodies (ha : ¬g.settles a = true)
    (hbodies : ∀ body, (⟨a, body⟩ : Production) ∈ g.productions → ∃ n, ¬g.Lasts n (body ++ r)) :
    ∃ n, ¬g.Lasts n (a :: r) := by
  have hbound : ∀ body, ∃ n, body ∈ g.bodies a → ¬g.Lasts n (body ++ r) := by
    intro body
    by_cases hbody : body ∈ g.bodies a
    · obtain ⟨n, hn⟩ := hbodies body (mem_bodies.1 hbody)
      exact ⟨n, fun _ => hn⟩
    · exact ⟨0, fun hmem => absurd hmem hbody⟩
  choose bound hbound using hbound
  refine ⟨((g.bodies a).map bound).sum + 1, ?_⟩
  rintro ⟨v, hv, hlasts⟩
  obtain ⟨body, hp, rfl⟩ := (continues_cons_of_not_settles ha).1 hv
  have hbody := mem_bodies.2 hp
  exact hbound body hbody (hlasts.of_le (List.le_sum_of_mem (List.mem_map_of_mem hbody)))

/-- Where no nonterminal leads back to itself, a symbol that can have its turn comes to an end, if
that which has its turn after it does. -/
lemma exists_not_lasts (hb : g.Branching) (hnot : ¬g.Circles)
    (hpath : ReflTransGen g.Pursues g.start a)
    (hr : (∃ w, g.Yields [a] w) → ∃ n, ¬g.Lasts n r) : ∃ n, ¬g.Lasts n (a :: r) := by
  induction he : extent g.Pursues a using Nat.strong_induction_on generalizing a r with
  | _ e ih =>
    -- what the symbol pursues does not lead back to it
    have hlt : ∀ b, g.Pursues a b → extent g.Pursues b < e := by
      intro b hab
      rw [← he]
      exact extent_lt hab fun hback => hnot ⟨a, hpath, TransGen.head' hab hback⟩
    by_cases hs : g.settles a = true
    · obtain ⟨n, hn⟩ := hr (exists_yields_of_settles hs)
      exact ⟨n, fun hlasts => hn ((lasts_cons_of_settles hs).1 hlasts)⟩
    · refine exists_not_lasts_of_bodies hs fun body hp => ?_
      rcases hb.body _ hp with ⟨t, ht, rfl⟩ | htwo
      · exact absurd (settles_iff.2 (.inr ⟨t, ht, hp⟩)) hs
      · obtain ⟨b, c, rfl⟩ := List.length_eq_two.1 htwo
        have hab : g.Pursues a b := ⟨hs, c, .inl hp⟩
        refine ih _ (hlt b hab) (hpath.tail hab) (fun ⟨x, hx⟩ => ?_) rfl
        -- the second symbol has its turn if the first one derives a word
        have hac : g.Pursues a c := ⟨hs, b, .inr ⟨hp, x, hx⟩⟩
        refine ih _ (hlt c hac) (hpath.tail hac) (fun ⟨y, hy⟩ => ?_) rfl
        exact hr ⟨x ++ y, .of_body hp (hx.append hy)⟩

/-! ## Rounds without words -/

section

variable {k : Nat} {candidates : List Candidate} {seen : Std.HashSet Candidate}

lemma exists_expansion_iff :
    (∃ d ∈ g.expansions (g.settlementsOf candidates), d.rest = v) ↔
      ∃ c ∈ candidates, g.Continues c.rest v := by
  constructor
  · rintro ⟨d, hd, rfl⟩
    obtain ⟨settled, a, rest, hst, body, hp, rfl⟩ := mem_expansions.1 hd
    obtain ⟨c, hc, hst⟩ := List.mem_flatMap.1 hst
    exact ⟨c, hc, a, rest, body, exists_stuck_iff.1 ⟨settled, hst⟩, hp, rfl⟩
  · rintro ⟨c, hc, a, rest, body, hstuck, hp, rfl⟩
    obtain ⟨settled, hst⟩ := exists_stuck_iff.2 hstuck
    have hmem : .stuck settled a rest ∈ g.settlementsOf candidates :=
      List.mem_flatMap.2 ⟨c, hc, hst⟩
    exact ⟨_, mem_expansions.2 ⟨settled, a, rest, hmem, body, hp, rfl⟩, rfl⟩

/-- Without words, the rounds give no result, and they end before their number is used up exactly if
no candidate lasts for all of them. -/
lemma Tracks.ended_iff (hb : g.Branching) (hempty : ∀ w, ¬g.Yields [g.start] w)
    (ht : g.Tracks k candidates seen) (rounds checks : Nat) :
    (g.settleRounds .never rounds candidates seen checks).value = [] ∧
      ((g.settleRounds .never rounds candidates seen checks).ended = true ↔
        ∀ c ∈ candidates, ¬g.Lasts rounds c.rest) := by
  have hnone : ∀ w, ¬g.Shortest [g.start] w := fun w hw => hempty w hw.yields
  fun_induction Grammar.settleRounds g .never rounds candidates seen checks generalizing k with
  | case1 rounds seen checks => simp
  | case2 c candidates seen checks =>
    refine ⟨rfl, ⟨fun hended => absurd hended Bool.false_ne_true, fun hlasts => ?_⟩⟩
    exact absurd trivial (hlasts c List.mem_cons_self)
  | case3 rounds candidates seen checks _ hreached =>
    rw [Cutoff.reached_never] at hreached
    contradiction
  | case4 rounds candidates seen checks _ _ table settlements _ seen' next hpush =>
    rename_i ih
    have hnext := ht.mem_next_iff hb hpush
    obtain ⟨hvalue, hended⟩ := ih (ht.expand hb (fun w hw => absurd hw (hnone w)) hpush)
    refine ⟨hvalue, hended.trans ⟨fun hlasts c hc => ?_, fun hlasts d hd hlast => ?_⟩⟩
    · rintro ⟨v, hv, hlast⟩
      obtain ⟨d, hd, rfl⟩ := exists_expansion_iff.2 ⟨c, hc, hv⟩
      exact hlasts d ((hnext d).2 hd) hlast
    · obtain ⟨c, hc, hv⟩ := exists_expansion_iff.1 ⟨d, (hnext d).1 hd, rfl⟩
      exact hlasts c hc ⟨_, hv, hlast⟩
  | case5 rounds candidates seen checks _ _ table settlements =>
    rename_i hwords
    obtain ⟨w, hw⟩ := List.exists_mem_of_ne_nil _ hwords
    rw [mem_dropRepeats, Form.mem_sortShortlex] at hw
    have hshortest := (ht.mem_settledWords_iff hb fun v hv => absurd hv (hempty v)).1 hw
    exact absurd hshortest.1 (hnone w)

end

/-! ## The search -/

/-- Without words, there is no empty body. -/
lemma not_has_nil (hempty : ∀ w, ¬g.Yields [g.start] w) : ¬g.has g.start [] = true :=
  fun hp => hempty [] (.of_body (has_iff.1 hp) .nil)

/-- Without words, the search lists none, and it comes to its end exactly if the start symbol does
not last for all rounds. -/
lemma ended_shortestWords_iff (hg : g.Admissible) (hnormal : g.isNormal = true)
    (hempty : ∀ w, ¬g.Yields [g.start] w) (hbodies : g.bodies g.start ≠ []) (rounds : Nat) :
    (g.shortestWords .never rounds).value = [] ∧
      ((g.shortestWords .never rounds).ended = true ↔ ¬g.Lasts rounds [g.start]) := by
  have hb := branching_of_isNormal hg hnormal (not_has_nil hempty)
  obtain ⟨hvalue, hended⟩ := g.tracks_initial.ended_iff hb hempty rounds 0
  unfold shortestWords
  dsimp only
  rw [if_neg (by simpa using hbodies), if_neg (not_has_nil hempty)]
  exact ⟨hvalue, hended.trans List.forall_mem_singleton⟩

/-- A start symbol without words that lasts for a round has bodies. -/
lemma bodies_ne_nil_of_lasts (hempty : ∀ w, ¬g.Yields [g.start] w)
    (hlasts : g.Lasts 1 [g.start]) : g.bodies g.start ≠ [] := by
  have hs : ¬g.settles g.start = true := by
    intro hs
    obtain ⟨w, hw⟩ := exists_yields_of_settles hs
    exact hempty w hw
  obtain ⟨v, hv, -⟩ := hlasts
  obtain ⟨body, hp, -⟩ := (continues_cons_of_not_settles hs).1 hv
  exact List.ne_nil_of_mem (mem_bodies.2 hp)

/-- Where a nonterminal leads back to itself, no number of rounds is enough. -/
lemma ended_shortestWords_eq_false (hg : g.Admissible) (hnormal : g.isNormal = true)
    (hempty : ∀ w, ¬g.Yields [g.start] w) (hcircles : g.Circles) (rounds : Nat) :
    (g.shortestWords .never rounds).ended = false := by
  have hbodies := bodies_ne_nil_of_lasts hempty (hcircles.lasts 1)
  rw [← Bool.not_eq_true, (ended_shortestWords_iff hg hnormal hempty hbodies rounds).2]
  exact not_not_intro (hcircles.lasts rounds)

/-- Where none does, the search ends, be it at once because the start symbol has no bodies. -/
lemma exists_ended_shortestWords (hg : g.Admissible) (hnormal : g.isNormal = true)
    (hempty : ∀ w, ¬g.Yields [g.start] w) (hnot : ¬g.Circles) :
    ∃ n, ∀ rounds ≥ n, (g.shortestWords .never rounds).ended = true ∧
      (g.shortestWords .never rounds).value = [] := by
  by_cases hbodies : g.bodies g.start = []
  · exact ⟨0, fun rounds _ => by simp [shortestWords, hbodies]⟩
  · have hb := branching_of_isNormal hg hnormal (not_has_nil hempty)
    obtain ⟨n, hn⟩ := exists_not_lasts hb hnot .refl fun ⟨w, hw⟩ => absurd hw (hempty w)
    refine ⟨n, fun rounds hrounds => ?_⟩
    obtain ⟨hvalue, hended⟩ := ended_shortestWords_iff hg hnormal hempty hbodies rounds
    exact ⟨hended.2 fun hlasts => hn (hlasts.of_le hrounds), hvalue⟩

/-- For a grammar in normal form without words, the search for the shortest words comes to its end
with the empty list unless a nonterminal that can have its turn leads back to itself, and then it
never does. -/
theorem shortestWords_of_empty_language (hg : g.Built) (hnormal : g.isNormal = true)
    (hempty : ∀ w, ¬g.InLanguage w) :
    (¬g.Circles → ∃ n, ∀ rounds ≥ n, (g.shortestWords .never rounds).ended = true ∧
      (g.shortestWords .never rounds).value = []) ∧
    (g.Circles → ∀ rounds, (g.shortestWords .never rounds).ended = false) := by
  have hempty : ∀ w, ¬g.Yields [g.start] w := fun w hw => hempty w (inLanguage_iff_yields.2 hw)
  exact ⟨exists_ended_shortestWords hg.admissible hnormal hempty,
    ended_shortestWords_eq_false hg.admissible hnormal hempty⟩

/-- A grammar in normal form without words whose recursions are never followed: one nonterminal has
a terminal besides, and the start symbol comes back only after a nonterminal that has no bodies. -/
def blocked : Grammar :=
  ⟨'S', .ofList [⟨'S', ['A', 'D']⟩, ⟨'A', ['A', 'A']⟩, ⟨'A', ['a']⟩, ⟨'D', ['E', 'S']⟩]⟩

/-- The start symbol and what comes after it have no words. -/
lemma closed_blocked : blocked.Closed fun s _ => s ≠ 'S' ∧ s ≠ 'D' ∧ s ≠ 'E' := by
  refine ⟨fun s hs => ⟨?_, ?_, ?_⟩, fun p hp w hw => ?_⟩
  · rintro rfl
    exact absurd hs (by decide)
  · rintro rfl
    exact absurd hs (by decide)
  · rintro rfl
    exact absurd hs (by decide)
  · simp only [blocked, SortedSet.mem_ofList, List.mem_cons, List.not_mem_nil, or_false] at hp
    rcases hp with rfl | rfl | rfl | rfl
    all_goals simp_all [Reads]

lemma not_circles_blocked : ¬blocked.Circles := by
  have hA : blocked.settles 'A' = true :=
    settles_iff.2 (.inr ⟨'a', by decide, by simp [blocked]⟩)
  have hE : ∀ w, ¬blocked.Yields ['E'] w := fun w hw =>
    absurd rfl (reads_singleton_iff.1 (hw.reads closed_blocked)).2.2
  refine not_circles_of_descends (fun s => if s = 'S' then 2 else if s = 'D' then 1 else 0) ?_
  rintro a b ⟨hs, c, hp | ⟨hp, w, hw⟩⟩
  · simp only [blocked, SortedSet.mem_ofList, List.mem_cons, List.not_mem_nil, or_false,
      Production.mk.injEq, List.cons.injEq, and_true] at hp
    rcases hp with ⟨rfl, rfl, -⟩ | ⟨rfl, -⟩ | ⟨-, -, hne⟩ | ⟨rfl, rfl, -⟩
    · decide
    · exact absurd hA hs
    · exact absurd hne (List.cons_ne_nil _ _)
    · decide
  · simp only [blocked, SortedSet.mem_ofList, List.mem_cons, List.not_mem_nil, or_false,
      Production.mk.injEq, List.cons.injEq, and_true] at hp
    rcases hp with ⟨rfl, -, rfl⟩ | ⟨rfl, -⟩ | ⟨-, -, hne⟩ | ⟨-, rfl, -⟩
    · decide
    · exact absurd hA hs
    · exact absurd hne (List.cons_ne_nil _ _)
    · exact absurd hw (hE w)

theorem shortestWords_blocked :
    blocked.Built ∧ blocked.isNormal = true ∧ (∀ w, ¬blocked.InLanguage w) ∧ ¬blocked.Circles ∧
      ∃ n, ∀ rounds ≥ n, (blocked.shortestWords .never rounds).ended = true ∧
        (blocked.shortestWords .never rounds).value = [] := by
  have hbuilt : blocked.Built :=
    @Built.rules _ 'S' [('S', [['A', 'D']]), ('A', [['A', 'A'], ['a']]), ('D', [['E', 'S']])] rfl
  have hnormal : blocked.isNormal = true := by
    simp only [isNormal, List.all_eq_true, SortedSet.mem_toList, blocked, SortedSet.mem_ofList,
      List.forall_mem_cons, isNormalProduction]
    decide
  have hempty : ∀ w, ¬blocked.InLanguage w := fun w hw =>
    absurd rfl (reads_singleton_iff.1 ((inLanguage_iff_yields.1 hw).reads closed_blocked)).1
  exact ⟨hbuilt, hnormal, hempty, not_circles_blocked,
    (shortestWords_of_empty_language hbuilt hnormal hempty).1 not_circles_blocked⟩

/-- A grammar in normal form without words whose recursion is followed for ever. -/
def barren : Grammar := ⟨'S', .ofList [⟨'S', ['S', 'S']⟩]⟩

theorem never_ended_shortestWords_barren :
    barren.Built ∧ barren.isNormal = true ∧ (∀ w, ¬barren.InLanguage w) ∧
      ∀ rounds, (barren.shortestWords .never rounds).ended = false := by
  have hbuilt : barren.Built := @Built.rules _ 'S' [('S', [['S', 'S']])] rfl
  have hnormal : barren.isNormal = true := by decide
  have hclosed : barren.Closed fun s _ => s ≠ 'S' := by
    refine ⟨fun s hs heq => ?_, fun p hp w hw => ?_⟩
    · rw [heq] at hs
      exact absurd hs (by decide)
    · simp only [barren, SortedSet.mem_ofList, List.mem_singleton] at hp
      subst hp
      obtain ⟨x, y, -, hx, -⟩ := hw
      exact absurd rfl hx
  have hempty : ∀ w, ¬barren.Yields [barren.start] w := fun w hw =>
    absurd rfl (reads_singleton_iff.1 (hw.reads hclosed))
  have hpursues : barren.Pursues 'S' 'S' := ⟨by decide, 'S', .inl (by simp [barren])⟩
  refine ⟨hbuilt, hnormal, fun w hw => hempty w (inLanguage_iff_yields.1 hw), ?_⟩
  exact ended_shortestWords_eq_false hbuilt.admissible hnormal hempty
    ⟨'S', .refl, .single hpursues⟩

end ContextFree.Grammar
