import ContextFree.Proofs.Search.Enumeration
import ContextFree.Search.Shortest

/-!
# Shortest words are found by settling

In a grammar whose bodies are single terminals or have two symbols, settling a form never
changes its length and expanding it makes it longer by one. So all candidates of round `k` are
forms of length `k`, and what is settled in that round are words of length `k`.

That no shortest word gets lost is an exchange argument (`Shortest.length_le_one`): where a
nonterminal could be a single terminal, it is one in every shortest word, since a longer part
could be exchanged for that terminal. So every shortest word is still covered by a candidate of
each round (`Tracks`), until the round of its own length settles it.

The main result is `shortestWords_exact`.
-/

namespace ContextFree

/-! ## Lists of words -/

namespace Form

/-- Words of which neither comes after the other are equal. -/
lemma eq_of_shortlex {u v : Form} (huv : shortlex u v = true) (hvu : shortlex v u = true) :
    u = v := by
  rw [shortlex_iff] at huv hvu
  rcases huv with huv | ⟨hlength, huv⟩
  · omega
  · rcases hvu with hvu | ⟨-, hvu⟩
    · omega
    · exact eq_of_not_before hvu huv

end Form

namespace Grammar

variable {g : Grammar} {a s t : Symbol} {u v w x y z : Form}

@[simp] lemma mem_dropRepeats {words : List Form} : w ∈ dropRepeats words ↔ w ∈ words := by
  fun_induction dropRepeats words with
  | case1 u rest ih =>
    rw [ih]
    simp
  | case2 u v rest _ ih => simp only [List.mem_cons, ih]
  | case3 => rfl

/-- In a sorted list, equal words are neighbours. -/
lemma pairwise_dropRepeats {words : List Form}
    (hsorted : words.Pairwise fun u v => Form.shortlex u v = true) :
    (dropRepeats words).Pairwise fun u v => Form.shortlex u v = true ∧ u ≠ v := by
  fun_induction dropRepeats words with
  | case1 u rest ih => exact ih (List.pairwise_cons.1 hsorted).2
  | case2 u v rest hne ih =>
    obtain ⟨hu, htail⟩ := List.pairwise_cons.1 hsorted
    refine List.pairwise_cons.2 ⟨fun w hw => ?_, ih htail⟩
    rw [mem_dropRepeats] at hw
    refine ⟨hu w hw, fun huw => ?_⟩
    -- the next word would stand between two equal ones
    subst huw
    have hvu : Form.shortlex v u = true := by
      rcases List.mem_cons.1 hw with rfl | hw
      · exact hu u List.mem_cons_self
      · exact (List.pairwise_cons.1 htail).1 u hw
    exact hne (Form.eq_of_shortlex (hu v List.mem_cons_self) hvu)
  | case3 words hshort =>
    cases words with
    | nil => exact .nil
    | cons u words =>
      cases words with
      | nil => exact List.pairwise_singleton _ _
      | cons v words => exact absurd rfl (hshort u v words)

/-! ## Grammars that branch -/

/-- Every body is a single terminal or has two symbols, and only nonterminals have bodies. -/
structure Branching (g : Grammar) : Prop where
  head : ∀ p ∈ g.productions, p.head.isTerminal = false
  body : ∀ p ∈ g.productions, (∃ t, t.isTerminal = true ∧ p.body = [t]) ∨ p.body.length = 2

/-- A grammar in normal form whose start symbol has no empty body. -/
lemma branching_of_isNormal (hg : g.Admissible) (hnormal : g.isNormal = true)
    (hempty : ¬g.has g.start [] = true) : g.Branching := by
  refine ⟨fun p hp => Symbol.isTerminal_eq_false (hg.head p hp), fun p hp => ?_⟩
  have hbody : g.isNormalProduction p = true := List.all_eq_true.1 hnormal p hp
  unfold isNormalProduction at hbody
  split at hbody
  · rename_i hnil
    have hhead : p.head = g.start := of_decide_eq_true hbody
    rw [← hhead, ← hnil] at hempty
    exact absurd (has_iff.2 hp) hempty
  · rename_i t ht
    exact .inl ⟨t, hbody, ht⟩
  · rename_i b c hbc
    right
    rw [hbc]
    rfl
  · contradiction

lemma Branching.length_le (hb : g.Branching) (hy : g.Yields u w) : u.length ≤ w.length := by
  refine hy.length_le fun p hp hnil => ?_
  rcases hb.body p hp with ⟨t, -, hbody⟩ | hlength
  · rw [hnil] at hbody
    contradiction
  · rw [hnil] at hlength
    contradiction

/-- A terminal yields nothing but itself. -/
lemma Branching.eq_of_yields_terminal (hb : g.Branching) (ht : t.isTerminal = true)
    (hy : g.Yields [t] w) : w = [t] := by
  rcases yields_singleton_iff.1 hy with ⟨-, hw⟩ | ⟨p, hp, rfl, -⟩
  · exact hw
  · rw [hb.head p hp] at ht
    contradiction

/-- A nonterminal yields a single symbol only by a production, and two symbols at least by any
other. -/
lemma Branching.yields_cases (hb : g.Branching) (ha : a.isTerminal = false)
    (hy : g.Yields [a] w) :
    (∃ t, t.isTerminal = true ∧ (⟨a, [t]⟩ : Production) ∈ g.productions ∧ w = [t]) ∨
      2 ≤ w.length := by
  rcases yields_singleton_iff.1 hy with ⟨ht, -⟩ | ⟨⟨b, body⟩, hp, rfl, hbody⟩
  · rw [ha] at ht
    contradiction
  · rcases hb.body _ hp with ⟨t, ht, rfl⟩ | hlength
    · exact .inl ⟨t, ht, hp, hb.eq_of_yields_terminal ht hbody⟩
    · have hle := hb.length_le hbody
      exact .inr (by omega)

/-! ## Shortest words -/

/-- The word is one of the shortest that the form yields. -/
structure Shortest (g : Grammar) (u w : Form) : Prop where
  yields : g.Yields u w
  least : ∀ v, g.Yields u v → w.length ≤ v.length

/-- A shortest word stays one along a derivation that still leads to it. -/
lemma Shortest.of_derives (hw : g.Shortest u w) (hd : g.Derives u v) (hy : g.Yields v w) :
    g.Shortest v w :=
  ⟨hy, fun x hx => hw.least x (.of_derives hd hx)⟩

lemma Shortest.length_eq (hv : g.Shortest u v) (hw : g.Shortest u w) : v.length = w.length :=
  Nat.le_antisymm (hv.least w hw.yields) (hw.least v hv.yields)

lemma shortest_start_iff :
    g.Shortest [g.start] w ↔ g.InLanguage w ∧ ∀ v, g.InLanguage v → w.length ≤ v.length := by
  simp only [inLanguage_iff_yields]
  exact ⟨fun hw => ⟨hw.yields, hw.least⟩, fun hw => ⟨hw.1, hw.2⟩⟩

lemma exists_shortest (hy : g.Yields u v) : ∃ w, g.Shortest u w := by
  induction hn : v.length using Nat.strong_induction_on generalizing v with
  | _ n ih =>
    by_cases hleast : ∀ x, g.Yields u x → v.length ≤ x.length
    · exact ⟨v, hy, hleast⟩
    · push Not at hleast
      obtain ⟨x, hx, hlt⟩ := hleast
      exact ih x.length (by omega) hx rfl

/-- Where a symbol could be a single terminal, a shortest word gives it one place at most: a longer
part could be exchanged for that terminal. -/
lemma Shortest.length_le_one (hw : g.Shortest (u ++ s :: v) (u ++ (x ++ z)))
    (hu : ∀ r ∈ u, r.isTerminal = true) (hz : g.Yields v z)
    (hp : (⟨s, [t]⟩ : Production) ∈ g.productions) (ht : t.isTerminal = true) : x.length ≤ 1 := by
  have hs : g.Yields [s] [t] := .of_body hp (.terminal ht .nil)
  have hexchanged : g.Yields (u ++ ([s] ++ v)) (u ++ ([t] ++ z)) :=
    (yields_self hu).append (hs.append hz)
  have hle : (u ++ (x ++ z)).length ≤ (u ++ ([t] ++ z)).length := hw.least _ hexchanged
  simp only [List.length_append, List.length_singleton] at hle
  omega

/-! ## Settling a form -/

lemma mem_replacements :
    (a, t) ∈ g.replacements ↔ t.isTerminal = true ∧ (⟨a, [t]⟩ : Production) ∈ g.productions := by
  rw [replacements, List.mem_filterMap]
  constructor
  · rintro ⟨⟨b, body⟩, hp, hsome⟩
    dsimp only at hsome
    split at hsome
    · obtain ⟨ht, heq⟩ := Option.ite_none_right_eq_some.1 hsome
      obtain ⟨rfl, rfl⟩ := Prod.mk.inj (Option.some.inj heq)
      exact ⟨ht, hp⟩
    · contradiction
  · rintro ⟨ht, hp⟩
    exact ⟨_, hp, if_pos ht⟩

/-- The form of a settlement. -/
def settledForm : Settlement → Form
  | .word w => w
  | .stuck settled a rest => settled.reverse ++ a :: rest

/-- Nothing can be settled any more: a word has terminals only, and where a form is stuck stands a
nonterminal that has no terminal among its bodies. -/
def IsSettled (g : Grammar) : Settlement → Prop
  | .word w => ∀ s ∈ w, s.isTerminal = true
  | .stuck settled a _ => (∀ s ∈ settled, s.isTerminal = true) ∧ a.isTerminal = false ∧
      ∀ t, t.isTerminal = true → (⟨a, [t]⟩ : Production) ∉ g.productions

/-- Settling derives forms of the same length. -/
lemma of_mem_settle {settled rest : Form} {st : Settlement}
    (hsettled : ∀ s ∈ settled, s.isTerminal = true)
    (hst : st ∈ settle g.replacements settled rest) :
    g.Derives (settled.reverse ++ rest) (settledForm st) ∧
      (settledForm st).length = (settled.reverse ++ rest).length ∧ g.IsSettled st := by
  induction rest generalizing settled with
  | nil =>
    rw [settle, List.mem_singleton] at hst
    subst hst
    rw [List.append_nil]
    exact ⟨.refl _, rfl, fun s hs => hsettled s (List.mem_reverse.1 hs)⟩
  | cons s rest ih =>
    -- a terminal that is settled joins those before it
    have hmore : ∀ t, t.isTerminal = true → ∀ r ∈ t :: settled, r.isTerminal = true :=
      fun t ht => List.forall_mem_cons.2 ⟨ht, hsettled⟩
    have hplace : ∀ t, (t :: settled).reverse ++ rest = settled.reverse ++ t :: rest := by simp
    rw [settle] at hst
    split at hst
    · rename_i hs
      have hrest := ih (hmore s hs) hst
      rwa [hplace] at hrest
    · rename_i hs
      split at hst
      · rename_i hnone
        rw [List.mem_singleton] at hst
        subst hst
        refine ⟨.refl _, rfl, hsettled, by simpa using hs, fun t ht hp => ?_⟩
        have hmem : (s, t) ∈ g.replacements.filter fun r => r.1 == s :=
          List.mem_filter.2 ⟨mem_replacements.2 ⟨ht, hp⟩, beq_self_eq_true s⟩
        rw [hnone] at hmem
        contradiction
      · obtain ⟨⟨b, t⟩, hr, hsettle⟩ := List.mem_flatMap.1 hst
        obtain ⟨hreplace, hb⟩ := List.mem_filter.1 hr
        obtain rfl : b = s := by simpa using hb
        obtain ⟨ht, hp⟩ := mem_replacements.1 hreplace
        obtain ⟨hderives, hlength, hfinal⟩ := ih (hmore t ht) hsettle
        rw [hplace] at hderives hlength
        have hstep : g.Derives (settled.reverse ++ b :: rest) (settled.reverse ++ t :: rest) :=
          ((derives_body hp).append_right rest).append_left settled.reverse
        refine ⟨hstep.trans hderives, ?_, hfinal⟩
        rw [hlength, List.length_append, List.length_append, List.length_cons, List.length_cons]

/-- The word begins with the settled part, and the rest yields the rest of it. -/
def Covers (g : Grammar) (settled rest w : Form) : Prop :=
  ∃ y, w = settled.reverse ++ y ∧ g.Yields rest y

/-- A settlement is the word, or it is stuck at a form that covers it. -/
def Reaches (g : Grammar) (w : Form) : Settlement → Prop
  | .word v => v = w
  | .stuck settled a rest => g.Covers settled (a :: rest) w

/-- A shortest word that a form covers is not lost when the form is settled. -/
theorem exists_mem_settle (hb : g.Branching) {settled rest : Form}
    (hsettled : ∀ s ∈ settled, s.isTerminal = true)
    (hw : g.Shortest (settled.reverse ++ rest) w) (hcovers : g.Covers settled rest w) :
    ∃ st ∈ settle g.replacements settled rest, g.Reaches w st := by
  induction rest generalizing settled with
  | nil =>
    obtain ⟨y, rfl, hy⟩ := hcovers
    rw [yields_nil_iff.1 hy, List.append_nil]
    exact ⟨_, List.mem_singleton.2 rfl, rfl⟩
  | cons s rest ih =>
    -- settling the first symbol as it is in the word
    have hsettle : ∀ t z, t.isTerminal = true → g.Derives [s] [t] →
        w = settled.reverse ++ t :: z → g.Yields rest z →
        ∃ st ∈ settle g.replacements (t :: settled) rest, g.Reaches w st := by
      intro t z ht hd hz hyz
      have hterminals : ∀ r ∈ t :: settled, r.isTerminal = true :=
        List.forall_mem_cons.2 ⟨ht, hsettled⟩
      have hword : w = (t :: settled).reverse ++ z := by simpa using hz
      have hderives :
          g.Derives (settled.reverse ++ s :: rest) ((t :: settled).reverse ++ rest) := by
        simpa using (hd.append_right rest).append_left settled.reverse
      have hyields : g.Yields ((t :: settled).reverse ++ rest) w := by
        rw [hword]
        exact (yields_self fun r hr => hterminals r (List.mem_reverse.1 hr)).append hyz
      exact ih hterminals (hw.of_derives hderives hyields) ⟨z, hword, hyz⟩
    obtain ⟨y, hword, hy⟩ := hcovers
    obtain ⟨x, z, rfl, hx, hz⟩ := yields_cons_iff.1 hy
    rw [settle]
    split
    · rename_i hs
      rw [hb.eq_of_yields_terminal hs hx] at hword
      exact hsettle s z hs (.refl _) hword hz
    · rename_i hs
      have hs' : s.isTerminal = false := by simpa using hs
      split
      · exact ⟨_, List.mem_singleton.2 rfl, _, hword, hy⟩
      · rename_i hsome
        obtain ⟨⟨b, t⟩, hr⟩ := List.exists_mem_of_ne_nil _ hsome
        obtain ⟨hreplace, hbs⟩ := List.mem_filter.1 hr
        obtain rfl : b = s := by simpa using hbs
        obtain ⟨ht, hp⟩ := mem_replacements.1 hreplace
        -- the word has a single terminal in this place, and the production for it
        rw [hword] at hw
        have hlength : x.length ≤ 1 := hw.length_le_one
          (fun r hr => hsettled r (List.mem_reverse.1 hr)) hz hp ht
        rcases hb.yields_cases hs' hx with ⟨t', ht', hp', rfl⟩ | htwo
        · obtain ⟨st, hst, hreaches⟩ := hsettle t' z ht' (derives_body hp') hword hz
          have hmem : (b, t') ∈ g.replacements.filter fun r => r.1 == b :=
            List.mem_filter.2 ⟨mem_replacements.2 ⟨ht', hp'⟩, beq_self_eq_true b⟩
          exact ⟨st, List.mem_flatMap.2 ⟨(b, t'), hmem, hst⟩, hreaches⟩
        · omega

/-! ## Rounds -/

/-- The form of a candidate. -/
def candidateForm (c : Candidate) : Form := c.settled.reverse ++ c.rest

/-- The candidates of round `k` are derived forms of `k` symbols that cover all shortest words, and
no longer form has been met. -/
structure Tracks (g : Grammar) (k : Nat) (candidates : List Candidate)
    (seen : Std.HashSet Candidate) : Prop where
  settled : ∀ c ∈ candidates, ∀ s ∈ c.settled, s.isTerminal = true
  derives : ∀ c ∈ candidates, g.Derives [g.start] (candidateForm c)
  length : ∀ c ∈ candidates, (candidateForm c).length = k
  covers : ∀ w, g.Shortest [g.start] w → ∃ c ∈ candidates, g.Covers c.settled c.rest w
  seen : ∀ c ∈ seen, (candidateForm c).length ≤ k

lemma tracks_initial :
    g.Tracks 1 [⟨[], [g.start]⟩] Std.HashSet.emptyWithCapacity where
  settled c hc := by
    rw [List.mem_singleton.1 hc]
    simp
  derives c hc := by
    rw [List.mem_singleton.1 hc]
    exact .refl _
  length c hc := by
    rw [List.mem_singleton.1 hc]
    rfl
  covers w hw := ⟨_, List.mem_singleton.2 rfl, w, rfl, hw.yields⟩
  seen c hc := absurd hc Std.HashSet.not_mem_emptyWithCapacity

/-- All settlements of a round. -/
def settlementsOf (g : Grammar) (candidates : List Candidate) : List Settlement :=
  candidates.flatMap fun c => settle g.replacements c.settled c.rest

section

variable {k : Nat} {candidates : List Candidate} {seen : Std.HashSet Candidate}

lemma Tracks.of_mem_settlements (ht : g.Tracks k candidates seen) {st : Settlement}
    (hst : st ∈ g.settlementsOf candidates) :
    g.Derives [g.start] (settledForm st) ∧ (settledForm st).length = k ∧ g.IsSettled st := by
  obtain ⟨c, hc, hst⟩ := List.mem_flatMap.1 hst
  obtain ⟨hderives, hlength, hsettled⟩ := of_mem_settle (ht.settled c hc) hst
  exact ⟨(ht.derives c hc).trans hderives, hlength.trans (ht.length c hc), hsettled⟩

/-- Every shortest word is reached by a settlement of the round. -/
lemma Tracks.exists_settlement (hb : g.Branching) (ht : g.Tracks k candidates seen)
    (hw : g.Shortest [g.start] w) : ∃ st ∈ g.settlementsOf candidates, g.Reaches w st := by
  obtain ⟨c, hc, hcovers⟩ := ht.covers w hw
  have hsettled := ht.settled c hc
  have hyields : g.Yields (candidateForm c) w := by
    obtain ⟨y, rfl, hy⟩ := hcovers
    exact (yields_self fun s hs => hsettled s (List.mem_reverse.1 hs)).append hy
  obtain ⟨st, hst, hreaches⟩ :=
    exists_mem_settle hb hsettled (hw.of_derives (ht.derives c hc) hyields) hcovers
  exact ⟨st, List.mem_flatMap.2 ⟨c, hc, hst⟩, hreaches⟩

lemma mem_settledWords {settlements : List Settlement} :
    w ∈ settledWords settlements ↔ .word w ∈ settlements := by
  rw [settledWords, List.mem_filterMap]
  constructor
  · rintro ⟨st, hst, hsome⟩
    cases st with
    | word v =>
      obtain rfl := Option.some.inj hsome
      exact hst
    | stuck => contradiction
  · intro hw
    exact ⟨_, hw, rfl⟩

/-- A nonterminal at which a form is stuck yields two symbols at least. -/
lemma length_lt_of_covers (hb : g.Branching) {settled rest : Form}
    (hst : g.IsSettled (.stuck settled a rest)) (hcovers : g.Covers settled (a :: rest) w) :
    (settledForm (.stuck settled a rest)).length < w.length := by
  obtain ⟨-, ha, hnone⟩ := hst
  obtain ⟨y, rfl, hy⟩ := hcovers
  obtain ⟨x, z, rfl, hx, hz⟩ := yields_cons_iff.1 hy
  have hrest := hb.length_le hz
  have htwo : 2 ≤ x.length := by
    rcases hb.yields_cases ha hx with ⟨t, ht, hp, -⟩ | htwo
    · exact absurd hp (hnone t ht)
    · exact htwo
  simp only [settledForm, List.length_append, List.length_reverse, List.length_cons]
  omega

/-- The words that are settled in round `k` are the words of length `k`, if none is shorter. -/
theorem Tracks.mem_settledWords_iff (hb : g.Branching) (ht : g.Tracks k candidates seen)
    (hk : ∀ v, g.Yields [g.start] v → k ≤ v.length) :
    w ∈ settledWords (g.settlementsOf candidates) ↔
      g.Shortest [g.start] w ∧ w.length = k := by
  rw [mem_settledWords]
  constructor
  · intro hw
    obtain ⟨hderives, hlength, hterminal⟩ := ht.of_mem_settlements hw
    have hlength' : w.length = k := hlength
    refine ⟨⟨yields_iff.2 ⟨hderives, hterminal⟩, fun v hv => ?_⟩, hlength'⟩
    rw [hlength']
    exact hk v hv
  · rintro ⟨hw, hlength⟩
    obtain ⟨st, hst, hreaches⟩ := ht.exists_settlement hb hw
    obtain ⟨-, hform, hsettled⟩ := ht.of_mem_settlements hst
    cases st with
    | word v =>
      obtain rfl : v = w := hreaches
      exact hst
    | stuck settled a rest =>
      -- the word would be longer than the forms of this round
      have hlt := length_lt_of_covers hb hsettled hreaches
      omega

/-! ### The next round -/

lemma mem_expansions {settlements : List Settlement} {c : Candidate} :
    c ∈ g.expansions settlements ↔ ∃ settled a rest, .stuck settled a rest ∈ settlements ∧
      ∃ body, (⟨a, body⟩ : Production) ∈ g.productions ∧ c = ⟨settled, body ++ rest⟩ := by
  rw [expansions, List.mem_flatMap]
  constructor
  · rintro ⟨st, hst, hc⟩
    cases st with
    | word v => exact absurd hc List.not_mem_nil
    | stuck settled a rest =>
      obtain ⟨body, hbody, rfl⟩ := List.mem_map.1 hc
      exact ⟨settled, a, rest, hst, body, mem_bodies.1 hbody, rfl⟩
  · rintro ⟨settled, a, rest, hst, body, hp, rfl⟩
    exact ⟨_, hst, List.mem_map.2 ⟨body, mem_bodies.2 hp, rfl⟩⟩

/-- Pushing candidates adds those that have not been met. -/
lemma mem_push (frontier : Frontier) (c d : Candidate) :
    (d ∈ (frontier.push c).seen ↔ d = c ∨ d ∈ frontier.seen) ∧
      (d ∈ (frontier.push c).next ↔ (d = c ∧ c ∉ frontier.seen) ∨ d ∈ frontier.next) := by
  obtain ⟨seen, next⟩ := frontier
  rw [Frontier.push]
  split
  · rename_i hseen
    have hmem : c ∈ seen := Std.HashSet.mem_iff_contains.2 hseen
    refine ⟨?_, by simp [hmem]⟩
    constructor
    · exact .inr
    · rintro (rfl | hd)
      · exact hmem
      · exact hd
  · rename_i hseen
    have hmem : c ∉ seen := fun hmem => hseen (Std.HashSet.mem_iff_contains.1 hmem)
    refine ⟨?_, by simp [hmem]⟩
    rw [Std.HashSet.mem_insert, beq_iff_eq, eq_comm]

lemma mem_foldl_push (l : List Candidate) (frontier : Frontier) (d : Candidate) :
    (d ∈ (l.foldl Frontier.push frontier).seen ↔ d ∈ l ∨ d ∈ frontier.seen) ∧
      (d ∈ (l.foldl Frontier.push frontier).next ↔
        (d ∈ l ∧ d ∉ frontier.seen) ∨ d ∈ frontier.next) := by
  induction l generalizing frontier with
  | nil => simp
  | cons c l ih =>
    obtain ⟨hseen, hnext⟩ := ih (frontier.push c)
    obtain ⟨hseen', hnext'⟩ := mem_push frontier c d
    rw [List.foldl_cons, hseen, hnext, hseen', hnext']
    constructor
    · grind
    · grind

/-- An expansion makes a form longer by one symbol. -/
lemma Tracks.of_mem_expansions (hb : g.Branching) (ht : g.Tracks k candidates seen)
    {c : Candidate} (hc : c ∈ g.expansions (g.settlementsOf candidates)) :
    (∀ s ∈ c.settled, s.isTerminal = true) ∧ g.Derives [g.start] (candidateForm c) ∧
      (candidateForm c).length = k + 1 := by
  obtain ⟨settled, a, rest, hst, body, hp, rfl⟩ := mem_expansions.1 hc
  obtain ⟨hderives, hlength, hterminal, -, hnone⟩ := ht.of_mem_settlements hst
  have hbody : body.length = 2 := by
    rcases hb.body _ hp with ⟨t, hterm, rfl⟩ | htwo
    · exact absurd hp (hnone t hterm)
    · exact htwo
  have hstep : g.Derives (settled.reverse ++ a :: rest) (settled.reverse ++ (body ++ rest)) :=
    ((derives_body hp).append_right rest).append_left settled.reverse
  refine ⟨hterminal, hderives.trans hstep, ?_⟩
  simp only [settledForm, candidateForm, List.length_append, List.length_cons] at hlength ⊢
  omega

/-- The candidates of the next round are all expansions: their forms are longer than all that have
been met. -/
lemma Tracks.mem_next_iff (hb : g.Branching) (ht : g.Tracks k candidates seen)
    {frontier : Frontier}
    (hfrontier : (g.expansions (g.settlementsOf candidates)).foldl Frontier.push ⟨seen, []⟩ =
      frontier) (d : Candidate) :
    d ∈ frontier.next ↔ d ∈ g.expansions (g.settlementsOf candidates) := by
  have hmem := (mem_foldl_push (g.expansions (g.settlementsOf candidates)) ⟨seen, []⟩ d).2
  simp only [hfrontier, List.not_mem_nil, or_false] at hmem
  rw [hmem]
  refine ⟨fun hd => hd.1, fun hd => ⟨hd, fun hseen => ?_⟩⟩
  have hle := ht.seen d hseen
  have hlength := (ht.of_mem_expansions hb hd).2.2
  omega

/-- A round that settles no shortest word leaves all of them to the next one. -/
theorem Tracks.expand (hb : g.Branching) (ht : g.Tracks k candidates seen)
    (hk : ∀ w, g.Shortest [g.start] w → k < w.length) {frontier : Frontier}
    (hfrontier : (g.expansions (g.settlementsOf candidates)).foldl Frontier.push ⟨seen, []⟩ =
      frontier) :
    g.Tracks (k + 1) frontier.next frontier.seen := by
  have hnext := ht.mem_next_iff hb hfrontier
  have hmem := mem_foldl_push (g.expansions (g.settlementsOf candidates)) ⟨seen, []⟩
  simp only [hfrontier] at hmem
  refine ⟨fun c hc => ?_, fun c hc => ?_, fun c hc => ?_, fun w hw => ?_, fun c hc => ?_⟩
  · exact (ht.of_mem_expansions hb ((hnext c).1 hc)).1
  · exact (ht.of_mem_expansions hb ((hnext c).1 hc)).2.1
  · exact (ht.of_mem_expansions hb ((hnext c).1 hc)).2.2
  · obtain ⟨st, hst, hreaches⟩ := ht.exists_settlement hb hw
    cases st with
    | word v =>
      obtain rfl : v = w := hreaches
      have hlength : v.length = k := (ht.of_mem_settlements hst).2.1
      have hlt := hk v hw
      omega
    | stuck settled a rest =>
      obtain ⟨y, hword, hy⟩ := hreaches
      obtain ⟨x, z, rfl, hx, hz⟩ := yields_cons_iff.1 hy
      obtain ⟨-, -, -, ha, -⟩ := ht.of_mem_settlements hst
      rcases yields_singleton_iff.1 hx with ⟨hterminal, -⟩ | ⟨⟨b, body⟩, hp, rfl, hbody⟩
      · rw [ha] at hterminal
        contradiction
      · have hc := mem_expansions.2 ⟨settled, b, rest, hst, body, hp, rfl⟩
        exact ⟨_, (hnext _).2 hc, x ++ z, hword, hbody.append hz⟩
  · rcases (hmem c).1.1 hc with hc | hc
    · exact Nat.le_of_eq (ht.of_mem_expansions hb hc).2.2
    · exact Nat.le_succ_of_le (ht.seen c hc)

/-! ### All rounds -/

/-- The rounds up to the least length of words, if the search is not told to stop in one of them,
end with the shortest words in lexicographic order. -/
theorem Tracks.settleRounds (hb : g.Branching) {l : Nat} (hl : ∃ w, g.Shortest [g.start] w)
    (hshortest : ∀ w, g.Shortest [g.start] w → w.length = l) {cutoff : Cutoff}
    {rounds checks : Nat} (ht : g.Tracks k candidates seen) (hk : k ≤ l)
    (hrounds : l < rounds + k)
    (hgo : ∀ i, checks ≤ i → i ≤ checks + (l - k) → cutoff.reached i ([] : List Form) = false) :
    (g.settleRounds cutoff rounds candidates seen checks).ended = true ∧
    (g.settleRounds cutoff rounds candidates seen checks).checks = checks + (l - k) + 1 ∧
    (g.settleRounds cutoff rounds candidates seen checks).value.Pairwise
      (fun u v => Form.before u v = true) ∧
    ∀ w, w ∈ (g.settleRounds cutoff rounds candidates seen checks).value ↔
      g.Shortest [g.start] w := by
  -- no word is shorter than the forms of a round that is reached
  have hleast : ∀ v, g.Yields [g.start] v → l ≤ v.length := by
    intro v hv
    obtain ⟨w, hw⟩ := hl
    rw [← hshortest w hw]
    exact hw.least v hv
  fun_induction Grammar.settleRounds g cutoff rounds candidates seen checks generalizing k with
  | case1 rounds seen checks =>
    obtain ⟨w, hw⟩ := hl
    obtain ⟨c, hc, -⟩ := ht.covers w hw
    exact absurd hc List.not_mem_nil
  | case2 seen checks c candidates => omega
  | case3 rounds candidates seen checks _ hreached =>
    rw [hgo checks (Nat.le_refl _) (Nat.le_add_right _ _)] at hreached
    contradiction
  | case4 rounds candidates seen checks _ _ table settlements hnone seen' next hpush =>
    rename_i ih
    -- nothing was settled, so the shortest words are longer
    have hwords : ∀ w, w ∉ settledWords (g.settlementsOf candidates) := by
      intro w hw
      have hmem : w ∈ dropRepeats (Form.sortShortlex (settledWords settlements)) := by
        rw [mem_dropRepeats, Form.mem_sortShortlex]
        exact hw
      rw [hnone] at hmem
      contradiction
    have hlt : k < l := by
      obtain ⟨w, hw⟩ := hl
      have hne : w.length ≠ k := fun heq => hwords w
        ((ht.mem_settledWords_iff hb fun v hv => hk.trans (hleast v hv)).2 ⟨hw, heq⟩)
      have hlength := hshortest w hw
      omega
    have hnext : g.Tracks (k + 1) next seen' :=
      ht.expand hb (fun w hw => by rw [hshortest w hw]; exact hlt) hpush
    have hrest := ih hnext (by omega) (by omega) fun i hi hi' => hgo i (by omega) (by omega)
    rwa [show checks + 1 + (l - (k + 1)) + 1 = checks + (l - k) + 1 by omega] at hrest
  | case5 rounds candidates seen checks _ _ table settlements =>
    rename_i hwords
    have hmem : ∀ w, w ∈ dropRepeats (Form.sortShortlex (settledWords settlements)) ↔
        g.Shortest [g.start] w ∧ w.length = k := by
      intro w
      rw [mem_dropRepeats, Form.mem_sortShortlex]
      exact ht.mem_settledWords_iff hb fun v hv => hk.trans (hleast v hv)
    obtain ⟨w, hw⟩ := List.exists_mem_of_ne_nil _ hwords
    obtain rfl : k = l := by
      obtain ⟨hw, hlength⟩ := (hmem w).1 hw
      rw [← hlength, hshortest w hw]
    refine ⟨rfl, by simp, ?_, fun w => ?_⟩
    · -- words of one length that stand in order are in lexicographic order
      have hsorted := pairwise_dropRepeats
        (Form.pairwise_shortlex_sortShortlex (settledWords settlements))
      refine hsorted.imp_of_mem fun {u v} hu hv huv => ?_
      have hlengthu := ((hmem u).1 hu).2
      have hlengthv := ((hmem v).1 hv).2
      rcases Form.shortlex_strict huv.1 huv.2 with hlt | ⟨-, hbefore⟩
      · omega
      · exact hbefore
    · show w ∈ dropRepeats (Form.sortShortlex (settledWords settlements)) ↔ _
      rw [hmem w]
      exact ⟨fun hw => hw.1, fun hw => ⟨hw, hshortest w hw⟩⟩

end

/-! ## The search -/

/-- For a grammar in normal form that has words, the search ends with its shortest words. -/
theorem exists_shortestWords (hg : g.Admissible) (hnormal : g.isNormal = true)
    (hlanguage : ∃ w, g.Yields [g.start] w) :
    ∃ n, ∀ rounds ≥ n,
      (g.shortestWords .never rounds).ended = true ∧
      (g.shortestWords .never rounds).value.Pairwise (fun u v => Form.before u v = true) ∧
      ∀ w, w ∈ (g.shortestWords .never rounds).value ↔ g.Shortest [g.start] w := by
  obtain ⟨v, hv⟩ := hlanguage
  obtain ⟨w₀, hw₀⟩ := exists_shortest hv
  refine ⟨w₀.length, fun rounds hrounds => ?_⟩
  -- the start symbol is no terminal, so a production is applied to it
  have hbodies : ¬(g.bodies g.start).isEmpty = true := by
    rcases yields_singleton_iff.1 hv with ⟨ht, -⟩ | ⟨⟨a, body⟩, hp, rfl, -⟩
    · rw [Symbol.isTerminal_eq_false hg.start] at ht
      contradiction
    · rw [List.isEmpty_iff]
      exact List.ne_nil_of_mem (mem_bodies.2 hp)
  unfold shortestWords
  dsimp only
  rw [if_neg hbodies]
  split
  · rename_i hempty
    have hnil : g.Shortest [g.start] [] :=
      ⟨.of_body (has_iff.1 hempty) .nil, fun _ _ => Nat.zero_le _⟩
    refine ⟨rfl, List.pairwise_singleton _ _, fun w => ?_⟩
    rw [List.mem_singleton]
    constructor
    · rintro rfl
      exact hnil
    · intro hw
      exact List.eq_nil_of_length_eq_zero (hw.length_eq hnil)
  · rename_i hempty
    have hb := branching_of_isNormal hg hnormal hempty
    have hlength : ∀ w, g.Shortest [g.start] w → w.length = w₀.length :=
      fun w hw => hw.length_eq hw₀
    have henough : w₀.length < rounds + 1 := by omega
    obtain ⟨hended, -, hsorted, hmem⟩ := g.tracks_initial.settleRounds hb ⟨w₀, hw₀⟩ hlength
      (hb.length_le hw₀.yields) henough fun i _ _ => Cutoff.reached_never i _
    exact ⟨hended, hsorted, hmem⟩

/-- A list in strict lexicographic order has no word twice. -/
lemma nodup_of_pairwise_before {words : List Form}
    (hsorted : words.Pairwise fun u v => Form.before u v = true) : words.Nodup := by
  refine hsorted.imp fun {u v} huv heq => ?_
  rw [heq, Form.before_irrefl] at huv
  contradiction

/-- The search for the shortest words of a grammar in normal form that has words comes to its end
and lists exactly the words of least length, each once and in lexicographic order. -/
theorem shortestWords_exact (hg : g.Built) (hnormal : g.isNormal = true)
    (hlanguage : ∃ w, g.InLanguage w) :
    ∃ n, ∀ rounds ≥ n,
      (g.shortestWords .never rounds).ended = true ∧
      (g.shortestWords .never rounds).value.Nodup ∧
      (g.shortestWords .never rounds).value.Pairwise (fun u v => Form.before u v = true) ∧
      ∀ w, w ∈ (g.shortestWords .never rounds).value ↔
        g.InLanguage w ∧ ∀ v, g.InLanguage v → w.length ≤ v.length := by
  obtain ⟨v, hv⟩ := hlanguage
  obtain ⟨n, hn⟩ := exists_shortestWords hg.admissible hnormal ⟨v, inLanguage_iff_yields.1 hv⟩
  refine ⟨n, fun rounds hrounds => ?_⟩
  obtain ⟨hended, hsorted, hmem⟩ := hn rounds hrounds
  refine ⟨hended, nodup_of_pairwise_before hsorted, hsorted, fun w => ?_⟩
  rw [hmem, shortest_start_iff]

/-- A grammar in normal form: one nonterminal has a terminal besides two symbols, one has no
terminal, and one stands in a body of the start symbol but yields nothing. -/
def lopsided : Grammar :=
  ⟨'S', .ofList [⟨'S', ['A', 'B']⟩, ⟨'S', ['D', 'A']⟩, ⟨'A', ['a']⟩, ⟨'A', ['B', 'B']⟩,
    ⟨'B', ['C', 'C']⟩, ⟨'C', ['a']⟩, ⟨'C', ['b']⟩, ⟨'D', ['D', 'D']⟩]⟩

lemma built_lopsided : lopsided.Built :=
  @Built.rules _ 'S' [('S', [['A', 'B'], ['D', 'A']]), ('A', [['a'], ['B', 'B']]),
    ('B', [['C', 'C']]), ('C', [['a'], ['b']]), ('D', [['D', 'D']])] rfl

lemma exists_inLanguage_lopsided : ∃ w, lopsided.InLanguage w := by
  have hstart : lopsided.start ∈ lopsided.generating := by decide +kernel
  obtain ⟨w, hw⟩ := exists_yields_of_mem_generating built_lopsided.admissible hstart
  exact ⟨w, inLanguage_iff_yields.2 hw⟩

theorem shortestWords_lopsided :
    lopsided.Built ∧ lopsided.isNormal = true ∧ (∃ w, lopsided.InLanguage w) ∧
      ∃ n, ∀ rounds ≥ n,
        (lopsided.shortestWords .never rounds).ended = true ∧
        (lopsided.shortestWords .never rounds).value.Nodup ∧
        (lopsided.shortestWords .never rounds).value.Pairwise
          (fun u v => Form.before u v = true) ∧
        ∀ w, w ∈ (lopsided.shortestWords .never rounds).value ↔
          lopsided.InLanguage w ∧ ∀ v, lopsided.InLanguage v → w.length ≤ v.length :=
  have hnormal : lopsided.isNormal = true := by decide +kernel
  ⟨built_lopsided, hnormal, exists_inLanguage_lopsided,
    shortestWords_exact built_lopsided hnormal exists_inLanguage_lopsided⟩

end Grammar

end ContextFree
