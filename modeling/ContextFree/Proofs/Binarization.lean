import ContextFree.Proofs.Built
import ContextFree.Proofs.Naming
import ContextFree.Transform.Binary

/-!
# Splitting keeps the languages

A source is split into its first symbol and a nonterminal for the rest. That nonterminal yields
exactly the rest: if it was taken in this pass, because of its own pieces, and if it is one of the
grammar, because the rest is its only body. The rest is shorter than the body, so sharing it
between sources never runs in a circle (`derives_of_source`).

The main result is `sameWords_of_binarize`.
-/

namespace ContextFree

/-- The account of names after splitting productions, if the nonterminals suffice. -/
def splitNames (names : Names) (ps : List Production) : Option Names :=
  ps.foldlM (fun names p => (splitBody names p.head p.body).2) names

namespace Grammar

variable {g h : Grammar} {names names' : Names} {edits : List Edit} {head : Symbol}
  {body u w : Form} {src q : Production}

/-- What nonterminals are taken for: an end of a body, of at least two symbols. -/
def IsRest (g : Grammar) (rest : Form) : Prop :=
  2 ≤ rest.length ∧ ∃ p ∈ g.productions, rest <:+ p.body

/-- A short source is its own piece; of a longer one, the first symbol is followed by what stands
for the rest. -/
def SplitPiece (names : Names) (src q : Production) : Prop :=
  q.head = src.head ∧ ((src.body.length ≤ 2 ∧ q.body = src.body) ∨
    ∃ s rest v, src.body = s :: rest ∧ 2 ≤ rest.length ∧ q.body = [s, v] ∧ names.Stands v rest)

lemma monotone_splitPiece : g.MonotonePiece g.IsRest SplitPiece := by
  rintro names names' hs hs' hgrows src q ⟨hhead, hshort | ⟨s, rest, v, hsrc, hrest, hq, hv⟩⟩
  · exact ⟨hhead, .inl hshort⟩
  · exact ⟨hhead, .inr ⟨s, rest, v, hsrc, hrest, hq, hv.mono hs hs' hgrows⟩⟩

lemma SplitPiece.length_le (hq : SplitPiece names src q) : q.body.length ≤ 2 := by
  rcases hq with ⟨-, ⟨hlength, hbody⟩ | ⟨s, rest, v, -, -, hbody, -⟩⟩
  · rwa [hbody]
  · simp [hbody]

/-! ## The pass -/

/-- A single piece that takes no name. -/
lemma replaces_singleton (hs : names.Sound g g.IsRest) (hsrc : g.Source names src)
    (hq : SplitPiece names src q) :
    g.Replaces g.IsRest SplitPiece [src] names names [.add q] where
  sound := hs
  grows _ hp := hp
  justified r hr := by
    obtain rfl : r = q := by simpa using hr
    exact ⟨src, hsrc, hq⟩
  covered := by
    rintro r (hr | ⟨hr, hnot⟩)
    · rw [List.mem_singleton.1 hr]
      exact ⟨q, by simp, hq⟩
    · exact absurd hr hnot
  mentioned p hp hnot := absurd hp hnot

/-- A piece with a nonterminal that is taken for the rest, before the rest is split itself. -/
lemma replaces_take {s v : Symbol} {rest : Form} {names₁ : Names}
    (hsrc : g.Source names ⟨head, s :: rest⟩) (hrest : 2 ≤ rest.length)
    (htake : names.take? rest = some (v, names₁))
    (hr : g.Replaces g.IsRest SplitPiece [⟨v, rest⟩] names₁ names' edits) :
    g.Replaces g.IsRest SplitPiece [⟨head, s :: rest⟩] names names'
      (.add ⟨head, [s, v]⟩ :: edits) := by
  have hgiven := Names.given_of_take? htake
  have hgrows : ∀ p ∈ names.given, p ∈ names'.given := by
    intro p hp
    exact hr.grows p (hgiven ▸ List.mem_cons_of_mem _ hp)
  have hv : (⟨v, rest⟩ : Production) ∈ names'.given :=
    hr.grows _ (hgiven ▸ List.mem_cons_self)
  have hpiece : SplitPiece names' ⟨head, s :: rest⟩ ⟨head, [s, v]⟩ :=
    ⟨rfl, .inr ⟨s, rest, v, rfl, hrest, rfl, List.mem_append_left _ hv⟩⟩
  -- a nonterminal that is new is the one taken here or one taken for the rest
  have hnew : ∀ p ∈ names'.given, p ∉ names.given →
      p = ⟨v, rest⟩ ∨ p ∈ names'.given ∧ p ∉ names₁.given := by
    intro p hp hnot
    by_cases heq : p = ⟨v, rest⟩
    · exact .inl heq
    · refine .inr ⟨hp, fun hmem => ?_⟩
      rw [hgiven] at hmem
      rcases List.mem_cons.1 hmem with hmem | hmem
      · exact heq hmem
      · exact hnot hmem
  refine ⟨hr.sound, hgrows, fun q hq => ?_, fun src hsrc' => ?_, fun p hp hnot => ?_⟩
  · rcases List.mem_cons.1 hq with hq | hq
    · obtain rfl : q = ⟨head, [s, v]⟩ := by simpa using hq
      exact ⟨_, hsrc.imp_right (hgrows _), hpiece⟩
    · exact hr.justified q hq
  · rcases hsrc' with hsrc' | ⟨hsrc', hnot⟩
    · rw [List.mem_singleton.1 hsrc']
      exact ⟨_, List.mem_cons_self, hpiece⟩
    · have hcovered := hr.covered src ((hnew src hsrc' hnot).imp_left List.mem_singleton.2)
      obtain ⟨q, hq, hpq⟩ := hcovered
      exact ⟨q, List.mem_cons_of_mem _ hq, hpq⟩
  · rcases hnew p hp hnot with rfl | ⟨-, hnot⟩
    · exact ⟨_, List.mem_cons_self, by simp⟩
    · obtain ⟨q, hq, hpq⟩ := hr.mentioned p hp hnot
      exact ⟨q, List.mem_cons_of_mem _ hq, hpq⟩

lemma splitBody_replaces (hs : names.Sound g g.IsRest) (hsrc : g.Source names ⟨head, body⟩)
    (hpart : ∃ p ∈ g.productions, body <:+ p.body)
    (hsplit : splitBody names head body = (edits, some names')) :
    g.Replaces g.IsRest SplitPiece [⟨head, body⟩] names names' edits := by
  fun_induction splitBody names head body generalizing edits names' with
  | case1 names head s t u rest v hfind =>
    simp only [Prod.mk.injEq, Option.some.injEq] at hsplit
    obtain ⟨rfl, rfl⟩ := hsplit
    refine replaces_singleton hs hsrc ⟨rfl, .inr ⟨s, t :: u :: rest, v, rfl, ?_, rfl, ?_⟩⟩
    · simp
    · exact Names.stands_of_find? hfind
  | case2 names head s t u rest hfind v names₁ htake edits₁ result hrec ih =>
    simp only [Prod.mk.injEq] at hsplit
    obtain ⟨rfl, rfl⟩ := hsplit
    have hpart : ∃ p ∈ g.productions, t :: u :: rest <:+ p.body := by
      obtain ⟨p, hp, hsuffix⟩ := hpart
      exact ⟨p, hp, (List.suffix_cons _ _).trans hsuffix⟩
    have hgood : g.IsRest (t :: u :: rest) := ⟨by simp, hpart⟩
    have hsrc' : g.Source names₁ ⟨v, t :: u :: rest⟩ :=
      .inr (Names.given_of_take? htake ▸ List.mem_cons_self)
    exact replaces_take hsrc (by simp) htake (ih (hs.take? hgood htake) hsrc' hpart hrec)
  | case3 => simp at hsplit
  | case4 names head body hshort =>
    simp only [Prod.mk.injEq, Option.some.injEq] at hsplit
    obtain ⟨rfl, rfl⟩ := hsplit
    refine replaces_singleton hs hsrc ⟨rfl, .inl ⟨?_, rfl⟩⟩
    -- three symbols would have been split
    match body, hshort with
    | [], _ => simp
    | [_], _ => simp
    | [_, _], _ => simp
    | s :: t :: u :: rest, hshort => exact absurd rfl (hshort s t u rest)

lemma splitProductions_replaces {ps : List Production} (hs : names.Sound g g.IsRest)
    (hps : ∀ p ∈ ps, p ∈ g.productions)
    (hsplit : splitProductions names ps = (edits, none)) :
    ∃ names', splitNames names ps = some names' ∧
      g.Replaces g.IsRest SplitPiece ps names names' edits := by
  induction ps generalizing names edits with
  | nil =>
    simp only [splitProductions, Prod.mk.injEq, and_true] at hsplit
    rw [← hsplit]
    exact ⟨names, rfl, .of_not_add hs fun q => List.not_mem_nil⟩
  | cons p ps ih =>
    rw [splitProductions] at hsplit
    have hp : p ∈ g.productions := hps p (by simp)
    split at hsplit
    · rename_i edits₁ names₁ hbody
      have hfirst : g.Replaces g.IsRest SplitPiece [p] names names₁ edits₁ :=
        splitBody_replaces hs (.inl hp) ⟨p, hp, List.suffix_rfl⟩ hbody
      rcases hrest : splitProductions names₁ ps with ⟨more, failure⟩
      rw [hrest] at hsplit
      simp only [Prod.mk.injEq] at hsplit
      obtain ⟨rfl, rfl⟩ := hsplit
      obtain ⟨names₂, hnames, hsecond⟩ := ih hfirst.sound (fun q hq => hps q (by simp [hq])) hrest
      have hremove : g.Replaces g.IsRest SplitPiece [] names names [.remove p] :=
        .of_not_add hs (by simp)
      refine ⟨names₂, ?_, hremove.append monotone_splitPiece
        (hfirst.append monotone_splitPiece hsecond)⟩
      rw [splitNames, List.foldlM_cons, hbody]
      exact hnames
    · simp at hsplit

lemma splitBody_adds {e : Edit} (he : e ∈ (splitBody names head body).1) :
    ∃ q, e = Edit.add q := by
  fun_induction splitBody names head body with
  | case1 => exact ⟨_, List.mem_singleton.1 he⟩
  | case2 names head s t u rest hfind v names₁ htake edits result hrec ih =>
    rcases List.mem_cons.1 he with he | he
    · exact ⟨_, he⟩
    · rw [hrec] at ih
      exact ih he
  | case3 => exact absurd he List.not_mem_nil
  | case4 => exact ⟨_, List.mem_singleton.1 he⟩

lemma splitProductions_removing {ps : List Production}
    (hsplit : splitProductions names ps = (edits, none)) : Edit.Removing ps edits := by
  induction ps generalizing names edits with
  | nil =>
    simp only [splitProductions, Prod.mk.injEq, and_true] at hsplit
    rw [← hsplit]
    exact .of_adds (by simp)
  | cons p ps ih =>
    rw [splitProductions] at hsplit
    split at hsplit
    · rename_i edits₁ names₁ hbody
      have hadds : Edit.Removing [] edits₁ := .of_adds fun e he => by
        exact splitBody_adds (by rw [hbody]; exact he)
      rcases hrest : splitProductions names₁ ps with ⟨more, failure⟩
      rw [hrest] at hsplit
      simp only [Prod.mk.injEq] at hsplit
      obtain ⟨rfl, rfl⟩ := hsplit
      exact (Edit.Removing.singleton p).append (hadds.append (ih hrest))
    · simp at hsplit

lemma mem_longProductions {p : Production} :
    p ∈ g.longProductions ↔ p ∈ g.productions ∧ 2 < p.body.length := by
  simp [longProductions]

/-- The pass rewrites the grammar by splitting. -/
theorem binarize_rewritten (hh : g.binarize.value = .ok h) :
    ∃ names, splitNames (Names.ofGrammar g) g.longProductions = some names ∧
      g.Rewritten h g.IsRest SplitPiece names := by
  have hempty : g.longProductions = [] →
      splitProductions (Names.ofGrammar g) g.longProductions = ([], none) := by
    intro hnone
    rw [hnone]
    rfl
  obtain ⟨edits, hsplit, rfl⟩ := exists_plan_of_pass hempty hh
  have hps : ∀ p ∈ g.longProductions, p ∈ g.productions :=
    fun p hp => (mem_longProductions.1 hp).1
  have hs := Names.sound_ofGrammar g g.IsRest
  obtain ⟨names, hnames, hr⟩ := splitProductions_replaces hs hps hsplit
  -- a production that is not long is its own piece, and no piece is long
  refine ⟨names, hnames, hr.rewritten (splitProductions_removing hsplit)
    (fun p hp => ⟨rfl, .inl ⟨?_, rfl⟩⟩) fun src q _ hq => ?_⟩
  · simpa using hp
  · simpa using hq.length_le

/-! ## Languages -/

lemma IsRest.plain (hg : g.Admissible) (hrest : g.IsRest body) :
    ∀ s ∈ body, s.isTerminal = true ∨ s ∈ g.nonterminals := by
  obtain ⟨-, p, hp, hsuffix⟩ := hrest
  intro s hs
  exact hg.plain hp s (hsuffix.subset hs)

/-- A piece, with fresh nonterminals read as what they stand for, yields only what its source
yields. -/
lemma SplitPiece.yields (hg : g.Admissible) (hs : names.Sound g g.IsRest)
    (hsrc : g.Source names src) (hq : SplitPiece names src q)
    (hy : g.Yields (q.body.flatMap names.meaning) w) : g.Yields src.body w := by
  have hplain : ∀ s ∈ src.body, s.isTerminal = true ∨ s ∈ g.nonterminals :=
    hsrc.plain hg hs fun _ hrest => hrest.plain hg
  rcases hq with ⟨-, ⟨-, hbody⟩ | ⟨s, rest, v, hsrc', -, hbody, hv⟩⟩
  · rw [hbody, hs.flatMap_meaning hplain] at hy
    exact hy
  · have hmeaning : names.meaning s = [s] := hs.meaning_eq_self (hplain s (by simp [hsrc']))
    rw [hbody, List.flatMap_cons, List.flatMap_singleton, hmeaning] at hy
    obtain ⟨x, y, rfl, hx, hy⟩ := yields_append_iff.1 hy
    rw [hsrc']
    exact hx.append ((hs.yields_meaning hg hv).1 hy)

/-- In the result, the head of a source derives the body. -/
lemma derives_of_source (hr : g.Rewritten h g.IsRest SplitPiece names)
    (hsrc : g.Source names src) : h.Derives [src.head] src.body := by
  -- by induction on the length: what stands for the rest is a shorter source
  induction hn : src.body.length using Nat.strongRecOn generalizing src with
  | ind n ih =>
    obtain ⟨q, hq, hhead, hpiece⟩ := hr.covered src hsrc
    rw [← hhead]
    refine (derives_body hq).trans ?_
    rcases hpiece with ⟨-, hbody⟩ | ⟨s, rest, v, hsrc', -, hbody, hv⟩
    · rw [hbody]
      exact .refl _
    · have hrest : g.Source names ⟨v, rest⟩ := source_of_stands hr.sound hv
      have hshorter : rest.length < n := by
        rw [← hn, hsrc', List.length_cons]
        omega
      rw [hbody, hsrc']
      exact (ih rest.length hshorter hrest rfl).append_left [s]

/-- No language of the grammar changes. -/
theorem yields_binarize (hg : g.Admissible) (hh : g.binarize.value = .ok h)
    (hplain : ∀ s ∈ u, s.isTerminal = true ∨ s ∈ g.nonterminals) :
    h.Yields u w ↔ g.Yields u w := by
  obtain ⟨names, -, hr⟩ := binarize_rewritten hh
  refine hr.yields_iff (fun src q hsrc hq => ⟨hq.1, fun x hx => ?_⟩) (fun p hp => ?_) hplain
  · exact hq.yields hg hr.sound hsrc hx
  · exact derives_of_source hr (.inl hp)

lemma start_binarize (hh : g.binarize.value = .ok h) : h.start = g.start := by
  obtain ⟨names, -, hr⟩ := binarize_rewritten hh
  exact hr.start

/-- No body of the result is longer than two symbols. -/
theorem length_le_of_binarize (hh : g.binarize.value = .ok h) (hq : q ∈ h.productions) :
    q.body.length ≤ 2 := by
  obtain ⟨names, -, hr⟩ := binarize_rewritten hh
  obtain ⟨src, -, hpiece⟩ := hr.justified q hq
  exact hpiece.length_le

lemma Admissible.binarize (hg : g.Admissible) (hh : g.binarize.value = .ok h) :
    h.Admissible := by
  obtain ⟨names, -, hr⟩ := binarize_rewritten hh
  refine hr.admissible hg fun src q hsrc hq => ⟨hq.1, fun t ht => ?_⟩
  have hsource := hsrc.isAdmissible hg hr.sound fun _ hrest => hrest.plain hg
  rcases hq with ⟨-, ⟨-, hbody⟩ | ⟨s, rest, v, hsrc', -, hbody, hv⟩⟩
  · exact hsource t (hbody ▸ ht)
  · rw [hbody, List.mem_cons, List.mem_singleton] at ht
    rcases ht with rfl | rfl
    · exact hsource t (by simp [hsrc'])
    · rw [Symbol.isAdmissible, hv.isNonterminal hg hr.sound, Bool.true_or]

/-! ## Main result -/

/-- Splitting leaves no body of more than two symbols, and every nonterminal of the grammar derives
the same words as before. -/
theorem sameWords_of_binarize (hg : g.Built) (hh : g.binarize.value = .ok h) :
    (∀ p ∈ h.productions, p.body.length ≤ 2) ∧
    ∀ a ∈ g.nonterminals, ∀ w, h.Generates a w ↔ g.Generates a w := by
  refine ⟨fun p => length_le_of_binarize hh, fun a ha w => ?_⟩
  rw [generates_iff_yields, generates_iff_yields]
  exact yields_binarize hg.admissible hh (plain_of_mem_nonterminals ha)

/-- A grammar in which the start symbol has a long body as its only one, which other bodies end in.
Its own rest is shared as well, by bodies in which the nonterminals come back to themselves. -/
def sharing : Grammar :=
  ⟨'S', .ofList [⟨'S', ['B', 'C', 'D']⟩, ⟨'A', ['a', 'B', 'C', 'D']⟩, ⟨'A', ['c', 'C', 'D']⟩,
    ⟨'B', ['b']⟩, ⟨'C', ['c', 'A', 'C', 'D']⟩, ⟨'C', ['S']⟩, ⟨'C', []⟩, ⟨'D', ['A', 'C', 'D']⟩,
    ⟨'D', ['d']⟩]⟩

/-- The same in short bodies. The start symbol stands for its own body in that of `A`. -/
def shared : Grammar :=
  ⟨'S', .ofList [⟨'S', ['B', 'E']⟩, ⟨'A', ['a', 'S']⟩, ⟨'A', ['c', 'E']⟩, ⟨'B', ['b']⟩,
    ⟨'C', ['c', 'F']⟩, ⟨'C', ['S']⟩, ⟨'C', []⟩, ⟨'D', ['A', 'E']⟩, ⟨'D', ['d']⟩,
    ⟨'E', ['C', 'D']⟩, ⟨'F', ['A', 'E']⟩]⟩

lemma built_sharing : sharing.Built :=
  @Built.rules _ 'S' [('S', [['B', 'C', 'D']]), ('A', [['a', 'B', 'C', 'D'], ['c', 'C', 'D']]),
    ('B', [['b']]), ('C', [['c', 'A', 'C', 'D'], ['S'], []]), ('D', [['A', 'C', 'D'], ['d']])] rfl

lemma binarize_sharing : sharing.binarize.value = .ok shared := by decide +kernel

theorem sameWords_shared :
    sharing.Built ∧ sharing.binarize.value = .ok shared ∧
      (∀ p ∈ shared.productions, p.body.length ≤ 2) ∧
      ∀ a ∈ sharing.nonterminals, ∀ w, shared.Generates a w ↔ sharing.Generates a w :=
  ⟨built_sharing, binarize_sharing, sameWords_of_binarize built_sharing binarize_sharing⟩

end Grammar

end ContextFree
