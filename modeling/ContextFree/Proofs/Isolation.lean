import ContextFree.Proofs.Built
import ContextFree.Proofs.EpsilonFree
import ContextFree.Proofs.Naming
import ContextFree.Proofs.Reduction
import ContextFree.Transform.Isolate
import Mathlib.Data.List.Forall2

/-!
# Isolating terminals keeps the languages

A body of two symbols with a terminal among them is replaced symbol by symbol, each terminal by
a nonterminal whose only body it is. The nonterminals that are taken occur in the new body, so
no useless nonterminal comes up, and none of them is the start symbol if that one vanishes: a
start symbol with an empty body has no other body as its only one.

The main result is `sameWords_of_isolateTerminals`.
-/

namespace ContextFree

/-- Whether a body has two symbols and a terminal among them. -/
def Production.isMixed (p : Production) : Bool :=
  p.body.length == 2 && p.body.any Symbol.isTerminal

/-- The account of names after isolating the terminals of productions, if nonterminals suffice. -/
def isolateNames (names : Names) (ps : List Production) : Option Names :=
  ps.foldlM (fun names p => (isolateBody names p.body).2.toOption.map Prod.fst) names

/-- What nonterminals are taken for: a single terminal. -/
def Form.IsLetter (body : Form) : Prop := ∃ t, body = [t] ∧ t.isTerminal = true

/-- What a symbol of a mixed body is replaced by. -/
def Names.Isolates (names : Names) (s v : Symbol) : Prop :=
  (s.isTerminal = true ∧ names.Stands v [s]) ∨ (s.isTerminal = false ∧ v = s)

namespace Grammar

variable {g h : Grammar} {names names' : Names} {edits : List Edit} {a : Symbol}
  {body body' u w : Form} {src q : Production}

/-- A source that is not mixed is its own piece; in a mixed one, every symbol is replaced. -/
def IsolatePiece (names : Names) (src q : Production) : Prop :=
  q.head = src.head ∧ ((src.isMixed = false ∧ q.body = src.body) ∨
    (src.isMixed = true ∧ List.Forall₂ names.Isolates src.body q.body))

lemma isolates_mono (hs : names.Sound g Form.IsLetter) (hs' : names'.Sound g Form.IsLetter)
    (hgrows : ∀ p ∈ names.given, p ∈ names'.given) {s v : Symbol} (hv : names.Isolates s v) :
    names'.Isolates s v :=
  hv.imp_left fun h => ⟨h.1, h.2.mono hs hs' hgrows⟩

lemma monotone_isolatePiece : g.MonotonePiece Form.IsLetter IsolatePiece := by
  rintro names names' hs hs' hgrows src q ⟨hhead, hplain | ⟨hmixed, hbody⟩⟩
  · exact ⟨hhead, .inl hplain⟩
  · exact ⟨hhead, .inr ⟨hmixed, hbody.imp fun _ _ => isolates_mono hs hs' hgrows⟩⟩

/-! ## The pass -/

/-- What the pass makes of a body, with the edits for the nonterminals in it. -/
structure IsolatedBody (g : Grammar) (names names' : Names) (body body' : Form)
    (edits : List Edit) : Prop where
  sound : names'.Sound g Form.IsLetter
  grows : ∀ p ∈ names.given, p ∈ names'.given
  isolates : List.Forall₂ names'.Isolates body body'
  added : ∀ e ∈ edits, ∃ v t, e = Edit.add ⟨v, [t]⟩ ∧ names'.Stands v [t]
  taken : ∀ p ∈ names'.given, p ∉ names.given → Edit.add p ∈ edits ∧ p.head ∈ body'

/-- A symbol that is not a terminal stays. -/
lemma IsolatedBody.keep {s : Symbol} (hs : s.isTerminal = false)
    (hbody : g.IsolatedBody names names' body body' edits) :
    g.IsolatedBody names names' (s :: body) (s :: body') edits where
  sound := hbody.sound
  grows := hbody.grows
  isolates := .cons (.inr ⟨hs, rfl⟩) hbody.isolates
  added := hbody.added
  taken p hp hnot := (hbody.taken p hp hnot).imp_right (List.mem_cons_of_mem _)

/-- A terminal is replaced by what stands for it. -/
lemma IsolatedBody.replace {s v : Symbol} {names₁ : Names} (hs : s.isTerminal = true)
    (hsound : names.Sound g Form.IsLetter) (hv : names.get? [s] = some (v, names₁))
    (hbody : g.IsolatedBody names₁ names' body body' edits) :
    g.IsolatedBody names names' (s :: body) (v :: body') (.add ⟨v, [s]⟩ :: edits) := by
  obtain ⟨hsound₁, hgrows, hstands, hnew⟩ := hsound.get? ⟨s, rfl, hs⟩ hv
  have hstands' : names'.Stands v [s] := hstands.mono hsound₁ hbody.sound hbody.grows
  refine ⟨hbody.sound, fun p hp => hbody.grows p (hgrows p hp), .cons (.inl ⟨hs, hstands'⟩)
    hbody.isolates, fun e he => ?_, fun p hp hnot => ?_⟩
  · rcases List.mem_cons.1 he with rfl | he
    · exact ⟨v, s, rfl, hstands'⟩
    · exact hbody.added e he
  · by_cases hmid : p ∈ names₁.given
    · rw [hnew p hmid hnot]
      exact ⟨List.mem_cons_self, List.mem_cons_self⟩
    · obtain ⟨hadd, hmem⟩ := hbody.taken p hp hmid
      exact ⟨List.mem_cons_of_mem _ hadd, List.mem_cons_of_mem _ hmem⟩

lemma isolateBody_isolated (hs : names.Sound g Form.IsLetter)
    (hbody : isolateBody names body = (edits, .ok (names', body'))) :
    g.IsolatedBody names names' body body' edits := by
  induction body generalizing names edits body' with
  | nil =>
    simp only [isolateBody, Prod.mk.injEq, Except.ok.injEq] at hbody
    obtain ⟨rfl, rfl, rfl⟩ := hbody
    exact ⟨hs, fun p hp => hp, .nil, by simp, fun p hp hnot => absurd hp hnot⟩
  | cons s rest ih =>
    rw [isolateBody] at hbody
    split at hbody
    · rename_i hterminal
      split at hbody
      · rename_i v names₁ hv
        rcases hrest : isolateBody names₁ rest with ⟨edits₁, _ | ⟨names₂, body₂⟩⟩
        · simp [hrest, Except.map] at hbody
        · simp only [hrest, Except.map, Prod.mk.injEq, Except.ok.injEq] at hbody
          obtain ⟨rfl, rfl, rfl⟩ := hbody
          have hsound₁ := (hs.get? ⟨s, rfl, hterminal⟩ hv).1
          exact (ih hsound₁ hrest).replace hterminal hs hv
      · simp at hbody
    · rename_i hterminal
      rw [Bool.not_eq_true] at hterminal
      rcases hrest : isolateBody names rest with ⟨edits₁, _ | ⟨names₂, body₂⟩⟩
      · simp [hrest, Except.map] at hbody
      · simp only [hrest, Except.map, Prod.mk.injEq, Except.ok.injEq] at hbody
        obtain ⟨rfl, rfl, rfl⟩ := hbody
        exact (ih hs hrest).keep hterminal

/-- A single terminal is not mixed. -/
lemma isMixed_singleton (v t : Symbol) : (⟨v, [t]⟩ : Production).isMixed = false := rfl

/-- A mixed production is replaced by one piece, with the pieces of what is taken for it. -/
lemma IsolatedBody.replaces (hmixed : src.isMixed = true) (hsrc : src ∈ g.productions)
    (hbody : g.IsolatedBody names names' src.body body' edits) :
    g.Replaces Form.IsLetter IsolatePiece [src] names names'
      (edits ++ [.remove src, .add ⟨src.head, body'⟩]) := by
  have hpiece : IsolatePiece names' src ⟨src.head, body'⟩ :=
    ⟨rfl, .inr ⟨hmixed, hbody.isolates⟩⟩
  refine ⟨hbody.sound, hbody.grows, fun q hq => ?_, fun p hp => ?_, fun p hp hnot => ?_⟩
  · rcases List.mem_append.1 hq with hq | hq
    · obtain ⟨v, t, heq, hv⟩ := hbody.added _ hq
      rw [Edit.add.injEq] at heq
      subst heq
      exact ⟨_, source_of_stands hbody.sound hv, rfl, .inl ⟨isMixed_singleton v t, rfl⟩⟩
    · obtain rfl : q = ⟨src.head, body'⟩ := by simpa using hq
      exact ⟨src, .inl hsrc, hpiece⟩
  · rcases hp with hp | ⟨hp, hnot⟩
    · rw [List.mem_singleton.1 hp]
      exact ⟨_, by simp, hpiece⟩
    · obtain ⟨t, ht, -⟩ := hbody.sound.good p hp
      have hplain : p.isMixed = false := by simp [Production.isMixed, ht]
      exact ⟨p, List.mem_append_left _ (hbody.taken p hp hnot).1, rfl, .inl ⟨hplain, rfl⟩⟩
  · exact ⟨⟨src.head, body'⟩, by simp, (hbody.taken p hp hnot).2⟩

/-- What one production after the other is replaced by, and that nothing else is removed. -/
lemma isolateProductions_replaces {ps : List Production} (hs : names.Sound g Form.IsLetter)
    (hps : ∀ p ∈ ps, p ∈ g.productions ∧ p.isMixed = true)
    (hisolate : isolateProductions names ps = (edits, none)) :
    ∃ names', isolateNames names ps = some names' ∧
      g.Replaces Form.IsLetter IsolatePiece ps names names' edits ∧ Edit.Removing ps edits := by
  induction ps generalizing names edits with
  | nil =>
    simp only [isolateProductions, Prod.mk.injEq, and_true] at hisolate
    rw [← hisolate]
    exact ⟨names, rfl, .of_not_add hs fun q => List.not_mem_nil, .of_adds (by simp)⟩
  | cons p ps ih =>
    rw [isolateProductions] at hisolate
    obtain ⟨hp, hmixed⟩ := hps p (by simp)
    split at hisolate
    · rename_i edits₁ names₁ body hbody
      have hisolated := isolateBody_isolated hs hbody
      rcases hrest : isolateProductions names₁ ps with ⟨more, failure⟩
      rw [hrest] at hisolate
      simp only [Prod.mk.injEq] at hisolate
      obtain ⟨rfl, rfl⟩ := hisolate
      obtain ⟨names₂, hnames, hsecond, hremoving⟩ :=
        ih hisolated.sound (fun q hq => hps q (by simp [hq])) hrest
      have hadds : Edit.Removing [] edits₁ := .of_adds fun e he => by
        obtain ⟨v, t, rfl, -⟩ := hisolated.added e he
        exact ⟨_, rfl⟩
      have hadd : Edit.Removing [] [.add ⟨p.head, body⟩] := .of_adds (by simp)
      refine ⟨names₂, ?_, ?_, ?_⟩
      · rw [isolateNames, List.foldlM_cons, hbody]
        exact hnames
      · simpa using (hisolated.replaces hmixed hp).append monotone_isolatePiece hsecond
      · simpa using hadds.append ((Edit.Removing.singleton p).append (hadd.append hremoving))
    · simp at hisolate

/-- What replaces a symbol is not a terminal. -/
lemma isTerminal_of_isolates (hg : g.Admissible) (hs : names.Sound g Form.IsLetter) {s v : Symbol}
    (hv : names.Isolates s v) : v.isTerminal = false := by
  rcases hv with ⟨-, hv⟩ | ⟨hs, rfl⟩
  · exact Symbol.isTerminal_eq_false (hv.isNonterminal hg hs)
  · exact hs

lemma exists_of_mem_isolated (hbody : List.Forall₂ names.Isolates body body') {v : Symbol}
    (hv : v ∈ body') : ∃ s ∈ body, names.Isolates s v := by
  induction hbody with
  | nil => exact absurd hv List.not_mem_nil
  | cons hsv _ ih =>
    rcases List.mem_cons.1 hv with rfl | hv
    · exact ⟨_, List.mem_cons_self, hsv⟩
    · obtain ⟨s, hs, hsv⟩ := ih hv
      exact ⟨s, List.mem_cons_of_mem _ hs, hsv⟩

/-- In a piece no terminal has company. -/
lemma IsolatePiece.isMixed_eq_false (hg : g.Admissible) (hs : names.Sound g Form.IsLetter)
    (hq : IsolatePiece names src q) : q.isMixed = false := by
  rcases hq with ⟨-, ⟨hplain, hbody⟩ | ⟨-, hbody⟩⟩
  · unfold Production.isMixed at hplain ⊢
    rwa [hbody]
  · have hnone : q.body.any Symbol.isTerminal = false := by
      rw [List.any_eq_false]
      intro v hv
      obtain ⟨s, -, hsv⟩ := exists_of_mem_isolated hbody hv
      simp [isTerminal_of_isolates hg hs hsv]
    rw [Production.isMixed, hnone, Bool.and_false]

lemma mem_mixedProductions {p : Production} :
    p ∈ g.mixedProductions ↔ p ∈ g.productions ∧ p.isMixed = true := by
  rw [mixedProductions, List.mem_filter, mem_listing]
  rfl

/-- The pass rewrites the grammar by isolating terminals. -/
theorem isolateTerminals_rewritten (hg : g.Admissible) (hh : g.isolateTerminals.value = .ok h) :
    ∃ names, isolateNames (Names.ofGrammar g) g.mixedProductions = some names ∧
      g.Rewritten h Form.IsLetter IsolatePiece names := by
  have hempty : g.mixedProductions = [] →
      isolateProductions (Names.ofGrammar g) g.mixedProductions = ([], none) := by
    intro hnone
    rw [hnone]
    rfl
  obtain ⟨edits, hisolate, rfl⟩ := exists_plan_of_pass hempty hh
  have hs := Names.sound_ofGrammar g Form.IsLetter
  obtain ⟨names, hnames, hr, hremoving⟩ :=
    isolateProductions_replaces hs (fun p => mem_mixedProductions.1) hisolate
  have hself : ∀ p : Production, p.isMixed = false → IsolatePiece names p p :=
    fun p hp => ⟨rfl, .inl ⟨hp, rfl⟩⟩
  exact ⟨names, hnames,
    hr.rewritten hremoving hself fun src q _ hq => hq.isMixed_eq_false hg hr.sound⟩

/-! ## Languages -/

lemma isLetter_plain (hbody : Form.IsLetter body) :
    ∀ s ∈ body, s.isTerminal = true ∨ s ∈ g.nonterminals := by
  obtain ⟨t, rfl, ht⟩ := hbody
  intro s hs
  rw [List.mem_singleton.1 hs]
  exact .inl ht

/-- Read as what they stand for, the symbols of a new body yield only what those of the old one
yield. -/
lemma yields_of_isolates (hg : g.Admissible) (hs : names.Sound g Form.IsLetter)
    (hbody : List.Forall₂ names.Isolates body body')
    (hplain : ∀ s ∈ body, s.isTerminal = true ∨ s ∈ g.nonterminals)
    (hy : g.Yields (body'.flatMap names.meaning) w) : g.Yields body w := by
  induction hbody generalizing w with
  | nil => exact hy
  | @cons s v body body' hv _ ih =>
    rw [List.flatMap_cons] at hy
    obtain ⟨x, y, rfl, hx, hy⟩ := yields_append_iff.1 hy
    have hsymbol : g.Yields [s] x := by
      rcases hv with ⟨-, hv⟩ | ⟨-, rfl⟩
      · exact (hs.yields_meaning hg hv).1 hx
      · rwa [hs.meaning_eq_self (hplain v (by simp))] at hx
    exact hsymbol.append (ih (fun t ht => hplain t (List.mem_cons_of_mem _ ht)) hy)

lemma IsolatePiece.yields (hg : g.Admissible) (hs : names.Sound g Form.IsLetter)
    (hsrc : g.Source names src) (hq : IsolatePiece names src q)
    (hy : g.Yields (q.body.flatMap names.meaning) w) : g.Yields src.body w := by
  have hplain := hsrc.plain hg hs fun _ hletter => isLetter_plain hletter
  rcases hq with ⟨-, ⟨-, hbody⟩ | ⟨-, hbody⟩⟩
  · rw [hbody, hs.flatMap_meaning hplain] at hy
    exact hy
  · exact yields_of_isolates hg hs hbody hplain hy

/-- A source that is not mixed is a production of the result. -/
lemma mem_of_source (hr : g.Rewritten h Form.IsLetter IsolatePiece names)
    (hsrc : g.Source names src) (hplain : src.isMixed = false) : src ∈ h.productions := by
  obtain ⟨⟨c, body⟩, hq, hhead, hpiece⟩ := hr.covered src hsrc
  obtain rfl : c = src.head := hhead
  rcases hpiece with ⟨-, hbody⟩ | ⟨hmixed, -⟩
  · obtain rfl : body = src.body := hbody
    exact hq
  · rw [hplain] at hmixed
    contradiction

/-- What stands for a terminal has it as a body in the result. -/
lemma mem_of_stands (hr : g.Rewritten h Form.IsLetter IsolatePiece names) {v t : Symbol}
    (hv : names.Stands v [t]) : (⟨v, [t]⟩ : Production) ∈ h.productions :=
  mem_of_source hr (source_of_stands hr.sound hv) (isMixed_singleton v t)

lemma derives_of_isolates (hr : g.Rewritten h Form.IsLetter IsolatePiece names)
    (hbody : List.Forall₂ names.Isolates body body') : h.Derives body' body := by
  induction hbody with
  | nil => exact .refl _
  | @cons s v body body' hv _ ih =>
    have hsymbol : h.Derives [v] [s] := by
      rcases hv with ⟨-, hv⟩ | ⟨-, rfl⟩
      · exact derives_body (mem_of_stands hr hv)
      · exact .refl _
    exact hsymbol.append ih

/-- In the result, a piece derives the body of its source. -/
lemma IsolatePiece.derives (hr : g.Rewritten h Form.IsLetter IsolatePiece names)
    (hq : IsolatePiece names src q) : h.Derives q.body src.body := by
  rcases hq with ⟨-, ⟨-, hbody⟩ | ⟨-, hbody⟩⟩
  · rw [hbody]
    exact .refl _
  · exact derives_of_isolates hr hbody

/-- No language of the grammar changes. -/
theorem yields_isolateTerminals (hg : g.Admissible) (hh : g.isolateTerminals.value = .ok h)
    (hplain : ∀ s ∈ u, s.isTerminal = true ∨ s ∈ g.nonterminals) :
    h.Yields u w ↔ g.Yields u w := by
  obtain ⟨names, -, hr⟩ := isolateTerminals_rewritten hg hh
  refine hr.yields_iff (fun src q hsrc hq => ⟨hq.1, fun x hx => ?_⟩) (fun p hp => ?_) hplain
  · exact hq.yields hg hr.sound hsrc hx
  · obtain ⟨q, hq, hpiece⟩ := hr.covered p (.inl hp)
    rw [← hpiece.1]
    exact (derives_body hq).trans (hpiece.derives hr)

lemma start_isolateTerminals (hg : g.Admissible) (hh : g.isolateTerminals.value = .ok h) :
    h.start = g.start := by
  obtain ⟨names, -, hr⟩ := isolateTerminals_rewritten hg hh
  exact hr.start

/-! ## Shape -/

/-- In a body of two symbols of the result there is no terminal. -/
lemma isMixed_of_isolateTerminals (hg : g.Admissible) (hh : g.isolateTerminals.value = .ok h)
    (hq : q ∈ h.productions) : q.isMixed = false := by
  obtain ⟨names, -, hr⟩ := isolateTerminals_rewritten hg hh
  obtain ⟨src, -, hpiece⟩ := hr.justified q hq
  exact hpiece.isMixed_eq_false hg hr.sound

/-- A production of the result is a source that was not mixed, or two nonterminals take the place
of a mixed body of the grammar. -/
lemma cases_of_isolateTerminals (hr : g.Rewritten h Form.IsLetter IsolatePiece names)
    (hq : q ∈ h.productions) :
    (q ∈ g.productions ∧ q.isMixed = false) ∨ (q ∈ names.given ∧ Form.IsLetter q.body) ∨
      ∃ src ∈ g.productions, q.head = src.head ∧ src.body.length = 2 ∧
        List.Forall₂ names.Isolates src.body q.body := by
  obtain ⟨src, hsrc, hhead, hpiece⟩ := hr.justified q hq
  rcases hpiece with ⟨hplain, hbody⟩ | ⟨hmixed, hbody⟩
  · obtain rfl : q = src := by
      cases q
      cases src
      simp_all
    rcases hsrc with hsrc | hsrc
    · exact .inl ⟨hsrc, hplain⟩
    · exact .inr (.inl ⟨hsrc, hr.sound.good q hsrc⟩)
  · rcases hsrc with hsrc | hsrc
    · rw [Production.isMixed, Bool.and_eq_true, beq_iff_eq] at hmixed
      exact .inr (.inr ⟨src, hsrc, hhead, hmixed.1, hbody⟩)
    · -- what a nonterminal is taken for is not mixed
      obtain ⟨t, ht, -⟩ := hr.sound.good src hsrc
      simp [Production.isMixed, ht] at hmixed

/-- The bodies that do not have two symbols stay as they are, and the grammar's own nonterminals
gain no others. -/
lemma mem_isolateTerminals_iff (hg : g.Admissible) (hh : g.isolateTerminals.value = .ok h)
    (ha : a ∈ g.nonterminals) (hlength : body.length ≠ 2) :
    (⟨a, body⟩ : Production) ∈ h.productions ↔ (⟨a, body⟩ : Production) ∈ g.productions := by
  obtain ⟨names, -, hr⟩ := isolateTerminals_rewritten hg hh
  constructor
  · intro hq
    rcases cases_of_isolateTerminals hr hq with ⟨hq, -⟩ | ⟨hq, -⟩ | ⟨src, -, -, htwo, hbody⟩
    · exact hq
    · -- a nonterminal that was taken is none of the grammar
      exact absurd ha (hr.sound.fresh _ hq).1
    · rw [hbody.length_eq] at htwo
      exact absurd htwo hlength
  · intro hp
    refine mem_of_source hr (.inl hp) ?_
    rw [Production.isMixed, beq_false_of_ne hlength, Bool.false_and]

/-- Nonterminals of the old body stay in the new one. -/
lemma mem_of_isolates (hbody : List.Forall₂ names.Isolates body body') {s : Symbol}
    (hs : s ∈ body) (hn : s.isTerminal = false) : s ∈ body' := by
  induction hbody with
  | nil => exact hs
  | @cons t v body body' htv _ ih =>
    rcases List.mem_cons.1 hs with rfl | hs
    · rcases htv with ⟨ht, -⟩ | ⟨-, rfl⟩
      · rw [hn] at ht
        contradiction
      · exact List.mem_cons_self
    · exact List.mem_cons_of_mem _ (ih hs)

/-- What a nonterminal mentions, it still mentions in the result. -/
lemma path_isolateTerminals (hr : g.Rewritten h Form.IsLetter IsolatePiece names)
    (hpath : Relation.ReflTransGen g.Mentions g.start a) :
    Relation.ReflTransGen h.Mentions h.start a := by
  induction hpath with
  | refl => rw [hr.start]
  | @tail b c _ hbc ih =>
    obtain ⟨body, hp, hc, hn⟩ := hbc
    obtain ⟨⟨b', body'⟩, hq, hhead, hpiece⟩ := hr.covered _ (.inl hp)
    obtain rfl : b' = b := hhead
    refine ih.tail ⟨body', hq, ?_, hn⟩
    rcases hpiece with ⟨-, hbody⟩ | ⟨-, hbody⟩
    · obtain rfl : body' = body := hbody
      exact hc
    · exact mem_of_isolates hbody hc (Symbol.isTerminal_eq_false hn)

/-- A nonterminal is mentioned in productions of the grammar's own nonterminals only, so it is
reached through them. -/
lemma path_of_mem_body (hred : g.Reduced) (hr : g.Rewritten h Form.IsLetter IsolatePiece names)
    (hq : q ∈ h.productions) (ha : a ∈ q.body) (hn : a.isNonterminal = true) :
    Relation.ReflTransGen h.Mentions h.start a := by
  have hhead : q.head ∈ g.nonterminals := by
    rcases cases_of_isolateTerminals hr hq with ⟨hq, -⟩ | ⟨-, t, hbody, ht⟩ | ⟨src, hsrc, heq, -⟩
    · exact head_mem_nonterminals hq
    · rw [hbody, List.mem_singleton] at ha
      rw [ha, Symbol.isNonterminal_eq_false ht] at hn
      contradiction
    · rw [heq]
      exact head_mem_nonterminals hsrc
  exact (path_isolateTerminals hr (hred.reached _ hhead)).tail ⟨q.body, hq, ha, hn⟩

/-- No nonterminal becomes useless, and none that is taken is useless. -/
theorem Reduced.isolateTerminals (hg : g.Admissible) (hred : g.Reduced)
    (hh : g.isolateTerminals.value = .ok h) : h.Reduced := by
  obtain ⟨names, -, hr⟩ := isolateTerminals_rewritten hg hh
  refine ⟨fun q hq => ?_, fun a ha => ?_⟩
  · obtain ⟨src, hsrc, hpiece⟩ := hr.justified q hq
    obtain ⟨w, hw⟩ : ∃ w, g.Yields src.body w := by
      rcases hsrc with hp | hp
      · exact hred.productive src hp
      · obtain ⟨t, hbody, ht⟩ := hr.sound.good src hp
        rw [hbody]
        exact ⟨[t], .terminal ht .nil⟩
    have hplain := hsrc.plain hg hr.sound fun _ hletter => isLetter_plain hletter
    exact ⟨w, .of_derives (hpiece.derives hr) ((yields_isolateTerminals hg hh hplain).2 hw)⟩
  · rcases mem_nonterminals.1 ha with rfl | ⟨q, hq, rfl | ⟨hmem, hn⟩⟩
    · exact .refl
    · obtain ⟨src, hp | hp, hhead, -⟩ := hr.justified q hq
      · rw [hhead]
        exact path_isolateTerminals hr (hred.reached _ (head_mem_nonterminals hp))
      · -- what is taken occurs in the body for which it is taken
        obtain ⟨q', hq', hmem⟩ := hr.mentioned src hp
        rw [hhead]
        exact path_of_mem_body hred hr hq' hmem (hr.sound.fresh src hp).2
    · exact path_of_mem_body hred hr hq hmem hn

/-- A start symbol with an empty body does not come to stand for a terminal. -/
lemma not_stands_start (hs : names.Sound g Form.IsLetter) {t : Symbol}
    (hempty : (⟨g.start, []⟩ : Production) ∈ g.productions) : ¬names.Stands g.start [t] := by
  intro hv
  rcases List.mem_append.1 hv with hv | hv
  · exact (hs.fresh _ hv).1 (mem_nonterminals.2 (.inl rfl))
  · rw [hs.established] at hv
    -- the terminal would be its only body
    have hbody := body_eq_of_mem_soleProductions hv hempty rfl
    simp at hbody

theorem EmptyAtStart.isolateTerminals (hg : g.Admissible) (he : g.EmptyAtStart)
    (hh : g.isolateTerminals.value = .ok h) : h.EmptyAtStart := by
  obtain ⟨names, -, hr⟩ := isolateTerminals_rewritten hg hh
  -- an empty body is none that the pass has made
  have hempty : ∀ q ∈ h.productions, q.body = [] → q ∈ g.productions := by
    intro q hq hbody
    rcases cases_of_isolateTerminals hr hq with ⟨hq, -⟩ | ⟨-, t, ht, -⟩ | ⟨src, -, -, hlength, hsrc⟩
    · exact hq
    · simp [ht] at hbody
    · rw [hsrc.length_eq, hbody] at hlength
      contradiction
  refine ⟨fun q hq hbody => ?_, fun hstart q hq hmem => ?_⟩
  · rw [hr.start]
    exact he.head q (hempty q hq hbody) hbody
  · have hstart := hempty _ hstart rfl
    rw [hr.start] at hstart hmem
    have habsent := he.absent hstart
    rcases cases_of_isolateTerminals hr hq with
      ⟨hq, -⟩ | ⟨-, t, ht, hletter⟩ | ⟨src, hsrc, -, -, hbody⟩
    · exact habsent q hq hmem
    · rw [ht, List.mem_singleton] at hmem
      rw [← hmem, Symbol.isTerminal_eq_false hg.start] at hletter
      contradiction
    · obtain ⟨s, hs, ⟨-, hv⟩ | ⟨-, heq⟩⟩ := exists_of_mem_isolated hbody hmem
      · exact not_stands_start hr.sound hstart hv
      · exact habsent src hsrc (heq ▸ hs)

/-- What replaces a symbol of the grammar is a nonterminal. -/
lemma isNonterminal_of_isolates (hg : g.Admissible) (hs : names.Sound g Form.IsLetter)
    (hsrc : src ∈ g.productions) {s v : Symbol} (hmem : s ∈ src.body) (hv : names.Isolates s v) :
    v.isNonterminal = true := by
  rcases hv with ⟨-, hv⟩ | ⟨hterminal, rfl⟩
  · exact hv.isNonterminal hg hs
  · rcases hg.terminal_or_nonterminal hsrc hmem with ht | hn
    · rw [hterminal] at ht
      contradiction
    · exact hn

/-- A short body that is neither a unit nor mixed is in normal form. -/
lemma isNormalProduction_of_not_mixed (hg : g.Admissible) (he : g.EmptyAtStart)
    (hq : q ∈ g.productions) (hlength : q.body.length ≤ 2) (hunit : q.unit? = none)
    (hmixed : q.isMixed = false) : g.isNormalProduction q = true := by
  have hkind : ∀ s ∈ q.body, s.isTerminal = true ∨ s.isNonterminal = true :=
    fun s hs => hg.terminal_or_nonterminal hq hs
  unfold isNormalProduction
  match hbody : q.body with
  | [] => exact decide_eq_true (he.head q hq hbody)
  | [s] =>
    rcases hkind s (by simp [hbody]) with ht | hn
    · exact ht
    · rw [Production.unit?_eq_some_iff.2 ⟨hbody, hn⟩] at hunit
      contradiction
  | [s, t] =>
    simp only [Production.isMixed, hbody, List.length_cons, List.length_nil, beq_self_eq_true,
      Bool.true_and, List.any_cons, List.any_nil, Bool.or_false, Bool.or_eq_false_iff] at hmixed
    have hs := (hkind s (by simp [hbody])).resolve_left (by simp [hmixed.1])
    have ht := (hkind t (by simp [hbody])).resolve_left (by simp [hmixed.2])
    exact Bool.and_eq_true_iff.2 ⟨hs, ht⟩
  | _ :: _ :: _ :: _ =>
    simp only [hbody, List.length_cons] at hlength
    omega

/-- A grammar with short bodies and without unit productions comes into normal form. -/
theorem isNormal_isolateTerminals (hg : g.Admissible) (he : g.EmptyAtStart)
    (hlength : ∀ p ∈ g.productions, p.body.length ≤ 2)
    (hunit : ∀ p ∈ g.productions, p.unit? = none)
    (hh : g.isolateTerminals.value = .ok h) : h.isNormal = true := by
  obtain ⟨names, -, hr⟩ := isolateTerminals_rewritten hg hh
  have hsame : ∀ q, h.isNormalProduction q = g.isNormalProduction q := by
    intro q
    simp only [isNormalProduction, hr.start]
  refine List.all_eq_true.2 fun q hq => ?_
  rw [hsame]
  rcases cases_of_isolateTerminals hr hq with ⟨hq, hplain⟩ | ⟨-, t, hbody, ht⟩ |
    ⟨src, hsrc, -, htwo, hbody⟩
  · exact isNormalProduction_of_not_mixed hg he hq (hlength q hq) (hunit q hq) hplain
  · simpa [isNormalProduction, hbody] using ht
  · have hn : ∀ v ∈ q.body, v.isNonterminal = true := by
      intro v hv
      obtain ⟨s, hs, hsv⟩ := exists_of_mem_isolated hbody hv
      exact isNonterminal_of_isolates hg hr.sound hsrc hs hsv
    rw [hbody.length_eq, List.length_eq_two] at htwo
    obtain ⟨v, v', hv⟩ := htwo
    simp [isNormalProduction, hv, hn v (by simp [hv]), hn v' (by simp [hv])]

/-! ## Main result -/

/-- Isolating terminals leaves none in a body of two symbols and keeps all other bodies of the
grammar's nonterminals, and each of these derives the same words as before. -/
theorem sameWords_of_isolateTerminals (hg : g.Built) (hh : g.isolateTerminals.value = .ok h) :
    (∀ p ∈ h.productions, p.body.length = 2 → ∀ s ∈ p.body, s.isTerminal = false) ∧
    (∀ a ∈ g.nonterminals, ∀ body : Form, body.length ≠ 2 →
      (h.has a body = true ↔ g.has a body = true)) ∧
    ∀ a ∈ g.nonterminals, ∀ w, h.Generates a w ↔ g.Generates a w := by
  refine ⟨fun p hp htwo s hs => ?_, fun a ha body hlength => ?_, fun a ha w => ?_⟩
  · have hmixed := isMixed_of_isolateTerminals hg.admissible hh hp
    rw [Production.isMixed, htwo, beq_self_eq_true, Bool.true_and, List.any_eq_false] at hmixed
    simpa using hmixed s hs
  · rw [has_iff, has_iff]
    exact mem_isolateTerminals_iff hg.admissible hh ha hlength
  · rw [generates_iff_yields, generates_iff_yields]
    exact yields_isolateTerminals hg.admissible hh (plain_of_mem_nonterminals ha)

/-- A grammar in which a terminal is the only body of the start symbol, while another is the body
of a nonterminal that has more of them. Both stand in bodies of two symbols, and in a longer one. -/
def blended : Grammar :=
  ⟨'S', .ofList [⟨'S', ['a']⟩, ⟨'A', ['a', 'B']⟩, ⟨'A', ['b', 'b']⟩, ⟨'A', ['a', 'b', 'A']⟩,
    ⟨'B', ['b']⟩, ⟨'B', ['A', 'b']⟩, ⟨'B', []⟩]⟩

/-- The same with the start symbol in place of the first terminal and a fresh nonterminal in place
of the second. -/
def parted : Grammar :=
  ⟨'S', .ofList [⟨'S', ['a']⟩, ⟨'A', ['S', 'B']⟩, ⟨'A', ['C', 'C']⟩, ⟨'A', ['a', 'b', 'A']⟩,
    ⟨'B', ['b']⟩, ⟨'B', ['A', 'C']⟩, ⟨'B', []⟩, ⟨'C', ['b']⟩]⟩

lemma built_blended : blended.Built :=
  @Built.rules _ 'S' [('S', [['a']]), ('A', [['a', 'B'], ['b', 'b'], ['a', 'b', 'A']]),
    ('B', [['b'], ['A', 'b'], []])] rfl

lemma isolateTerminals_blended : blended.isolateTerminals.value = .ok parted := by decide +kernel

theorem sameWords_parted :
    blended.Built ∧ blended.isolateTerminals.value = .ok parted ∧
      (∀ p ∈ parted.productions, p.body.length = 2 → ∀ s ∈ p.body, s.isTerminal = false) ∧
      (∀ a ∈ blended.nonterminals, ∀ body : Form, body.length ≠ 2 →
        (parted.has a body = true ↔ blended.has a body = true)) ∧
      ∀ a ∈ blended.nonterminals, ∀ w, parted.Generates a w ↔ blended.Generates a w :=
  ⟨built_blended, isolateTerminals_blended,
    sameWords_of_isolateTerminals built_blended isolateTerminals_blended⟩

end Grammar

end ContextFree
