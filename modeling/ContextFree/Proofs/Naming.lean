import ContextFree.Edit
import ContextFree.Names
import ContextFree.Proofs.Closures
import Mathlib.Data.List.Nodup

/-!
# Passes that name bodies

Splitting long bodies and isolating terminals work alike: productions are replaced by pieces in
which a nonterminal stands for a part of the body, and the nonterminals taken for this are given
productions of their own. Both are described by `Grammar.Rewritten`: every source (a
production of the grammar, or a fresh nonterminal with what it stands for) has a piece in the
result, and every production of the result is a piece of a source.

Reading every fresh nonterminal as the body it stands for (`Names.meaning`) is what takes
languages of the result back to the grammar.
-/

namespace ContextFree

namespace Grammar

variable {g : Grammar} {a : Symbol} {p : Production}

/-- A sole production is the only one of its head. -/
lemma mem_soleProductions :
    p ∈ g.soleProductions ↔ p ∈ g.productions ∧ g.bodies p.head = [p.body] := by
  simp [soleProductions]

lemma body_eq_of_mem_soleProductions {body : Form}
    (hsole : (⟨a, body⟩ : Production) ∈ g.soleProductions) (hp : p ∈ g.productions)
    (hhead : p.head = a) : p.body = body := by
  subst hhead
  have hmem : p.body ∈ g.bodies p.head := mem_bodies.2 hp
  rw [(mem_soleProductions.1 hsole).2] at hmem
  exact List.mem_singleton.1 hmem

/-- The symbols of a body are terminals and nonterminals in use. -/
lemma Admissible.plain (hg : g.Admissible) (hp : p ∈ g.productions) :
    ∀ s ∈ p.body, s.isTerminal = true ∨ s ∈ g.nonterminals := by
  intro s hs
  rcases hg.terminal_or_nonterminal hp hs with ht | hn
  · exact .inl ht
  · exact .inr (mem_nonterminals.2 (.inr ⟨p, hp, .inr ⟨hs, hn⟩⟩))

lemma head_mem_nonterminals (hp : p ∈ g.productions) : p.head ∈ g.nonterminals :=
  mem_nonterminals.2 (.inr ⟨p, hp, .inl rfl⟩)

lemma plain_of_mem_nonterminals (ha : a ∈ g.nonterminals) :
    ∀ s ∈ [a], s.isTerminal = true ∨ s ∈ g.nonterminals := by
  intro s hs
  rw [List.mem_singleton.1 hs]
  exact .inr ha

end Grammar

namespace Names

variable {g : Grammar} {names names' : Names} {Good : Form → Prop} {v : Symbol} {body : Form}

/-! ## What nonterminals stand for -/

/-- The nonterminal stands for the body, as its only one or because it was taken for it. -/
def Stands (names : Names) (v : Symbol) (body : Form) : Prop :=
  (⟨v, body⟩ : Production) ∈ names.given ++ names.established

lemma stands_of_find? (hv : names.find? body = some v) : names.Stands v body := by
  obtain ⟨p, hp, rfl⟩ := Option.map_eq_some_iff.1 hv
  have hmem := List.mem_of_find?_eq_some hp
  have hbody := List.find?_some hp
  rw [beq_iff_eq] at hbody
  rwa [Stands, ← hbody]

/-- The form that a symbol stands for: what it was taken for, or itself. -/
def meaning (names : Names) (s : Symbol) : Form :=
  match names.given.find? fun p => p.head == s with
  | some p => p.body
  | none => [s]

/-- The account is right: no nonterminal in use was taken, none was taken twice, and the bodies
that have been named are of the kind that the pass names. -/
structure Sound (names : Names) (g : Grammar) (Good : Form → Prop) : Prop where
  established : names.established = g.soleProductions
  used : ∀ a ∈ g.nonterminals, a ∈ names.used
  taken : ∀ p ∈ names.given, p.head ∈ names.used
  fresh : ∀ p ∈ names.given, p.head ∉ g.nonterminals ∧ p.head.isNonterminal = true
  distinct : (names.given.map Production.head).Nodup
  good : ∀ p ∈ names.given, Good p.body

lemma sound_ofGrammar (g : Grammar) (Good : Form → Prop) : (ofGrammar g).Sound g Good where
  established := rfl
  used _ ha := ha
  taken _ hp := absurd hp List.not_mem_nil
  fresh _ hp := absurd hp List.not_mem_nil
  distinct := List.nodup_nil
  good _ hp := absurd hp List.not_mem_nil

lemma given_of_take? (hv : names.take? body = some (v, names')) :
    names'.given = ⟨v, body⟩ :: names.given := by
  obtain ⟨s, -, hs⟩ := Option.map_eq_some_iff.1 hv
  rw [Prod.mk.injEq] at hs
  rw [← hs.2, hs.1]

/-- Taking a fresh nonterminal keeps the account right. -/
lemma Sound.take? (hs : names.Sound g Good) (hgood : Good body)
    (hv : names.take? body = some (v, names')) : names'.Sound g Good := by
  obtain ⟨s, hfresh, heq⟩ := Option.map_eq_some_iff.1 hv
  rw [Prod.mk.injEq] at heq
  obtain ⟨rfl, rfl⟩ := heq
  obtain ⟨hn, -, hused⟩ := of_fresh?_eq_some hfresh
  refine ⟨hs.established, fun a ha => List.mem_cons_of_mem _ (hs.used a ha), ?_, ?_, ?_, ?_⟩
  · intro p hp
    rcases List.mem_cons.1 hp with rfl | hp
    · exact List.mem_cons_self
    · exact List.mem_cons_of_mem _ (hs.taken p hp)
  · intro p hp
    rcases List.mem_cons.1 hp with rfl | hp
    · exact ⟨fun hmem => hused (hs.used _ hmem), hn⟩
    · exact hs.fresh p hp
  · rw [List.map_cons, List.nodup_cons]
    refine ⟨fun hmem => hused ?_, hs.distinct⟩
    obtain ⟨p, hp, hhead⟩ := List.mem_map.1 hmem
    obtain rfl : p.head = s := hhead
    exact hs.taken p hp
  · intro p hp
    rcases List.mem_cons.1 hp with rfl | hp
    · exact hgood
    · exact hs.good p hp

/-- Looking for what stands for a body keeps the account right; at most that one is taken. -/
lemma Sound.get? (hs : names.Sound g Good) (hgood : Good body)
    (hv : names.get? body = some (v, names')) :
    names'.Sound g Good ∧ (∀ p ∈ names.given, p ∈ names'.given) ∧ names'.Stands v body ∧
      ∀ p ∈ names'.given, p ∉ names.given → p = ⟨v, body⟩ := by
  unfold Names.get? at hv
  split at hv
  · rename_i s hfind
    simp only [Option.some.injEq, Prod.mk.injEq] at hv
    obtain ⟨rfl, rfl⟩ := hv
    exact ⟨hs, fun p hp => hp, stands_of_find? hfind, fun p hp hnot => absurd hp hnot⟩
  · have hgiven := given_of_take? hv
    refine ⟨hs.take? hgood hv, fun p hp => ?_, ?_, fun p hp hnot => ?_⟩
    · rw [hgiven]
      exact List.mem_cons_of_mem _ hp
    · rw [Stands, hgiven]
      exact List.mem_append_left _ List.mem_cons_self
    · rw [hgiven] at hp
      exact (List.mem_cons.1 hp).resolve_right hnot

lemma Stands.mono (hs : names.Sound g Good) (hs' : names'.Sound g Good)
    (hgrows : ∀ p ∈ names.given, p ∈ names'.given) (hv : names.Stands v body) :
    names'.Stands v body := by
  rcases List.mem_append.1 hv with hv | hv
  · exact List.mem_append_left _ (hgrows _ hv)
  · rw [hs.established, ← hs'.established] at hv
    exact List.mem_append_right _ hv

/-- What stands for a body is a nonterminal. -/
lemma Stands.isNonterminal (hg : g.Admissible) (hs : names.Sound g Good)
    (hv : names.Stands v body) : v.isNonterminal = true := by
  rcases List.mem_append.1 hv with hv | hv
  · exact (hs.fresh _ hv).2
  · rw [hs.established] at hv
    exact hg.head _ (Grammar.mem_soleProductions.1 hv).1

/-! ## Meanings -/

lemma Sound.meaning_of_given (hs : names.Sound g Good)
    (hv : (⟨v, body⟩ : Production) ∈ names.given) : names.meaning v = body := by
  unfold meaning
  cases hfind : names.given.find? fun p => p.head == v with
  | none => exact absurd hv fun hmem => by simpa using List.find?_eq_none.1 hfind _ hmem
  | some p =>
    have hmem := List.mem_of_find?_eq_some hfind
    have hhead := List.find?_some hfind
    rw [beq_iff_eq] at hhead
    -- a head was taken only once
    have heq := List.inj_on_of_nodup_map hs.distinct hmem hv hhead
    rw [heq]

/-- Symbols of the grammar stand for themselves. -/
lemma Sound.meaning_eq_self (hs : names.Sound g Good) {s : Symbol}
    (hplain : s.isTerminal = true ∨ s ∈ g.nonterminals) : names.meaning s = [s] := by
  unfold meaning
  cases hfind : names.given.find? fun p => p.head == s with
  | none => rfl
  | some p =>
    have hmem := List.mem_of_find?_eq_some hfind
    have hhead := List.find?_some hfind
    rw [beq_iff_eq] at hhead
    obtain ⟨hfresh, hn⟩ := hs.fresh p hmem
    rw [hhead] at hfresh hn
    rcases hplain with ht | hused
    · rw [Symbol.isTerminal_eq_false hn] at ht
      contradiction
    · contradiction

lemma Sound.flatMap_meaning (hs : names.Sound g Good) {u : Form}
    (hplain : ∀ s ∈ u, s.isTerminal = true ∨ s ∈ g.nonterminals) :
    u.flatMap names.meaning = u := by
  induction u with
  | nil => rfl
  | cons s u ih =>
    rw [List.flatMap_cons, hs.meaning_eq_self (hplain s (by simp)),
      ih fun t ht => hplain t (List.mem_cons_of_mem _ ht), List.singleton_append]

/-- What stands for a body yields what the body yields. -/
lemma Sound.yields_meaning (hs : names.Sound g Good) (hg : g.Admissible)
    (hv : names.Stands v body) {w : Form} :
    g.Yields (names.meaning v) w ↔ g.Yields body w := by
  rcases List.mem_append.1 hv with hv | hv
  · rw [hs.meaning_of_given hv]
  · rw [hs.established] at hv
    have hp := (Grammar.mem_soleProductions.1 hv).1
    rw [hs.meaning_eq_self (.inr (Grammar.head_mem_nonterminals hp))]
    constructor
    · intro hy
      rcases Grammar.yields_singleton_iff.1 hy with ⟨ht, -⟩ | ⟨q, hq, hhead, hb⟩
      · rw [Symbol.isTerminal_eq_false (hg.head _ hp)] at ht
        contradiction
      · rwa [Grammar.body_eq_of_mem_soleProductions hv hq hhead] at hb
    · exact .of_body hp

end Names

/-! ## Edits that add and remove -/

/-- The production that an edit removes. -/
def Edit.removed? : Edit → Option Production
  | .remove p => some p
  | _ => none

/-- The edits add productions, and remove the listed ones in order. -/
structure Edit.Removing (ps : List Production) (edits : List Edit) : Prop where
  kind : ∀ e ∈ edits, (∃ q, e = Edit.add q) ∨ ∃ p, e = Edit.remove p
  removed : edits.filterMap Edit.removed? = ps

namespace Edit.Removing

variable {ps qs : List Production} {edits edits' : List Edit}

lemma of_adds (hadd : ∀ e ∈ edits, ∃ q, e = Edit.add q) : Removing [] edits where
  kind e he := .inl (hadd e he)
  removed := by
    rw [List.filterMap_eq_nil_iff]
    intro e he
    obtain ⟨q, rfl⟩ := hadd e he
    rfl

lemma removes (ps : List Production) : Removing ps (ps.map Edit.remove) where
  kind e he := by
    obtain ⟨p, -, rfl⟩ := List.mem_map.1 he
    exact .inr ⟨p, rfl⟩
  removed := by
    rw [List.filterMap_map]
    exact List.filterMap_some

lemma singleton (p : Production) : Removing [p] [.remove p] := removes [p]

lemma append (he : Removing ps edits) (he' : Removing qs edits') :
    Removing (ps ++ qs) (edits ++ edits') where
  kind e hmem := (List.mem_append.1 hmem).elim (he.kind e) (he'.kind e)
  removed := by rw [List.filterMap_append, he.removed, he'.removed]

lemma remove_iff (he : Removing ps edits) {p : Production} : Edit.remove p ∈ edits ↔ p ∈ ps := by
  rw [← he.removed, List.mem_filterMap]
  constructor
  · intro hp
    exact ⟨_, hp, rfl⟩
  · rintro ⟨e, hmem, hp⟩
    rcases he.kind e hmem with ⟨q, rfl⟩ | ⟨q, rfl⟩
    · contradiction
    · rwa [← Option.some.inj hp]

lemma retain_not_mem (he : Removing ps edits) (p : Production) : Edit.retain p ∉ edits := by
  intro hp
  rcases he.kind _ hp with ⟨q, hq⟩ | ⟨q, hq⟩ <;> contradiction

lemma restart_not_mem (he : Removing ps edits) (s : Symbol) : Edit.restart s ∉ edits := by
  intro hs
  rcases he.kind _ hs with ⟨q, hq⟩ | ⟨q, hq⟩ <;> contradiction

end Edit.Removing

/-- A pass that replaces the given productions as planned. Both passes are of this form. -/
def Stage.pass (stage : Stage) (ps : List Production) (plan : List Edit × Option Exhausted)
    (g : Grammar) : Logged (Except Exhausted Grammar) :=
  if ps.isEmpty then (stage.skip [] g).map .ok
  else
    match plan with
    | (edits, none) => (stage.perform [] edits g).map .ok
    | (edits, some e) => stage.abandon [] edits g e

namespace Grammar

variable {g h : Grammar} {names names₀ names₁ names₂ : Names} {Good : Form → Prop}
  {Piece : Names → Production → Production → Prop} {sources sources' : List Production}
  {edits edits' : List Edit} {u w : Form}

/-! ## Replacing sources by pieces -/

/-- What a pass rewrites: the productions of the grammar, and the nonterminals it has taken with
what they stand for. -/
def Source (g : Grammar) (names : Names) (p : Production) : Prop :=
  p ∈ g.productions ∨ p ∈ names.given

lemma source_of_stands (hs : names.Sound g Good) {v : Symbol} {body : Form}
    (hv : names.Stands v body) : g.Source names ⟨v, body⟩ := by
  rcases List.mem_append.1 hv with hv | hv
  · exact .inr hv
  · rw [hs.established] at hv
    exact .inl (mem_soleProductions.1 hv).1

/-- The symbols of a source belong to the grammar, if those of named bodies do. -/
lemma Source.plain (hg : g.Admissible) (hs : names.Sound g Good)
    (hgood : ∀ body, Good body → ∀ s ∈ body, s.isTerminal = true ∨ s ∈ g.nonterminals)
    {src : Production} (hsrc : g.Source names src) :
    ∀ s ∈ src.body, s.isTerminal = true ∨ s ∈ g.nonterminals := by
  rcases hsrc with hp | hp
  · exact hg.plain hp
  · exact hgood src.body (hs.good src hp)

lemma Source.isAdmissible (hg : g.Admissible) (hs : names.Sound g Good)
    (hgood : ∀ body, Good body → ∀ s ∈ body, s.isTerminal = true ∨ s ∈ g.nonterminals)
    {src : Production} (hsrc : g.Source names src) : ∀ s ∈ src.body, s.isAdmissible = true := by
  intro s hmem
  rw [Symbol.isAdmissible, Bool.or_eq_true]
  rcases hsrc.plain hg hs hgood s hmem with hterminal | hnonterminal
  · exact .inr hterminal
  · exact .inl (hg.isNonterminal hnonterminal)

/-- A stretch of a pass, which leads from one account of names to another. It adds only pieces of
sources, and a piece of each of its own sources and of each nonterminal that it takes. -/
structure Replaces (g : Grammar) (Good : Form → Prop)
    (Piece : Names → Production → Production → Prop) (sources : List Production)
    (names names' : Names) (edits : List Edit) : Prop where
  sound : names'.Sound g Good
  grows : ∀ p ∈ names.given, p ∈ names'.given
  justified : ∀ q, Edit.add q ∈ edits → ∃ src, g.Source names' src ∧ Piece names' src q
  covered : ∀ src, (src ∈ sources ∨ src ∈ names'.given ∧ src ∉ names.given) →
    ∃ q, Edit.add q ∈ edits ∧ Piece names' src q
  mentioned : ∀ p ∈ names'.given, p ∉ names.given →
    ∃ q, Edit.add q ∈ edits ∧ p.head ∈ q.body

/-- Edits that add nothing take no names. -/
lemma Replaces.of_not_add (hs : names.Sound g Good) (hedits : ∀ q, Edit.add q ∉ edits) :
    g.Replaces Good Piece [] names names edits where
  sound := hs
  grows _ hp := hp
  justified q hq := absurd hq (hedits q)
  covered := by
    rintro src (hsrc | ⟨hsrc, hnot⟩)
    · exact absurd hsrc List.not_mem_nil
    · exact absurd hsrc hnot
  mentioned p hp hnot := absurd hp hnot

/-- Pieces stay pieces while more names are taken. -/
def MonotonePiece (g : Grammar) (Good : Form → Prop)
    (Piece : Names → Production → Production → Prop) : Prop :=
  ∀ names names' : Names, names.Sound g Good → names'.Sound g Good →
    (∀ p ∈ names.given, p ∈ names'.given) → ∀ src q, Piece names src q → Piece names' src q

/-- One stretch after the other. -/
lemma Replaces.append (hmono : g.MonotonePiece Good Piece)
    (hr : g.Replaces Good Piece sources names₀ names₁ edits)
    (hr' : g.Replaces Good Piece sources' names₁ names₂ edits') :
    g.Replaces Good Piece (sources ++ sources') names₀ names₂ (edits ++ edits') := by
  have hpiece := hmono names₁ names₂ hr.sound hr'.sound hr'.grows
  refine ⟨hr'.sound, fun p hp => hr'.grows p (hr.grows p hp), fun q hq => ?_,
    fun src hsrc => ?_, fun p hp hnot => ?_⟩
  · rcases List.mem_append.1 hq with hq | hq
    · obtain ⟨src, hsrc, hq⟩ := hr.justified q hq
      exact ⟨src, hsrc.imp_right (hr'.grows src), hpiece src q hq⟩
    · exact hr'.justified q hq
  · -- a source of the first stretch has its piece there, all others in the second
    have hfirst : (src ∈ sources ∨ src ∈ names₁.given ∧ src ∉ names₀.given) →
        ∃ q, Edit.add q ∈ edits ++ edits' ∧ Piece names₂ src q := by
      intro h
      obtain ⟨q, hq, hpq⟩ := hr.covered src h
      exact ⟨q, List.mem_append_left _ hq, hpiece src q hpq⟩
    have hsecond : (src ∈ sources' ∨ src ∈ names₂.given ∧ src ∉ names₁.given) →
        ∃ q, Edit.add q ∈ edits ++ edits' ∧ Piece names₂ src q := by
      intro h
      obtain ⟨q, hq, hpq⟩ := hr'.covered src h
      exact ⟨q, List.mem_append_right _ hq, hpq⟩
    rcases hsrc with hsrc | ⟨hsrc, hnot⟩
    · rcases List.mem_append.1 hsrc with hsrc | hsrc
      · exact hfirst (.inl hsrc)
      · exact hsecond (.inl hsrc)
    · by_cases hmid : src ∈ names₁.given
      · exact hfirst (.inr ⟨hmid, hnot⟩)
      · exact hsecond (.inr ⟨hsrc, hmid⟩)
  · by_cases hmid : p ∈ names₁.given
    · obtain ⟨q, hq, hpq⟩ := hr.mentioned p hmid hnot
      exact ⟨q, List.mem_append_left _ hq, hpq⟩
    · obtain ⟨q, hq, hpq⟩ := hr'.mentioned p hp hmid
      exact ⟨q, List.mem_append_right _ hq, hpq⟩

/-- What a whole pass makes of a grammar. -/
structure Rewritten (g h : Grammar) (Good : Form → Prop)
    (Piece : Names → Production → Production → Prop) (names : Names) : Prop where
  start : h.start = g.start
  sound : names.Sound g Good
  covered : ∀ src, g.Source names src → ∃ q ∈ h.productions, Piece names src q
  justified : ∀ q ∈ h.productions, ∃ src, g.Source names src ∧ Piece names src q
  mentioned : ∀ p ∈ names.given, ∃ q ∈ h.productions, p.head ∈ q.body

/-- A pass that replaces exactly the productions of a certain kind by pieces of another kind. -/
lemma Replaces.rewritten {bad : Production → Bool}
    (hr : g.Replaces Good Piece (g.listing.filter bad) (Names.ofGrammar g) names edits)
    (hedits : Edit.Removing (g.listing.filter bad) edits)
    (hself : ∀ p, bad p = false → Piece names p p)
    (hgood : ∀ src q, g.Source names src → Piece names src q → bad q = false) :
    g.Rewritten (edits.foldl Edit.apply g) Good Piece names := by
  have hmem : ∀ q, q ∈ (edits.foldl Edit.apply g).productions ↔
      Edit.add q ∈ edits ∨ (q ∈ g.productions ∧ bad q = false) := by
    intro q
    rw [Edit.mem_foldl_apply, hedits.remove_iff, List.mem_filter, mem_listing]
    · simp only [hedits.retain_not_mem q, or_false, not_and, Bool.not_eq_true]
      exact or_congr_right (and_congr_right fun hq => forall_prop_of_true hq)
    · -- what is removed is of the bad kind, a piece is not
      intro hq
      refine ⟨fun hadd => ?_, hedits.retain_not_mem q⟩
      obtain ⟨src, hsrc, hpq⟩ := hr.justified q hadd
      have hbad := (List.mem_filter.1 (hedits.remove_iff.1 hq)).2
      rw [hgood src q hsrc hpq] at hbad
      contradiction
  have hnew : ∀ p : Production, p ∉ (Names.ofGrammar g).given := fun p => List.not_mem_nil
  refine ⟨Edit.start_foldl_apply hedits.restart_not_mem, hr.sound, fun src hsrc => ?_,
    fun q hq => ?_, fun p hp => ?_⟩
  · have hadded : (src ∈ g.listing.filter bad ∨
        src ∈ names.given ∧ src ∉ (Names.ofGrammar g).given) →
        ∃ q ∈ (edits.foldl Edit.apply g).productions, Piece names src q := by
      intro h
      obtain ⟨q, hq, hpq⟩ := hr.covered src h
      exact ⟨q, (hmem q).2 (.inl hq), hpq⟩
    rcases hsrc with hsrc | hsrc
    · by_cases hbad : bad src = true
      · exact hadded (.inl (List.mem_filter.2 ⟨mem_listing.2 hsrc, hbad⟩))
      · rw [Bool.not_eq_true] at hbad
        exact ⟨src, (hmem src).2 (.inr ⟨hsrc, hbad⟩), hself src hbad⟩
    · exact hadded (.inr ⟨hsrc, hnew src⟩)
  · rcases (hmem q).1 hq with hq | ⟨hq, hbad⟩
    · exact hr.justified q hq
    · exact ⟨q, .inl hq, hself q hbad⟩
  · obtain ⟨q, hq, hpq⟩ := hr.mentioned p hp (hnew p)
    exact ⟨q, (hmem q).2 (.inl hq), hpq⟩

/-- A pass that succeeds has carried out its plan. It may skip the plan where that is empty. -/
lemma exists_plan_of_pass {stage : Stage} {ps : List Production}
    {plan : List Edit × Option Exhausted} (hempty : ps = [] → plan = ([], none))
    (hh : (stage.pass ps plan g).value = .ok h) :
    ∃ edits, plan = (edits, none) ∧ edits.foldl Edit.apply g = h := by
  unfold Stage.pass at hh
  split at hh
  · rename_i hnone
    rw [Logged.value_map, Stage.value_skip, Except.ok.injEq] at hh
    exact ⟨[], hempty (List.isEmpty_iff.1 hnone), hh⟩
  · split at hh
    · rename_i edits
      rw [Logged.value_map, Stage.value_perform, Except.ok.injEq] at hh
      exact ⟨edits, rfl, hh⟩
    · contradiction

/-- A pass that fails has a plan that fails. -/
lemma failure_of_pass {stage : Stage} {ps : List Production}
    {plan : List Edit × Option Exhausted} {e : Exhausted}
    (hh : (stage.pass ps plan g).value = .error e) : plan.2 = some e := by
  unfold Stage.pass at hh
  split at hh
  · contradiction
  · split at hh
    · contradiction
    · exact congrArg some (Except.error.inj hh)

/-! ## Languages -/

namespace Rewritten

/-- The result yields nothing new, with the fresh nonterminals read as what they stand for. -/
lemma yields_meaning (hr : g.Rewritten h Good Piece names)
    (hpiece : ∀ src q, g.Source names src → Piece names src q → q.head = src.head ∧
      ∀ x, g.Yields (q.body.flatMap names.meaning) x → g.Yields src.body x)
    (hy : h.Yields u w) : g.Yields (u.flatMap names.meaning) w := by
  refine (reads_yields_iff names.meaning).1 (hy.reads ⟨fun s hs => ?_, fun q hq x hx => ?_⟩)
  · rw [hr.sound.meaning_eq_self (.inl hs)]
    exact .terminal hs .nil
  · obtain ⟨src, hsrc, hpq⟩ := hr.justified q hq
    obtain ⟨hhead, hbody⟩ := hpiece src q hsrc hpq
    have hx := hbody x ((reads_yields_iff names.meaning).1 hx)
    rw [hhead]
    rcases hsrc with hsrc | hsrc
    · rw [hr.sound.meaning_eq_self (.inr (head_mem_nonterminals hsrc))]
      exact .of_body hsrc hx
    · rwa [hr.sound.meaning_of_given hsrc]

/-- Forms of the grammar yield the same words as before. -/
theorem yields_iff (hr : g.Rewritten h Good Piece names)
    (hpiece : ∀ src q, g.Source names src → Piece names src q → q.head = src.head ∧
      ∀ x, g.Yields (q.body.flatMap names.meaning) x → g.Yields src.body x)
    (hderives : ∀ p ∈ g.productions, h.Derives [p.head] p.body)
    (hplain : ∀ s ∈ u, s.isTerminal = true ∨ s ∈ g.nonterminals) :
    h.Yields u w ↔ g.Yields u w := by
  constructor
  · intro hy
    have hmeaning := hr.yields_meaning hpiece hy
    rwa [hr.sound.flatMap_meaning hplain] at hmeaning
  · exact Yields.of_simulates fun p hp x hx => .of_derives (hderives p hp) hx

/-- The heads of the result are nonterminals, and so the bodies decide whether it is
well-formed. -/
lemma admissible (hr : g.Rewritten h Good Piece names) (hg : g.Admissible)
    (hpiece : ∀ src q, g.Source names src → Piece names src q → q.head = src.head ∧
      ∀ s ∈ q.body, s.isAdmissible = true) : h.Admissible := by
  refine ⟨hr.start ▸ hg.start, fun q hq => ?_, fun q hq => ?_⟩
  · obtain ⟨src, hsrc, hpq⟩ := hr.justified q hq
    rw [(hpiece src q hsrc hpq).1]
    rcases hsrc with hsrc | hsrc
    · exact hg.head src hsrc
    · exact (hr.sound.fresh src hsrc).2
  · obtain ⟨src, hsrc, hpq⟩ := hr.justified q hq
    exact (hpiece src q hsrc hpq).2

end Rewritten

end Grammar

end ContextFree
