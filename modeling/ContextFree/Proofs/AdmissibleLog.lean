import ContextFree.Proofs.Search.Cancellation
import ContextFree.Proofs.Search.Settling
import ContextFree.Proofs.Search.Targeted
import ContextFree.Proofs.Text.Format
import ContextFree.Proofs.Transformed

/-!
# Logs that name symbols of the alphabets only

Everything that can be watched, a transformation, a pipeline or a search, tells of symbols, of
productions, of grammars and of derivations. Started on a well-formed grammar, it names symbols of
the alphabets only (`Run.admissible_events`), also if it fails, is cut off or gives up.

A transformation tells of the edits that it carries out. Edits that bring in well-formed
productions keep a grammar well-formed, whatever their order (`Edit.admissible_applyAll`), so it is
enough to look at the plan of each pass, as far as it was made. A search tells of words, whose
symbols are terminals, and of derivations, whose forms follow from the start symbol.
-/

namespace ContextFree

variable {g : Grammar} {p : Production}

open Declaration (isAdmissible_of_isNonterminal)

lemma isAdmissible_of_isTerminal {s : Symbol} (hs : s.isTerminal = true) :
    s.isAdmissible = true := by
  rw [Symbol.isAdmissible, hs, Bool.or_true]

lemma Grammar.Admissible.production (hg : g.Admissible) (hp : p ∈ g.productions) : p.Admissible :=
  ⟨hg.head p hp, hg.body p hp⟩

/-! ## Admissible actions -/

/-- All symbols of the form belong to the alphabets. -/
def Form.Admissible (form : Form) : Prop := ∀ s ∈ form, s.isAdmissible = true

/-- A set is named after nonterminals only. -/
def SetName.Admissible : SetName → Prop
  | .unitClosure a => a.isNonterminal = true
  | _ => True

/-- What is told of is well-formed. -/
def Action.Admissible : Action → Prop
  | .started | .unchanged => True
  | .computed name symbols => name.Admissible ∧ ∀ s ∈ symbols, s.isNonterminal = true
  | .removed p | .added p => p.Admissible
  | .startChanged s => s.isNonterminal = true
  | .finished g => g.Admissible
  | .found word chain =>
    Form.Admissible word ∧ ∀ forms ∈ chain, ∀ form ∈ forms, Form.Admissible form

/-- All that a log tells of is well-formed. -/
def AdmissibleLog (events : List Event) : Prop := ∀ e ∈ events, e.action.Admissible

lemma AdmissibleLog.append {events events' : List Event} (he : AdmissibleLog events)
    (he' : AdmissibleLog events') : AdmissibleLog (events ++ events') :=
  List.forall_mem_append.2 ⟨he, he'⟩

lemma admissibleLog_map {stage : Stage} {actions : List Action}
    (hactions : ∀ a ∈ actions, a.Admissible) : AdmissibleLog (actions.map (Event.mk stage)) :=
  List.forall_mem_map.2 hactions

/-! ## Edits -/

namespace Edit

variable {e : Edit} {edits : List Edit} {stage : Stage}

/-- What an edit brings in or takes away is well-formed. -/
def Admissible : Edit → Prop
  | add p | retain p | remove p => p.Admissible
  | restart s => s.isNonterminal = true

lemma Admissible.apply (he : e.Admissible) (hg : g.Admissible) : (e.apply g).Admissible := by
  -- with a production more the grammar stays well-formed
  have hinsert : ∀ q : Production, q.Admissible →
      ({ g with productions := g.productions.insert q } : Grammar).Admissible := by
    intro q hq
    refine ⟨hg.start, fun p hp => ?_, fun p hp => ?_⟩
    · rcases SortedSet.mem_insert.1 hp with rfl | hp
      · exact hq.1
      · exact hg.head p hp
    · rcases SortedSet.mem_insert.1 hp with rfl | hp
      · exact hq.2
      · exact hg.body p hp
  cases e with
  | add q => exact hinsert q he
  | retain q => exact hinsert q he
  | remove q =>
    have hsub : ∀ p ∈ ((remove q).apply g).productions, p ∈ g.productions :=
      fun p hp => (mem_apply_remove.1 hp).1
    exact hg.of_subset rfl hsub
  | restart s => exact ⟨he, hg.head, hg.body⟩

lemma Admissible.action? {action : Action} (he : e.Admissible)
    (haction : e.action? g = some action) : action.Admissible := by
  cases e with
  | add q =>
    obtain ⟨-, heq⟩ := Option.ite_none_left_eq_some.1 haction
    obtain rfl := Option.some.inj heq
    exact he
  | retain q => contradiction
  | remove q =>
    obtain rfl := Option.some.inj haction
    exact he
  | restart s =>
    obtain rfl := Option.some.inj haction
    exact he

/-- Carrying out well-formed edits tells of well-formed things and leaves a well-formed grammar. -/
theorem admissible_applyAll (hg : g.Admissible) (hedits : ∀ e ∈ edits, e.Admissible) :
    AdmissibleLog (applyAll stage g edits).events ∧ (applyAll stage g edits).value.Admissible := by
  induction edits generalizing g with
  | nil => exact ⟨fun e he => absurd he List.not_mem_nil, hg⟩
  | cons e edits ih =>
    obtain ⟨he, hrest⟩ := List.forall_mem_cons.1 hedits
    obtain ⟨hevents, hvalue⟩ := ih (he.apply hg) hrest
    refine ⟨AdmissibleLog.append ?_ hevents, hvalue⟩
    intro event hevent
    rw [Option.mem_toList, Option.map_eq_some_iff] at hevent
    obtain ⟨action, haction, rfl⟩ := hevent
    exact he.action? haction

end Edit

/-! ## Stages -/

namespace Stage

variable {stage : Stage} {notes : List Action} {edits : List Edit}

lemma admissible_opening (hnotes : ∀ a ∈ notes, a.Admissible) :
    AdmissibleLog ((Action.started :: notes).map (Event.mk stage)) :=
  admissibleLog_map (List.forall_mem_cons.2 ⟨trivial, hnotes⟩)

lemma admissible_skip (hnotes : ∀ a ∈ notes, a.Admissible) (g : Grammar) :
    AdmissibleLog (stage.skip notes g).events := by
  apply admissibleLog_map
  rw [List.cons_append, List.forall_mem_cons, List.forall_mem_append, List.forall_mem_singleton]
  exact ⟨trivial, hnotes, trivial⟩

lemma admissible_perform (hg : g.Admissible) (hnotes : ∀ a ∈ notes, a.Admissible)
    (hedits : ∀ e ∈ edits, e.Admissible) : AdmissibleLog (stage.perform notes edits g).events := by
  have hdone : AdmissibleLog (Edit.applyAll stage g edits).events ∧
      (Edit.applyAll stage g edits).value.Admissible := Edit.admissible_applyAll hg hedits
  refine ((admissible_opening hnotes).append hdone.1).append ?_
  exact List.forall_mem_singleton.2 hdone.2

lemma admissible_abandon {ε : Type} {failure : ε} (hg : g.Admissible)
    (hnotes : ∀ a ∈ notes, a.Admissible) (hedits : ∀ e ∈ edits, e.Admissible) :
    AdmissibleLog (stage.abandon notes edits g failure).events :=
  (admissible_opening hnotes).append (Edit.admissible_applyAll hg hedits).1

/-- A pass that names bodies is judged by its plan, whether or not that is complete. -/
lemma admissible_pass {ps : List Production} {plan : List Edit × Option Exhausted}
    (hg : g.Admissible) (hplan : ∀ e ∈ plan.1, e.Admissible) :
    AdmissibleLog (stage.pass ps plan g).events := by
  have hnotes : ∀ a ∈ ([] : List Action), a.Admissible := by simp
  unfold Stage.pass
  split
  · exact admissible_skip hnotes g
  · obtain ⟨edits, failure⟩ := plan
    cases failure with
    | none => exact admissible_perform hg hnotes hplan
    | some e => exact admissible_abandon hg hnotes hplan

end Stage

/-! ## Passes -/

namespace Grammar

lemma Admissible.removal {ps : List Production} (hg : g.Admissible)
    (hps : ∀ p ∈ ps, p ∈ g.productions) : ∀ e ∈ ps.map Edit.remove, e.Admissible :=
  List.forall_mem_map.2 fun p hp => hg.production (hps p hp)

lemma mem_of_mem_filter_listing {bad : Production → Bool} :
    ∀ p ∈ g.listing.filter bad, p ∈ g.productions :=
  fun _ hp => mem_listing.1 (List.mem_filter.1 hp).1

/-- A set of nonterminals in use can be told of. -/
lemma Admissible.computed {name : SetName} {symbols : SortedSet Symbol} (hg : g.Admissible)
    (hname : name.Admissible) (hsymbols : ∀ s ∈ symbols, s ∈ g.nonterminals) :
    (Action.computed name symbols).Admissible :=
  ⟨hname, fun s hs => hg.isNonterminal (hsymbols s hs)⟩

lemma mem_nonterminals_of_mem_filter_headSet {keep : Symbol → Bool} :
    ∀ s ∈ g.headSet.filter keep, s ∈ g.nonterminals := by
  intro s hs
  obtain ⟨p, hp, rfl⟩ := mem_headSet.1 (SortedSet.mem_filter.1 hs).1
  exact head_mem_nonterminals hp

lemma mem_of_mem_filter_nonterminals {keep : Symbol → Bool} :
    ∀ s ∈ g.nonterminals.filter keep, s ∈ g.nonterminals :=
  fun _ hs => (SortedSet.mem_filter.1 hs).1

lemma Admissible.events_dropNonGenerating (hg : g.Admissible) :
    AdmissibleLog g.dropNonGenerating.events := by
  have hgenerating : (Action.computed .generating g.generating).Admissible :=
    hg.computed trivial mem_nonterminals_of_mem_filter_headSet
  have huseless : (Action.computed .nonGenerating g.nonGenerating).Admissible :=
    hg.computed trivial mem_of_mem_filter_nonterminals
  unfold Grammar.dropNonGenerating
  dsimp only
  split
  · exact Stage.admissible_skip (List.forall_mem_singleton.2 hgenerating) g
  · refine Stage.admissible_perform hg ?_ (hg.removal mem_of_mem_filter_listing)
    exact List.forall_mem_cons.2 ⟨hgenerating, List.forall_mem_singleton.2 huseless⟩

lemma Admissible.events_dropUnreachable (hg : g.Admissible) :
    AdmissibleLog g.dropUnreachable.events := by
  have hreachable : (Action.computed .reachable g.reachable).Admissible :=
    hg.computed trivial mem_of_mem_filter_nonterminals
  have huseless : (Action.computed .unreachable g.unreachable).Admissible :=
    hg.computed trivial mem_of_mem_filter_nonterminals
  unfold Grammar.dropUnreachable
  dsimp only
  split
  · exact Stage.admissible_skip (List.forall_mem_singleton.2 hreachable) g
  · refine Stage.admissible_perform hg ?_ (hg.removal mem_of_mem_filter_listing)
    exact List.forall_mem_cons.2 ⟨hreachable, List.forall_mem_singleton.2 huseless⟩

/-- The nonterminals on both ends of a unit production are in use. -/
lemma UnitLink.mem_nonterminals {a b : Symbol} (hlink : g.UnitLink a b) :
    a ∈ g.nonterminals ∧ b ∈ g.nonterminals := by
  obtain ⟨hp, hb⟩ := hlink
  exact ⟨head_mem_nonterminals hp,
    Grammar.mem_nonterminals.2 (.inr ⟨_, hp, .inr ⟨List.mem_singleton_self b, hb⟩⟩)⟩

lemma Admissible.inherited (hg : g.Admissible) (hp : p ∈ g.inherited g.unitClosure) :
    p.Admissible := by
  obtain ⟨-, b, hne, hpath, hb⟩ := mem_inherited.1 hp
  refine ⟨?_, hg.body ⟨b, p.body⟩ hb⟩
  -- a chain of unit productions starts at the head
  rcases Relation.ReflTransGen.cases_head hpath with heq | ⟨c, hlink, -⟩
  · exact absurd heq.symm hne
  · exact hg.isNonterminal hlink.mem_nonterminals.1

lemma Admissible.events_eliminateUnits (hg : g.Admissible) :
    AdmissibleLog g.eliminateUnits.events := by
  unfold Grammar.eliminateUnits
  dsimp only
  split
  · exact Stage.admissible_skip (by simp) g
  · refine Stage.admissible_perform hg (List.forall_mem_map.2 fun entry hentry => ?_)
      (List.forall_mem_append.2 ⟨?_, hg.removal fun p hp => (mem_unitProductions.1 hp).1⟩)
    · obtain ⟨a, ha, rfl⟩ := List.mem_map.1 hentry
      obtain ⟨b, hlink⟩ := mem_unitHeads.1 ha
      refine hg.computed (hg.isNonterminal hlink.mem_nonterminals.1) fun s hs => ?_
      obtain ⟨c, hlink'⟩ := mem_unitTargets.1 (SortedSet.mem_filter.1 hs).1
      exact hlink'.mem_nonterminals.2
    · exact List.forall_mem_map.2 fun p hp => hg.inherited hp

lemma Admissible.shortening (hg : g.Admissible) (hp : p ∈ g.shortenings) : p.Admissible := by
  obtain ⟨m, hm, -, hkept⟩ := exists_marking_of_mem_shortenings hp
  refine ⟨hg.head ⟨p.head, m.origin⟩ hm, fun s hs => hg.body ⟨p.head, m.origin⟩ hm s ?_⟩
  rw [← hkept] at hs
  obtain ⟨mark, hmark, rfl⟩ := List.mem_map.1 hs
  exact List.mem_map_of_mem (List.mem_filter.1 hmark).1

lemma Admissible.epsilonRestart {s : Symbol} (hg : g.Admissible) (hs : s.isNonterminal = true) :
    ∀ e ∈ g.epsilonRestart s, e.Admissible := by
  have hempty : (⟨s, []⟩ : Production).Admissible := ⟨hs, by simp⟩
  have hold : (⟨s, [g.start]⟩ : Production).Admissible :=
    ⟨hs, List.forall_mem_singleton.2 (isAdmissible_of_isNonterminal hg.start)⟩
  unfold Grammar.epsilonRestart
  split
  · exact List.forall_mem_singleton.2 hempty
  · exact List.forall_mem_cons.2
      ⟨hs, List.forall_mem_cons.2 ⟨hempty, List.forall_mem_singleton.2 hold⟩⟩

lemma Admissible.epsilonRemovals (hg : g.Admissible) (s : Symbol) :
    ∀ e ∈ g.epsilonRemovals s, e.Admissible :=
  hg.removal fun _ hp => (List.mem_filter.1 hp).1

lemma Admissible.events_eliminateEpsilon (hg : g.Admissible) :
    AdmissibleLog g.eliminateEpsilon.events := by
  have hnotes : ∀ a ∈ [Action.computed .nullable g.nullable], a.Admissible :=
    List.forall_mem_singleton.2 (hg.computed trivial mem_nonterminals_of_mem_filter_headSet)
  have hadditions : ∀ e ∈ g.shortenings.map Edit.add, e.Admissible :=
    List.forall_mem_map.2 fun p hp => hg.shortening hp
  unfold eliminateEpsilon
  dsimp only
  split
  · exact Stage.admissible_skip (by simp) g
  · split
    · split
      · exact Stage.admissible_abandon hg hnotes hadditions
      · rename_i s hs
        have hstart : s.isNonterminal = true := by
          rcases of_epsilonStart_eq_ok hs with ⟨rfl, -⟩ | ⟨-, hn⟩
          · exact hg.start
          · exact hn
        exact Stage.admissible_perform hg hnotes <| List.forall_mem_append.2
          ⟨List.forall_mem_append.2 ⟨hadditions, hg.epsilonRestart hstart⟩, hg.epsilonRemovals s⟩
    · exact Stage.admissible_perform hg hnotes
        (List.forall_mem_append.2 ⟨hadditions, hg.epsilonRemovals g.start⟩)

/-! ### Passes that name bodies -/

section

variable {names : Names} {head : Symbol} {body : Form} {ps : List Production}

/-- The account that a pass keeps of its names is right; what they were taken for does not
matter. -/
def Accounts (g : Grammar) (names : Names) : Prop := names.Sound g fun _ => True

lemma accounts_ofGrammar (g : Grammar) : g.Accounts (Names.ofGrammar g) :=
  Names.sound_ofGrammar g _

lemma admissible_pair {s v : Symbol} (hhead : head.isNonterminal = true)
    (hs : s.isAdmissible = true) (hv : v.isNonterminal = true) :
    (⟨head, [s, v]⟩ : Production).Admissible :=
  ⟨hhead, List.forall_mem_cons.2
    ⟨hs, List.forall_mem_singleton.2 (isAdmissible_of_isNonterminal hv)⟩⟩

/-- The parts into which a body is split are well-formed, also if the last of them are missing. -/
lemma splitBody_admissible (hg : g.Admissible) (hnames : g.Accounts names)
    (hp : (⟨head, body⟩ : Production).Admissible) :
    (∀ e ∈ (splitBody names head body).1, e.Admissible) ∧
      ∀ names', (splitBody names head body).2 = some names' → g.Accounts names' := by
  fun_induction splitBody names head body with
  | case1 names head s t u rest v hfind =>
    have hv : v.isNonterminal = true := (Names.stands_of_find? hfind).isNonterminal hg hnames
    refine ⟨List.forall_mem_singleton.2 (admissible_pair hp.1 (hp.2 s (by simp)) hv), ?_⟩
    intro names' heq
    obtain rfl := Option.some.inj heq
    exact hnames
  | case2 names head s t u rest hfind v names₁ htake edits result hrec ih =>
    have hnames₁ : g.Accounts names₁ := hnames.take? trivial htake
    have hstands : names₁.Stands v (t :: u :: rest) := by
      rw [Names.Stands, Names.given_of_take? htake]
      exact List.mem_append_left _ List.mem_cons_self
    have hv : v.isNonterminal = true := hstands.isNonterminal hg hnames₁
    rw [hrec] at ih
    obtain ⟨hedits, hresult⟩ :=
      ih hnames₁ ⟨hv, fun r hr => hp.2 r (List.mem_cons_of_mem s hr)⟩
    exact ⟨List.forall_mem_cons.2 ⟨admissible_pair hp.1 (hp.2 s (by simp)) hv, hedits⟩, hresult⟩
  | case3 => simp
  | case4 names head body hshort =>
    refine ⟨List.forall_mem_singleton.2 hp, ?_⟩
    intro names' heq
    obtain rfl := Option.some.inj heq
    exact hnames

lemma splitProductions_admissible (hg : g.Admissible) (hnames : g.Accounts names)
    (hps : ∀ p ∈ ps, p.Admissible) : ∀ e ∈ (splitProductions names ps).1, e.Admissible := by
  induction ps generalizing names with
  | nil => simp [splitProductions]
  | cons p ps ih =>
    obtain ⟨hp, hrest⟩ := List.forall_mem_cons.1 hps
    obtain ⟨hedits, hresult⟩ := splitBody_admissible hg hnames hp
    rw [splitProductions]
    split
    · rename_i edits names' hsplit
      rw [hsplit] at hedits hresult
      exact List.forall_mem_cons.2
        ⟨hp, List.forall_mem_append.2 ⟨hedits, ih (hresult names' rfl) hrest⟩⟩
    · rename_i edits hsplit
      rw [hsplit] at hedits
      exact List.forall_mem_cons.2 ⟨hp, hedits⟩

/-- The outcome of isolating the terminals of a body, with what it leaves, is as it should be. -/
def Isolated (g : Grammar) (result : Except Symbol (Names × Form)) : Prop :=
  ∀ names body, result = .ok (names, body) → g.Accounts names ∧ Form.Admissible body

lemma Isolated.cons {s : Symbol} {result : Except Symbol (Names × Form)}
    (hs : s.isAdmissible = true) (hresult : g.Isolated result) :
    g.Isolated (result.map fun (names, body) => (names, s :: body)) := by
  intro names body heq
  cases result with
  | error t => contradiction
  | ok outcome =>
    obtain ⟨names', body'⟩ := outcome
    obtain ⟨rfl, rfl⟩ := Prod.mk.inj (Except.ok.inj heq)
    obtain ⟨hnames, hbody⟩ := hresult names' body' rfl
    exact ⟨hnames, List.forall_mem_cons.2 ⟨hs, hbody⟩⟩

/-- What takes the place of terminals is well-formed, also if there is nothing left for some. -/
lemma isolateBody_admissible (hg : g.Admissible) (hnames : g.Accounts names)
    (hbody : Form.Admissible body) :
    (∀ e ∈ (isolateBody names body).1, e.Admissible) ∧ g.Isolated (isolateBody names body).2 := by
  induction body generalizing names with
  | nil =>
    refine ⟨by simp [isolateBody], fun names' body' heq => ?_⟩
    obtain ⟨rfl, rfl⟩ := Prod.mk.inj (Except.ok.inj heq)
    exact ⟨hnames, hbody⟩
  | cons s rest ih =>
    obtain ⟨hs, hrest⟩ := List.forall_mem_cons.1 hbody
    rw [isolateBody]
    split
    · split
      · rename_i v names₁ hget
        obtain ⟨hnames₁, -, hstands, -⟩ := Names.Sound.get? hnames trivial hget
        have hv : v.isNonterminal = true := hstands.isNonterminal hg hnames₁
        obtain ⟨hedits, hresult⟩ := ih hnames₁ hrest
        exact ⟨List.forall_mem_cons.2 ⟨⟨hv, List.forall_mem_singleton.2 hs⟩, hedits⟩,
          hresult.cons (isAdmissible_of_isNonterminal hv)⟩
      · refine ⟨by simp, fun names' body' heq => ?_⟩
        contradiction
    · obtain ⟨hedits, hresult⟩ := ih hnames hrest
      exact ⟨hedits, hresult.cons hs⟩

lemma isolateProductions_admissible (hg : g.Admissible) (hnames : g.Accounts names)
    (hps : ∀ p ∈ ps, p.Admissible) : ∀ e ∈ (isolateProductions names ps).1, e.Admissible := by
  induction ps generalizing names with
  | nil => simp [isolateProductions]
  | cons p ps ih =>
    obtain ⟨hp, hrest⟩ := List.forall_mem_cons.1 hps
    obtain ⟨hedits, hresult⟩ := isolateBody_admissible hg hnames hp.2
    rw [isolateProductions]
    split
    · rename_i edits names' body hisolate
      rw [hisolate] at hedits hresult
      obtain ⟨hnames', hbody⟩ := hresult names' body rfl
      refine List.forall_mem_append.2 ⟨hedits, List.forall_mem_cons.2 ⟨hp, ?_⟩⟩
      exact List.forall_mem_cons.2 ⟨⟨hp.1, hbody⟩, ih hnames' hrest⟩
    · rename_i edits s hisolate
      rw [hisolate] at hedits
      exact hedits

end

lemma Admissible.events_binarize (hg : g.Admissible) : AdmissibleLog g.binarize.events :=
  Stage.admissible_pass hg <| splitProductions_admissible hg (accounts_ofGrammar g)
    fun p hp => hg.production (mem_of_mem_filter_listing p hp)

lemma Admissible.events_isolateTerminals (hg : g.Admissible) :
    AdmissibleLog g.isolateTerminals.events :=
  Stage.admissible_pass hg <| isolateProductions_admissible hg (accounts_ofGrammar g)
    fun p hp => hg.production (mem_of_mem_filter_listing p hp)

/-! ### Pipelines -/

lemma admissible_andThenOk {ε α β : Type} {x : Logged (Except ε α)}
    {next : α → Logged (Except ε β)} (hx : AdmissibleLog x.events)
    (hnext : ∀ a, x.value = .ok a → AdmissibleLog (next a).events) :
    AdmissibleLog (x.andThenOk next).events := by
  rw [Logged.andThenOk, Logged.events_andThen]
  refine hx.append ?_
  cases hvalue : x.value with
  | error e => simp [AdmissibleLog]
  | ok a => exact hnext a hvalue

lemma Admissible.events_simplify (hg : g.Admissible) : AdmissibleLog g.simplify.events := by
  refine admissible_andThenOk hg.events_eliminateEpsilon fun e he => ?_
  have hfree : e.Admissible := (epsilonFree_of_eliminateEpsilon he).admissible hg
  have hunits : e.eliminateUnits.value.Admissible := hfree.eliminateUnits
  rw [Logged.events_map, Logged.events_andThen, Logged.events_andThen, Logged.value_andThen]
  exact (hfree.events_eliminateUnits.append hunits.events_dropNonGenerating).append
    hunits.dropNonGenerating.events_dropUnreachable

lemma Admissible.events_normalize (hg : g.Admissible) : AdmissibleLog g.normalize.events := by
  refine admissible_andThenOk (admissible_andThenOk hg.events_binarize fun b hb => ?_)
    fun r hr => ?_
  · exact (hg.binarize hb).events_simplify
  · obtain ⟨b, hb, hr⟩ := Logged.value_andThenOk_eq_ok.1 hr
    exact (simple_of_simplify (hg.binarize hb) hr).admissible.events_isolateTerminals

/-- A transformation of a well-formed grammar tells of well-formed things, also if it fails. -/
theorem Admissible.events_run (hg : g.Admissible) (t : Transformation) :
    AdmissibleLog (t.run g).events := by
  cases t with
  | dropNonGenerating => exact hg.events_dropNonGenerating
  | dropUnreachable => exact hg.events_dropUnreachable
  | eliminateEpsilon => exact hg.events_eliminateEpsilon
  | eliminateUnits => exact hg.events_eliminateUnits
  | binarize => exact hg.events_binarize
  | isolateTerminals => exact hg.events_isolateTerminals
  | simplify => exact hg.events_simplify
  | normalize => exact hg.events_normalize

/-! ## Searches -/

section

variable {limit : Option Nat} {track : Bool} {cutoff : Cutoff} {rounds : Nat} {u v w : Form}

lemma Admissible.step (hg : g.Admissible) (hu : Form.Admissible u) (hstep : g.Step u v) :
    Form.Admissible v := by
  cases hstep with
  | @apply left right p hp =>
    obtain ⟨hleft, hright⟩ := List.forall_mem_append.1 hu
    refine List.forall_mem_append.2 ⟨List.forall_mem_append.2 ⟨hleft, hg.body p hp⟩, ?_⟩
    exact fun s hs => hright s (List.mem_cons_of_mem _ hs)

lemma Admissible.linked {chain : Derivation} (hg : g.Admissible)
    (hchain : Derivation.Linked g (u :: chain)) (hu : Form.Admissible u) :
    ∀ form ∈ u :: chain, Form.Admissible form := by
  induction chain generalizing u with
  | nil => exact List.forall_mem_singleton.2 hu
  | cons v chain ih => exact List.forall_mem_cons.2 ⟨hu, ih hchain.2 (hg.step hu hchain.1)⟩

/-- All forms of a derivation are made of symbols of the alphabets. -/
lemma Admissible.proves {chain : Derivation} (hg : g.Admissible)
    (hchain : Derivation.Proves g chain w) : ∀ form ∈ chain, Form.Admissible form := by
  cases chain with
  | nil => simp
  | cons u chain =>
    obtain rfl : u = [g.start] := Option.some.inj hchain.head
    exact hg.linked hchain.linked
      (List.forall_mem_singleton.2 (isAdmissible_of_isNonterminal hg.start))

/-- A node that is found can be told of, with or without its chain. -/
lemma Admissible.found {target : Option Form} {t : Node} {chain : Option Derivation}
    (hg : g.Admissible)
    (ht : t ∈ ((Space.ofGrammar g limit target).explore track cutoff rounds).found)
    (hchain : ∀ forms ∈ chain, Derivation.Proves g forms t.form) :
    (Action.found t.form chain).Admissible := by
  have hfinds := (Space.explore_sound Space.lengthens_ofGrammar track cutoff rounds).1 t ht
  exact ⟨fun s hs => isAdmissible_of_isTerminal (hfinds.isTerminal s hs),
    fun forms hforms => hg.proves (hchain forms hforms)⟩

/-- A node that is found with its chain can be told of with it. -/
lemma Admissible.found_chain {target : Option Form} {t : Node} (hg : g.Admissible)
    (ht : t ∈ ((Space.ofGrammar g limit target).explore true cutoff rounds).found) :
    (Action.found t.form (some (t.chain.getD []))).Admissible := by
  obtain ⟨chain, hchain, hproves, -⟩ := Space.proves_of_mem_found ht
  refine hg.found ht fun forms hforms => ?_
  rw [hchain, Option.getD_some, Option.mem_some_iff] at hforms
  rwa [← hforms]

lemma Admissible.events_words (hg : g.Admissible) :
    AdmissibleLog (g.words limit cutoff rounds).events := by
  rw [tells_words.events]
  refine List.forall_mem_cons.2 ⟨trivial, List.forall_mem_map.2 fun t ht => ?_⟩
  exact hg.found ht (by simp)

lemma Admissible.events_derivations (hg : g.Admissible) :
    AdmissibleLog (g.derivations limit cutoff rounds).events := by
  rw [tells_derivations.events]
  exact List.forall_mem_cons.2 ⟨trivial, List.forall_mem_map.2 fun _ ht => hg.found_chain ht⟩

lemma Admissible.events_derive (hg : g.Admissible) :
    AdmissibleLog (g.derive w cutoff rounds).events := by
  refine List.forall_mem_cons.2 ⟨trivial, fun event hevent => ?_⟩
  rw [Option.mem_toList, Option.map_eq_some_iff] at hevent
  obtain ⟨chain, hchain, rfl⟩ := hevent
  obtain ⟨t, hfirst, rfl⟩ := Option.map_eq_some_iff.1 hchain
  have ht := List.mem_of_mem_head? hfirst
  rw [← form_eq_of_mem_found ht]
  exact hg.found_chain ht

/-! ### Shortest words -/

/-- What is settled further has nothing but terminals in its settled part. -/
lemma isSettled_of_mem_settlements {candidates : List Candidate} {st : Settlement}
    (hcandidates : ∀ c ∈ candidates, ∀ s ∈ c.settled, s.isTerminal = true)
    (hst : st ∈ g.settlementsOf candidates) : g.IsSettled st := by
  obtain ⟨c, hc, hst⟩ := List.mem_flatMap.1 hst
  exact (of_mem_settle (hcandidates c hc) hst).2.2

/-- However the rounds end, they tell of words of terminals. -/
lemma admissible_settleRounds {candidates : List Candidate} {seen : Std.HashSet Candidate}
    {checks : Nat} (hcandidates : ∀ c ∈ candidates, ∀ s ∈ c.settled, s.isTerminal = true) :
    AdmissibleLog (g.settleRounds cutoff rounds candidates seen checks).events := by
  fun_induction settleRounds g cutoff rounds candidates seen checks with
  | case1 => simp [AdmissibleLog]
  | case2 => simp [AdmissibleLog]
  | case3 => simp [AdmissibleLog]
  | case4 rounds candidates seen checks _ _ table settlements _ seen' next hpush =>
    rename_i ih
    apply ih
    intro c hc
    have hmem := (mem_foldl_push (g.expansions settlements) ⟨seen, []⟩ c).2
    rw [hpush] at hmem
    have hexpansion : c ∈ g.expansions settlements := by simpa using (hmem.1 hc).imp_left And.left
    obtain ⟨settled, a, rest, hst, body, -, rfl⟩ := mem_expansions.1 hexpansion
    exact (isSettled_of_mem_settlements hcandidates hst).1
  | case5 rounds candidates seen checks _ _ table settlements =>
    refine List.forall_mem_map.2 fun w hw => ?_
    rw [mem_dropRepeats, Form.mem_sortShortlex] at hw
    have hterminal : ∀ s ∈ w, s.isTerminal = true :=
      isSettled_of_mem_settlements hcandidates (mem_settledWords.1 hw)
    exact ⟨fun s hs => isAdmissible_of_isTerminal (hterminal s hs), by simp⟩

/-- The search for shortest words tells of words of terminals, whatever the form of the grammar. -/
lemma events_shortestWords (g : Grammar) :
    AdmissibleLog (g.shortestWords cutoff rounds).events := by
  refine List.forall_mem_cons.2 ⟨trivial, ?_⟩
  split
  · simp
  · split
    · exact List.forall_mem_singleton.2 ⟨by simp [Form.Admissible], by simp⟩
    · exact admissible_settleRounds (by simp)

end

end Grammar

/-! ## Everything that can be watched -/

/-- What can be done with a grammar while someone watches: a transformation or a search, which may
be bounded in the length of words, be cut off, and give up after a number of rounds. -/
inductive Run where
  | transform (t : Transformation)
  | words (limit : Option Nat) (cutoff : Cutoff) (rounds : Nat)
  | derivations (limit : Option Nat) (cutoff : Cutoff) (rounds : Nat)
  | derive (word : Form) (cutoff : Cutoff) (rounds : Nat)
  | shortestWords (cutoff : Cutoff) (rounds : Nat)

/-- What is told of a run. -/
def Run.events (g : Grammar) : Run → List Event
  | transform t => (t.run g).events
  | words limit cutoff rounds => (g.words limit cutoff rounds).events
  | derivations limit cutoff rounds => (g.derivations limit cutoff rounds).events
  | derive word cutoff rounds => (g.derive word cutoff rounds).events
  | shortestWords cutoff rounds => (g.shortestWords cutoff rounds).events

/-- Whatever is done with a well-formed grammar, only well-formed things are told of. -/
theorem Run.admissible_events (hg : g.Admissible) (run : Run) : AdmissibleLog (run.events g) := by
  cases run with
  | transform t => exact hg.events_run t
  | words limit cutoff rounds => exact hg.events_words
  | derivations limit cutoff rounds => exact hg.events_derivations
  | derive word cutoff rounds => exact hg.events_derive
  | shortestWords cutoff rounds => exact g.events_shortestWords

end ContextFree
