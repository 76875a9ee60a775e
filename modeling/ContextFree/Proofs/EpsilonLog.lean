import ContextFree.Proofs.EpsilonFree
import ContextFree.Proofs.FaithfulLog

/-!
# The log of removing empty bodies

Beside productions that come and go, `Grammar.eliminateEpsilon` may tell of a new start symbol.
`Grammar.follow?` takes all of that at its word and leads from the grammar to what the log makes of
it.

Start symbols are told whenever they change (`Edit.startAfter_applyAll`), and productions are told
unless they are retained. So the log can be silent about one production only: the empty body of a
start symbol that stays, but had none (`Grammar.GainsEmptyBody`). The main result,
`Grammar.follow_eliminateEpsilon`, says that the log leads to the result exactly if there is no such
production, and otherwise to the result without it.
-/

namespace ContextFree

variable {g r : Grammar} {stage : Stage} {s : Symbol}

/-! ## Following a log -/

/-- The start symbol after what an event tells. -/
def Event.startAfter (s : Symbol) (event : Event) : Symbol :=
  match event.action with
  | .startChanged t => t
  | _ => s

/-- The grammar that a log leads to, unless the log tells what can not have happened. -/
def Grammar.follow? (g : Grammar) (events : List Event) : Option Grammar :=
  (replay g.productions events).map fun productions =>
    { start := events.foldl Event.startAfter g.start, productions }

namespace Edit

variable {edits edits' : List Edit}

/-- Every change of the start symbol is told. -/
lemma startAfter_applyAll :
    (applyAll stage g edits).events.foldl Event.startAfter g.start =
      (edits.foldl apply g).start := by
  induction edits generalizing g with
  | nil => rfl
  | cons e edits ih =>
    have hstep : ((e.action? g).map (Event.mk stage)).toList.foldl Event.startAfter g.start =
        (e.apply g).start := by
      cases e with
      | add p => by_cases hp : p ∈ g.productions <;> simp [action?, apply, Event.startAfter, hp]
      | retain p => rfl
      | remove p => rfl
      | restart s => rfl
    rw [applyAll, List.foldl_append, hstep, ih, List.foldl_cons]

/-- The edits leave the productions that their log tells. -/
def Told (stage : Stage) (g : Grammar) (edits : List Edit) : Prop :=
  replay g.productions (applyAll stage g edits).events = some (edits.foldl apply g).productions

lemma Feasible.told (he : Feasible g edits) : Told stage g edits := by
  rw [Told, he.replay_applyAll, value_applyAll]

lemma told_restart : Told stage g [restart s] := rfl

lemma events_applyAll_append :
    (applyAll stage g (edits ++ edits')).events =
      (applyAll stage g edits).events ++ (applyAll stage (edits.foldl apply g) edits').events := by
  induction edits generalizing g with
  | nil => rfl
  | cons e edits ih =>
    rw [List.cons_append, applyAll, ih, applyAll, List.append_assoc, List.foldl_cons]

lemma Told.append (he : Told stage g edits) (he' : Told stage (edits.foldl apply g) edits') :
    Told stage g (edits ++ edits') := by
  rw [Told, events_applyAll_append, replay_append, he, List.foldl_append]
  exact he'

/-- What is told of removals does not depend on the grammar. -/
lemma events_applyAll_removes (ps : List Production) :
    (applyAll stage g (ps.map remove)).events = ps.map fun p => ⟨stage, .removed p⟩ := by
  induction ps generalizing g with
  | nil => rfl
  | cons p ps ih =>
    rw [List.map_cons, applyAll, ih]
    rfl

end Edit

/-- A stage that makes one note tells what its edits tell. -/
lemma Grammar.follow?_perform {name : SetName} {symbols : SortedSet Symbol} {edits : List Edit} :
    g.follow? (stage.perform [.computed name symbols] edits g).events =
      (replay g.productions (Edit.applyAll stage g edits).events).map fun productions =>
        { start := (edits.foldl Edit.apply g).start, productions } := by
  have hevents : (stage.perform [.computed name symbols] edits g).events =
      [⟨stage, .started⟩, ⟨stage, .computed name symbols⟩] ++
        (Edit.applyAll stage g edits).events ++
        [⟨stage, .finished (Edit.applyAll stage g edits).value⟩] := rfl
  have hends : replay g.productions (stage.perform [.computed name symbols] edits g).events =
      replay g.productions (Edit.applyAll stage g edits).events := by
    rw [hevents, replay_append, replay_append]
    exact Option.bind_fun_some _
  have hstart : (stage.perform [.computed name symbols] edits g).events.foldl
      Event.startAfter g.start = (edits.foldl Edit.apply g).start := by
    rw [hevents, List.foldl_append, List.foldl_append]
    exact Edit.startAfter_applyAll
  rw [follow?, hends, hstart]

namespace Grammar

/-! ## The plan of the pass -/

/-- The edits of the pass, for a given start symbol of the result. -/
def contraction (g : Grammar) (restart : List Edit) (s : Symbol) : List Edit :=
  g.shortenings.map Edit.add ++ restart ++ g.epsilonRemovals s

lemma foldl_contraction {restart : List Edit} :
    (g.contraction restart s).foldl Edit.apply g = g.contractAt restart s := rfl

/-- The log is about the plan, and the plan depends on what becomes of the start symbol. -/
lemma eliminateEpsilon_eq (hr : g.eliminateEpsilon.value = .ok r) :
    (g.start ∉ g.nullable ∧
      g.eliminateEpsilon = (Stage.eliminateEpsilon.skip [] g).map .ok) ∨
    ∃ restart s, g.eliminateEpsilon = (Stage.eliminateEpsilon.perform
        [.computed .nullable g.nullable] (g.contraction restart s) g).map .ok ∧
      ((g.start ∉ g.nullable ∧ restart = []) ∨
        (g.start ∈ g.nullable ∧ g.epsilonStart = .ok s ∧ restart = g.epsilonRestart s)) := by
  unfold eliminateEpsilon at hr ⊢
  dsimp only at hr ⊢
  by_cases hnone : g.nullable.isEmpty = true
  · rw [if_pos hnone]
    exact .inl ⟨SortedSet.isEmpty_iff.1 hnone g.start, rfl⟩
  · rw [if_neg hnone] at hr ⊢
    right
    by_cases hstart : g.start ∈ g.nullable
    · rw [if_pos hstart] at hr ⊢
      cases hs : g.epsilonStart with
      | error e =>
        rw [hs] at hr
        contradiction
      | ok s => exact ⟨_, s, rfl, .inr ⟨hstart, rfl, rfl⟩⟩
    · rw [if_neg hstart]
      refine ⟨[], g.start, ?_, .inl ⟨hstart, rfl⟩⟩
      rw [contraction, List.append_nil]

/-- If what becomes of the start symbol is told, so is everything else: the empty bodies are still
there when they are to be removed. -/
lemma told_contraction {restart : List Edit} (hremove : ∀ q, Edit.remove q ∉ restart)
    (hrestart : Edit.Told stage ((g.shortenings.map Edit.add).foldl Edit.apply g) restart) :
    Edit.Told stage g (g.contraction restart s) := by
  have hadds : Edit.Feasible g (g.shortenings.map Edit.add) :=
    ⟨[], .of_adds (by simp), List.nodup_nil, by simp⟩
  refine (hadds.told.append hrestart).append (Edit.Feasible.told ⟨_, .removes _, ?_, ?_⟩)
  · exact g.productions.ascending.nodup.filter _
  · intro p hp
    have hkept : Edit.remove p ∉ g.shortenings.map Edit.add ++ restart := by
      simp [hremove p]
    rw [Edit.mem_foldl_apply fun h => absurd h hkept]
    exact .inr ⟨(List.mem_filter.1 hp).1, hkept⟩

lemma follow?_of_told {restart : List Edit}
    (htold : Edit.Told Stage.eliminateEpsilon g (g.contraction restart s))
    (heq : g.eliminateEpsilon = (Stage.eliminateEpsilon.perform
      [.computed .nullable g.nullable] (g.contraction restart s) g).map .ok) :
    g.follow? g.eliminateEpsilon.events = some (g.contractAt restart s) := by
  rw [heq, Logged.events_map, follow?_perform, htold]
  rfl

/-! ## The start symbol -/

/-- The grammar derives the empty word, from a start symbol that occurs in no body and has no empty
body. It is to get one. -/
structure GainsEmptyBody (g : Grammar) : Prop where
  vanishes : g.InLanguage []
  absent : ∀ p ∈ g.productions, g.start ∉ p.body
  lacks : (⟨g.start, []⟩ : Production) ∉ g.productions

lemma GainsEmptyBody.start_mem_nullable (hg : g.GainsEmptyBody) : g.start ∈ g.nullable :=
  mem_nullable_iff.2 (inLanguage_iff_yields.1 hg.vanishes)

/-- A start symbol stays exactly if it occurs in no body. -/
lemma epsilonStart_eq_start_iff :
    g.epsilonStart = .ok g.start ↔ ∀ p ∈ g.productions, g.start ∉ p.body := by
  constructor
  · intro hs
    rcases of_epsilonStart_eq_ok hs with ⟨-, habsent⟩ | ⟨hfresh, -⟩
    · exact habsent
    · exact absurd (mem_nonterminals.2 (.inl rfl)) hfresh
  · intro habsent
    have hoccurs : ¬g.occurs g.start = true := by simpa using habsent
    rw [epsilonStart, if_neg hoccurs]

/-- A new start symbol comes with its bodies. -/
lemma told_epsilonRestart (hs : s ≠ g.start) {h : Grammar} :
    Edit.Told stage h (g.epsilonRestart s) := by
  have hbodies : Edit.Feasible ((Edit.restart s).apply h) [.add ⟨s, []⟩, .add ⟨s, [g.start]⟩] :=
    ⟨[], .of_adds (by simp), List.nodup_nil, by simp⟩
  rw [epsilonRestart, if_neg hs]
  exact Edit.told_restart.append hbodies.told

/-- A retained production leaves no trace in the log. -/
lemma events_contraction_retain (p : Production) :
    (Edit.applyAll stage g (g.contraction [.retain p] s)).events =
      (Edit.applyAll stage g (g.contraction [] s)).events := by
  unfold contraction epsilonRemovals
  rw [Edit.events_applyAll_append, Edit.events_applyAll_append, Edit.events_applyAll_append,
    Edit.events_applyAll_append, Edit.events_applyAll_removes, Edit.events_applyAll_removes]
  rfl

/-- A start symbol that stays keeps its empty body or is given one. Nothing else comes of it. -/
lemma contractAt_epsilonRestart_start :
    g.contractAt (g.epsilonRestart g.start) g.start =
      (Edit.retain ⟨g.start, []⟩).apply (g.contractAt [] g.start) := by
  rw [epsilonRestart, if_pos rfl]
  refine ext_productions ?_ fun q => ?_
  · rw [start_contractAt (by simp [epsilonRemovals])]
    exact (start_contractAt (by simp [epsilonRemovals]) []).symm
  · rw [mem_contractAt (by simp) (by simp), Edit.mem_apply_retain,
      mem_contractAt (by simp) (by simp)]
    simp only [List.mem_singleton, reduceCtorEq, Edit.retain.injEq, false_or, List.not_mem_nil,
      or_false]
    exact or_left_comm

lemma mem_contractAt_nil :
    (⟨s, []⟩ : Production) ∈ (g.contractAt [] s).productions ↔
      (⟨s, []⟩ : Production) ∈ g.productions := by
  rw [mem_contractAt (by simp) (by simp)]
  simp [mem_shortenings]

/-- With a start symbol that stays, the log leads to the grammar in which it is given nothing. -/
lemma follow?_of_start_stays
    (heq : g.eliminateEpsilon = (Stage.eliminateEpsilon.perform [.computed .nullable g.nullable]
      (g.contraction (g.epsilonRestart g.start) g.start) g).map .ok) :
    g.follow? g.eliminateEpsilon.events = some (g.contractAt [] g.start) := by
  have htold : Edit.Told .eliminateEpsilon g (g.contraction [] g.start) :=
    told_contraction (by simp) rfl
  have hsilent : (Edit.applyAll .eliminateEpsilon g
      (g.contraction (g.epsilonRestart g.start) g.start)).events =
        (Edit.applyAll .eliminateEpsilon g (g.contraction [] g.start)).events := by
    rw [epsilonRestart, if_pos rfl, events_contraction_retain]
  rw [heq, Logged.events_map, follow?_perform, hsilent, htold, foldl_contraction,
    contractAt_epsilonRestart_start]
  rfl

/-! ## Main result -/

/-- The log leads to the result, or to what it would be if the start symbol were given nothing. -/
lemma follow?_eliminateEpsilon_cases (hr : g.eliminateEpsilon.value = .ok r) :
    (¬g.GainsEmptyBody ∧ g.follow? g.eliminateEpsilon.events = some r) ∨
    (g.GainsEmptyBody ∧ r = g.contractAt (g.epsilonRestart g.start) g.start ∧
      g.follow? g.eliminateEpsilon.events = some (g.contractAt [] g.start)) := by
  rcases eliminateEpsilon_eq hr with ⟨hstart, heq⟩ | ⟨restart, s, heq, hcases⟩
  · refine .inl ⟨fun hg => hstart hg.start_mem_nullable, ?_⟩
    rw [heq] at hr ⊢
    obtain rfl := Except.ok.inj hr
    rfl
  · obtain rfl : g.contractAt restart s = r := by
      rwa [heq, Logged.value_map, Stage.value_perform, Except.ok.injEq] at hr
    rcases hcases with ⟨hstart, rfl⟩ | ⟨hstart, hs, rfl⟩
    · refine .inl ⟨fun hg => hstart hg.start_mem_nullable, ?_⟩
      exact follow?_of_told (told_contraction (by simp) rfl) heq
    · -- only a start symbol that stays can be given something untold
      by_cases hnew : s = g.start
      · subst hnew
        rw [follow?_of_start_stays heq]
        by_cases hempty : (⟨g.start, []⟩ : Production) ∈ g.productions
        · -- the empty body was there all the time
          refine .inl ⟨fun hg => hg.lacks hempty, congrArg some ?_⟩
          rw [contractAt_epsilonRestart_start]
          refine ext_productions rfl fun q => ?_
          rw [Edit.mem_apply_retain, or_iff_right_of_imp]
          rintro rfl
          exact mem_contractAt_nil.2 hempty
        · have hvanishes : g.InLanguage [] :=
            inLanguage_iff_yields.2 (mem_nullable_iff.1 hstart)
          exact .inr ⟨⟨hvanishes, epsilonStart_eq_start_iff.1 hs, hempty⟩, rfl, rfl⟩
      · have hremove : ∀ q, Edit.remove q ∉ g.epsilonRestart s := by
          simp [epsilonRestart, hnew]
        refine .inl ⟨fun hg => hnew ?_, ?_⟩
        · rw [epsilonStart_eq_start_iff.2 hg.absent, Except.ok.injEq] at hs
          exact hs.symm
        · exact follow?_of_told (told_contraction hremove (told_epsilonRestart hnew)) heq

/-- Following the log of the pass that removes empty bodies leads to its result exactly if the start
symbol is not given an empty body that it did not have. Otherwise that body, of which no event
tells, is all that is missing. -/
theorem follow_eliminateEpsilon (hr : g.eliminateEpsilon.value = .ok r) :
    (g.follow? g.eliminateEpsilon.events = some r ↔ ¬g.GainsEmptyBody) ∧
    (g.GainsEmptyBody → r.start = g.start ∧ (⟨g.start, []⟩ : Production) ∈ r.productions ∧
      g.follow? g.eliminateEpsilon.events =
        some { r with productions := r.productions.erase ⟨g.start, []⟩ }) := by
  rcases follow?_eliminateEpsilon_cases hr with ⟨hnot, hfollow⟩ | ⟨hgains, rfl, hfollow⟩
  · exact ⟨iff_of_true hfollow hnot, fun hgains => absurd hgains hnot⟩
  · have hlacks : (⟨g.start, []⟩ : Production) ∉ (g.contractAt [] g.start).productions :=
      mem_contractAt_nil.not.2 hgains.lacks
    have hmem : (⟨g.start, []⟩ : Production) ∈
        (g.contractAt (g.epsilonRestart g.start) g.start).productions := by
      rw [contractAt_epsilonRestart_start]
      exact Edit.mem_apply_retain.2 (.inl rfl)
    rw [hfollow]
    refine ⟨iff_of_false (fun heq => hlacks ?_) (not_not_intro hgains), fun _ =>
      ⟨start_contractAt_restart, hmem, congrArg some ?_⟩⟩
    · rwa [Option.some.inj heq]
    · rw [contractAt_epsilonRestart_start]
      refine ext_productions rfl fun q => ?_
      rw [SortedSet.mem_erase, Edit.mem_apply_retain, or_and_right, and_not_self_iff, false_or,
        and_iff_left_of_imp]
      rintro hq rfl
      exact hlacks hq

/-- A grammar whose start symbol vanishes through another nonterminal only, and occurs in no
body. -/
def reticent : Grammar :=
  ⟨'S', .ofList [⟨'S', ['A']⟩, ⟨'A', ['a']⟩, ⟨'A', []⟩]⟩

/-- What is left of it, with the empty body of the start symbol. -/
def disclosed : Grammar :=
  ⟨'S', .ofList [⟨'S', []⟩, ⟨'S', ['A']⟩, ⟨'A', ['a']⟩]⟩

lemma eliminateEpsilon_reticent : reticent.eliminateEpsilon.value = .ok disclosed := by
  decide +kernel

/-- The log of one grammar leads to the result, with its new start symbol. That of another does
not. -/
theorem follow_shrinking_reticent :
    shrinking.eliminateEpsilon.value = .ok shrunk ∧
      shrinking.follow? shrinking.eliminateEpsilon.events = some shrunk ∧
      reticent.eliminateEpsilon.value = .ok disclosed ∧
      reticent.follow? reticent.eliminateEpsilon.events =
        some ⟨'S', .ofList [⟨'S', ['A']⟩, ⟨'A', ['a']⟩]⟩ := by
  have hoccurs : ¬shrinking.GainsEmptyBody := by
    intro hgains
    exact hgains.absent ⟨'S', ['S', 'A', 'B']⟩ (by decide +kernel) (by decide +kernel)
  have hgains : reticent.GainsEmptyBody := by
    refine ⟨?_, by decide +kernel, by decide +kernel⟩
    exact inLanguage_iff_yields.2 (mem_nullable_iff.1 (by decide +kernel))
  refine ⟨eliminateEpsilon_shrinking, (follow_eliminateEpsilon eliminateEpsilon_shrinking).1.2
    hoccurs, eliminateEpsilon_reticent, ?_⟩
  rw [((follow_eliminateEpsilon eliminateEpsilon_reticent).2 hgains).2.2]
  decide +kernel

/-- A log that does not lead to the result. -/
theorem not_follow_reticent :
    ¬∀ g r : Grammar, g.Built → g.eliminateEpsilon.value = .ok r →
      g.follow? g.eliminateEpsilon.events = some r := by
  intro hfollow
  have hbuilt : reticent.Built :=
    @Built.rules _ 'S' [('S', [['A']]), ('A', [['a'], []])] rfl
  have hlog := hfollow reticent disclosed hbuilt eliminateEpsilon_reticent
  exact absurd hlog (by decide +kernel)

end Grammar

end ContextFree
