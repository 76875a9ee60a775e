import ContextFree.Proofs.Binarization
import ContextFree.Proofs.Isolation
import ContextFree.Proofs.UnitFree
import ContextFree.Transform.NormalForm

/-!
# Logs that can be replayed

A pass tells what it does beside doing it. `replay` takes the log at its word: it adds and removes
what the log says, and gives up if a production that is said to come is already there, or one that
is said to go is not. The log of a pass is faithful if replaying it on the grammar leads to the
productions of the result.

Additions are told only where they change something, removals always. So what matters is the plan
of a pass: it removes productions of the grammar, each of them once (`Edit.Feasible`).
-/

namespace ContextFree

variable {g r : Grammar} {ps : SortedSet Production} {stage : Stage} {notes : List Action}

/-! ## Replaying -/

/-- The productions after what an event tells, unless it can not have happened. -/
def Event.replay? (ps : SortedSet Production) (event : Event) : Option (SortedSet Production) :=
  match event.action with
  | .added p => if p ∈ ps then none else some (ps.insert p)
  | .removed p => if p ∈ ps then some (ps.erase p) else none
  | _ => some ps

/-- The productions after everything that a log tells. -/
def replay (ps : SortedSet Production) (events : List Event) : Option (SortedSet Production) :=
  events.foldlM Event.replay? ps

lemma replay_append {events events' : List Event} :
    replay ps (events ++ events') = (replay ps events).bind fun qs => replay qs events' :=
  List.foldlM_append

/-- Whether an action tells of a production that comes or goes. -/
def Action.isChange : Action → Bool
  | .added _ | .removed _ => true
  | _ => false

/-- The rest of a log does not matter. -/
lemma replay_eq_self {events : List Event} (hevents : ∀ e ∈ events, e.action.isChange = false) :
    replay ps events = some ps := by
  induction events with
  | nil => rfl
  | cons e events ih =>
    have hstep : e.replay? ps = some ps := by
      have he := hevents e (by simp)
      unfold Event.replay?
      split
      · rename_i p hp
        rw [hp] at he
        contradiction
      · rename_i p hp
        rw [hp] at he
        contradiction
      · rfl
    rw [replay, List.foldlM_cons, hstep]
    exact ih fun e' he' => hevents e' (List.mem_cons_of_mem _ he')

/-- The log tells how one grammar was made from the other: replayed, it leads to the productions
of the result, and it calls the grammar unchanged only if it is. -/
structure Faithful (g r : Grammar) (events : List Event) : Prop where
  replayed : replay g.productions events = some r.productions
  unchanged : ∀ stage, ⟨stage, .unchanged⟩ ∈ events → r = g

/-! ## Carrying out a plan -/

namespace Edit

variable {e : Edit} {edits : List Edit} {ps : List Production}

lemma Removing.of_cons (he : Removing ps (e :: edits)) :
    (∃ q, e = add q ∧ Removing ps edits) ∨
      ∃ p qs, e = remove p ∧ ps = p :: qs ∧ Removing qs edits := by
  have hkind : ∀ e' ∈ edits, (∃ q, e' = add q) ∨ ∃ p, e' = remove p :=
    fun e' he' => he.kind e' (List.mem_cons_of_mem _ he')
  rcases he.kind e (by simp) with ⟨q, rfl⟩ | ⟨p, rfl⟩
  · exact .inl ⟨q, rfl, hkind, he.removed⟩
  · exact .inr ⟨p, _, rfl, he.removed.symm, hkind, rfl⟩

/-- The edits add productions and remove productions of the grammar, each of them once. -/
def Feasible (g : Grammar) (edits : List Edit) : Prop :=
  ∃ ps, Removing ps edits ∧ ps.Nodup ∧ ∀ p ∈ ps, p ∈ g.productions

/-- The first edit of a plan can be told as it is, and the others are a plan for what it leaves. -/
lemma Feasible.of_cons (he : Feasible g (e :: edits)) :
    ((∃ q, e = add q) ∨ ∃ p ∈ g.productions, e = remove p) ∧ Feasible (e.apply g) edits := by
  obtain ⟨ps, hremoving, hnodup, hps⟩ := he
  rcases hremoving.of_cons with ⟨q, rfl, hrest⟩ | ⟨p, qs, rfl, rfl, hrest⟩
  · exact ⟨.inl ⟨q, rfl⟩, ps, hrest, hnodup, fun p hp => mem_apply_add.2 (.inr (hps p hp))⟩
  · obtain ⟨hp, hqs⟩ := List.nodup_cons.1 hnodup
    refine ⟨.inr ⟨p, hps p (by simp), rfl⟩, qs, hrest, hqs, fun q hq => ?_⟩
    -- what is still to be removed differs from what was just removed
    refine mem_apply_remove.2 ⟨hps q (List.mem_cons_of_mem _ hq), ?_⟩
    rintro rfl
    exact hp hq

/-- What one edit tells leads to the productions that it leaves. -/
lemma replay_action? (he : (∃ q, e = add q) ∨ ∃ p ∈ g.productions, e = remove p) :
    replay g.productions ((e.action? g).map (Event.mk stage)).toList =
      some (e.apply g).productions := by
  rcases he with ⟨q, rfl⟩ | ⟨p, hp, rfl⟩
  · by_cases hq : q ∈ g.productions
    · have hsame : ((add q).apply g).productions = g.productions := by
        ext p
        rw [mem_apply_add, or_iff_right_of_imp]
        rintro rfl
        exact hq
      rw [action?, if_pos hq, hsame]
      rfl
    · simp [action?, replay, Event.replay?, hq, apply]
  · simp [action?, replay, Event.replay?, hp, apply]

/-- Replaying what the edits of a plan tell leads to the productions that they leave. -/
theorem Feasible.replay_applyAll (he : Feasible g edits) :
    replay g.productions (applyAll stage g edits).events =
      some (applyAll stage g edits).value.productions := by
  induction edits generalizing g with
  | nil => rfl
  | cons e edits ih =>
    obtain ⟨hfirst, hrest⟩ := he.of_cons
    rw [applyAll, replay_append, replay_action? hfirst]
    exact ih hrest

lemma unchanged_not_mem_applyAll {stage' : Stage} :
    ⟨stage', .unchanged⟩ ∉ (applyAll stage g edits).events := by
  induction edits generalizing g with
  | nil => exact List.not_mem_nil
  | cons e edits ih =>
    intro hmem
    rcases List.mem_append.1 hmem with hmem | hmem
    · rw [Option.mem_toList, Option.map_eq_some_iff] at hmem
      obtain ⟨action, haction, heq⟩ := hmem
      obtain rfl := (Event.mk.inj heq).2
      cases e with
      | add q => simp [action?] at haction
      | retain q => simp [action?] at haction
      | remove q => simp [action?] at haction
      | restart s => simp [action?] at haction
    · exact ih hmem

end Edit

/-! ## Passes -/

/-- Notes only say what was computed. -/
def Action.AreNotes (notes : List Action) : Prop :=
  ∀ note ∈ notes, ∃ name symbols, note = .computed name symbols

lemma Stage.faithful_skip (hnotes : Action.AreNotes notes) :
    Faithful g (stage.skip notes g).value (stage.skip notes g).events where
  replayed := by
    apply replay_eq_self
    intro e he
    obtain ⟨action, haction, rfl⟩ := List.mem_map.1 he
    simp only [List.mem_append, List.mem_cons, List.not_mem_nil, or_false] at haction
    rcases haction with (rfl | haction) | rfl
    · rfl
    · obtain ⟨name, symbols, rfl⟩ := hnotes action haction
      rfl
    · rfl
  unchanged _ _ := rfl

lemma Stage.faithful_perform {edits : List Edit} (hnotes : Action.AreNotes notes)
    (hedits : Edit.Feasible g edits) :
    Faithful g (stage.perform notes edits g).value (stage.perform notes edits g).events := by
  have hopening : ∀ e ∈ (Action.started :: notes).map (Event.mk stage),
      e.action.isChange = false ∧ e.action ≠ .unchanged := by
    intro e he
    obtain ⟨action, haction, rfl⟩ := List.mem_map.1 he
    rcases List.mem_cons.1 haction with rfl | haction
    · exact ⟨rfl, by simp⟩
    · obtain ⟨name, symbols, rfl⟩ := hnotes action haction
      exact ⟨rfl, by simp⟩
  refine ⟨?_, fun stage' hmem => ?_⟩
  · calc replay g.productions (stage.perform notes edits g).events
        = (replay g.productions (Edit.applyAll stage g edits).events).bind fun ps =>
            replay ps [⟨stage, .finished (Edit.applyAll stage g edits).value⟩] := by
          rw [Stage.perform, replay_append, replay_append,
            replay_eq_self fun e he => (hopening e he).1]
          rfl
      _ = some (stage.perform notes edits g).value.productions := by
          rw [hedits.replay_applyAll]
          rfl
  · -- neither the opening nor the edits nor the end say that nothing was done
    simp only [Stage.perform, List.mem_append, List.mem_singleton, Event.mk.injEq, reduceCtorEq,
      and_false, or_false] at hmem
    rcases hmem with hmem | hmem
    · exact absurd rfl (hopening _ hmem).2
    · exact absurd hmem Edit.unchanged_not_mem_applyAll

namespace Grammar

lemma nodup_listing (g : Grammar) : g.listing.Nodup :=
  (List.filter_append_perm _ _).nodup_iff.2 g.productions.ascending.nodup

/-- Whatever is added, productions of one kind can be removed in the order of the listing. -/
lemma feasible_of_removing {bad : Production → Bool} {edits : List Edit}
    (hedits : Edit.Removing (g.listing.filter bad) edits) : Edit.Feasible g edits :=
  ⟨_, hedits, g.nodup_listing.filter _, fun _ hp => mem_listing.1 (List.mem_filter.1 hp).1⟩

lemma faithful_dropNonGenerating (g : Grammar) :
    Faithful g g.dropNonGenerating.value g.dropNonGenerating.events := by
  unfold dropNonGenerating
  dsimp only
  split
  · exact Stage.faithful_skip (by simp [Action.AreNotes])
  · exact Stage.faithful_perform (by simp [Action.AreNotes])
      (feasible_of_removing (.removes _))

lemma faithful_dropUnreachable (g : Grammar) :
    Faithful g g.dropUnreachable.value g.dropUnreachable.events := by
  unfold dropUnreachable
  dsimp only
  split
  · exact Stage.faithful_skip (by simp [Action.AreNotes])
  · exact Stage.faithful_perform (by simp [Action.AreNotes])
      (feasible_of_removing (.removes _))

lemma nodup_unitProductions (g : Grammar) : g.unitProductions.Nodup := by
  unfold unitProductions
  refine List.nodup_flatMap.2 ⟨fun a _ => ?_, ?_⟩
  · exact (SortedSet.ascending _).nodup.map fun b c hbc => by simpa using hbc
  · refine (SortedSet.ascending _).nodup.imp fun {a b} hab p ha hb => ?_
    obtain ⟨c, -, rfl⟩ := List.mem_map.1 ha
    obtain ⟨d, -, hd⟩ := List.mem_map.1 hb
    exact hab (congrArg Production.head hd).symm

lemma faithful_eliminateUnits (g : Grammar) :
    Faithful g g.eliminateUnits.value g.eliminateUnits.events := by
  unfold eliminateUnits
  dsimp only
  split
  · exact Stage.faithful_skip (by simp [Action.AreNotes])
  · refine Stage.faithful_perform ?_ ⟨g.unitProductions, ?_, g.nodup_unitProductions, ?_⟩
    · intro note hnote
      obtain ⟨⟨a, reached⟩, -, rfl⟩ := List.mem_map.1 hnote
      exact ⟨_, _, rfl⟩
    · have hadds : Edit.Removing [] ((g.inherited g.unitClosure).map .add) :=
        .of_adds fun e he => by
          obtain ⟨q, -, rfl⟩ := List.mem_map.1 he
          exact ⟨q, rfl⟩
      exact hadds.append (.removes _)
    · intro p hp
      exact (mem_unitProductions.1 hp).1

/-- A pass that names bodies has a faithful log if it succeeds: its plan removes the productions of
one kind. -/
lemma faithful_of_pass {bad : Production → Bool} {plan : List Edit × Option Exhausted}
    (hplan : ∀ edits, plan = (edits, none) → Edit.Removing (g.listing.filter bad) edits)
    (hr : (stage.pass (g.listing.filter bad) plan g).value = .ok r) :
    Faithful g r (stage.pass (g.listing.filter bad) plan g).events := by
  have hnotes : Action.AreNotes [] := by simp [Action.AreNotes]
  unfold Stage.pass at hr ⊢
  by_cases hnone : (g.listing.filter bad).isEmpty
  · rw [if_pos hnone] at hr ⊢
    obtain rfl := Except.ok.inj hr
    exact Stage.faithful_skip hnotes
  · rw [if_neg hnone] at hr ⊢
    obtain ⟨edits, failure⟩ := plan
    cases failure with
    | none =>
      obtain rfl := Except.ok.inj hr
      exact Stage.faithful_perform hnotes (feasible_of_removing (hplan edits rfl))
    | some e => contradiction

lemma faithful_binarize (hr : g.binarize.value = .ok r) : Faithful g r g.binarize.events :=
  faithful_of_pass (fun _ => splitProductions_removing) hr

lemma faithful_isolateTerminals (hr : g.isolateTerminals.value = .ok r) :
    Faithful g r g.isolateTerminals.events := by
  refine faithful_of_pass (fun edits hplan => ?_) hr
  have hs := Names.sound_ofGrammar g Form.IsLetter
  obtain ⟨-, -, -, hremoving⟩ :=
    isolateProductions_replaces hs (fun p => mem_mixedProductions.1) hplan
  exact hremoving

end Grammar

/-- The passes that rewrite productions and keep the start symbol have faithful logs. The one that
removes empty bodies is not among them: it may give the start symbol one without telling. -/
theorem Transformation.faithful_run {t : Transformation}
    (ht : t ∈ [dropNonGenerating, dropUnreachable, eliminateUnits, binarize, isolateTerminals])
    (hr : (t.run g).value = .ok r) : Faithful g r (t.run g).events := by
  cases t with
  | dropNonGenerating =>
    obtain rfl := Except.ok.inj hr
    exact g.faithful_dropNonGenerating
  | dropUnreachable =>
    obtain rfl := Except.ok.inj hr
    exact g.faithful_dropUnreachable
  | eliminateUnits =>
    obtain rfl := Except.ok.inj hr
    exact g.faithful_eliminateUnits
  | binarize => exact Grammar.faithful_binarize hr
  | isolateTerminals => exact Grammar.faithful_isolateTerminals hr
  | eliminateEpsilon => simp at ht
  | simplify => simp at ht
  | normalize => simp at ht

theorem Transformation.faithful_run_chained :
    (Transformation.eliminateUnits.run Grammar.chained).value = .ok Grammar.unchained ∧
      Faithful Grammar.chained Grammar.unchained
        (Transformation.eliminateUnits.run Grammar.chained).events := by
  have hvalue : (Transformation.eliminateUnits.run Grammar.chained).value =
      .ok Grammar.unchained := congrArg Except.ok (by decide +kernel)
  exact ⟨hvalue, faithful_run (by decide) hvalue⟩

end ContextFree
