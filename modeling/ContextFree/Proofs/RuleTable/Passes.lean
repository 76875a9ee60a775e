import ContextFree.Proofs.Binarization
import ContextFree.Proofs.Isolation
import ContextFree.Proofs.RuleTable.Visits

/-!
# Transforming a table transforms its grammar

Each pass over a table makes of the grammar that it holds what the pass over that grammar makes of
it, and fails where that one does. The passes look at every production once, so this follows from
what is known about visits (`FullRows.grammar_visit`); what remains to be shown is that the steps
spare the rows of other heads, and that they plan the same edits.

The main result is `FullRows.grammar_onTable`.
-/

namespace ContextFree

variable {g : Grammar} {t u : RuleTable} {a s : Symbol} {p : Production} {edits : List Edit}

namespace RuleTable

/-! ## Useless nonterminals -/

lemma local_dropStep (doomed : Production → Bool) : (dropStep doomed).Local t fun _ => True := by
  intro s p edits s' _ _ hstep
  obtain ⟨rfl, -⟩ := Prod.mk.inj (Except.ok.inj hstep)
  refine ⟨trivial, fun e he => ?_⟩
  split at he
  · rw [List.mem_singleton.1 he]
    exact rfl
  · exact absurd he List.not_mem_nil

lemma plan_dropStep (doomed : Production → Bool) (ps : List Production) :
    (dropStep doomed).plan () ps = .ok ((ps.filter doomed).map Edit.remove, ()) := by
  induction ps with
  | nil => rfl
  | cons p ps ih =>
    have hstep : dropStep doomed () p = .ok (if doomed p then [.remove p] else [], ()) := rfl
    rw [Step.plan_cons_of_ok hstep, ih, List.filter_cons]
    split <;> rfl

/-- A pass that drops productions drops those of the grammar, or has nothing to do there either. -/
lemma FullRows.grammar_drop (ht : t.FullRows) {idle : Bool} {doomed : Production → Bool}
    {stage : Stage} {notes notes' : List Action} :
    (if idle then .ok t else t.visit (dropStep doomed) ()).map grammar =
      .ok (if idle then stage.skip notes t.grammar
        else stage.perform notes' ((t.grammar.listing.filter doomed).map .remove)
          t.grammar).value := by
  split
  · rfl
  · rw [ht.grammar_visit (local_dropStep doomed) trivial, plan_dropStep, Stage.value_perform]
    rfl

lemma FullRows.grammar_dropNonGenerating (ht : t.FullRows) :
    t.dropNonGenerating.map grammar = .ok t.grammar.dropNonGenerating.value := by
  rw [RuleTable.dropNonGenerating, clone_eq, ht.nonterminals_eq]
  exact ht.grammar_drop

lemma FullRows.grammar_dropUnreachable (ht : t.FullRows) :
    t.dropUnreachable.map grammar = .ok t.grammar.dropUnreachable.value := by
  rw [RuleTable.dropUnreachable, clone_eq, ht.nonterminals_eq]
  exact ht.grammar_drop

/-! ## Unit productions -/

lemma grammar_eliminateUnits :
    t.eliminateUnits.map grammar = .ok t.grammar.eliminateUnits.value := by
  rw [eliminateUnits, clone_eq, Grammar.eliminateUnits]
  dsimp only
  split
  · rfl
  · rw [Stage.value_perform]
    exact congrArg Except.ok (grammar_editAll _)

/-! ## Empty bodies -/

lemma local_shortenStep (nullable : SortedSet Symbol) :
    (shortenStep nullable).Local t fun _ => True := by
  intro s p edits s' _ _ hstep
  obtain ⟨rfl, -⟩ := Prod.mk.inj (Except.ok.inj hstep)
  refine ⟨trivial, fun e he => ?_⟩
  obtain ⟨body, -, rfl⟩ := List.mem_map.1 he
  exact .inl rfl

lemma plan_shortenStep (g : Grammar) :
    (shortenStep g.nullable).plan () g.listing = .ok (g.shortenings.map Edit.add, ()) := by
  unfold Grammar.shortenings
  generalize g.listing = ps
  induction ps with
  | nil => rfl
  | cons p ps ih =>
    rw [Step.plan_cons_of_ok rfl, ih, List.flatMap_cons, List.map_append, List.map_map]
    rfl

/-- The grammar with the shortened bodies, before the empty ones are removed. -/
lemma FullRows.grammar_shorten (ht : t.FullRows) :
    (t.visit (shortenStep t.grammar.nullable) ()).map grammar =
      .ok ((t.grammar.shortenings.map Edit.add).foldl Edit.apply t.grammar) := by
  rw [ht.grammar_visit (local_shortenStep _) trivial, plan_shortenStep]
  rfl

end RuleTable

namespace Grammar

lemma mem_foldl_shortenings {q : Production} :
    q ∈ ((g.shortenings.map Edit.add).foldl Edit.apply g).productions ↔
      q ∈ g.shortenings ∨ q ∈ g.productions := by
  rw [Edit.mem_foldl_apply (by simp)]
  simp

lemma start_foldl_shortenings :
    ((g.shortenings.map Edit.add).foldl Edit.apply g).start = g.start :=
  Edit.start_foldl_apply (by simp)

/-- What is left of a body has no symbol that the body does not have. -/
lemma exists_mem_of_mem_shortenings {q : Production} (hq : q ∈ g.shortenings) :
    ∃ p ∈ g.productions, p.head = q.head ∧ ∀ a ∈ q.body, a ∈ p.body := by
  obtain ⟨m, hp, -, hkept⟩ := exists_marking_of_mem_shortenings hq
  exact ⟨_, hp, rfl, fun a ha => (m.kept_sublist).subset (hkept ▸ ha)⟩

/-- The start symbol may be chosen before or after the bodies are shortened. -/
lemma epsilonStart_foldl_shortenings :
    ((g.shortenings.map Edit.add).foldl Edit.apply g).epsilonStart = g.epsilonStart := by
  set h := (g.shortenings.map Edit.add).foldl Edit.apply g with hh
  have hstart : h.start = g.start := start_foldl_shortenings
  have hmem : ∀ q, q ∈ h.productions ↔ q ∈ g.shortenings ∨ q ∈ g.productions :=
    fun q => mem_foldl_shortenings
  have hoccurs : ∀ a, h.occurs a = g.occurs a := by
    intro a
    rw [Bool.eq_iff_iff, occurs_iff, occurs_iff]
    constructor
    · rintro ⟨q, hq, ha⟩
      rcases (hmem q).1 hq with hq | hq
      · obtain ⟨p, hp, -, hbody⟩ := exists_mem_of_mem_shortenings hq
        exact ⟨p, hp, hbody a ha⟩
      · exact ⟨q, hq, ha⟩
    · rintro ⟨p, hp, ha⟩
      exact ⟨p, (hmem p).2 (.inr hp), ha⟩
  have hused : h.nonterminals = g.nonterminals := by
    refine SortedSet.ext fun a => ?_
    rw [mem_nonterminals, mem_nonterminals, hstart]
    refine or_congr_right ⟨?_, ?_⟩
    · rintro ⟨q, hq, ha⟩
      rcases (hmem q).1 hq with hq | hq
      · obtain ⟨p, hp, hhead, hbody⟩ := exists_mem_of_mem_shortenings hq
        exact ⟨p, hp, ha.imp (fun h => h.trans hhead.symm) (And.imp_left (hbody a))⟩
      · exact ⟨q, hq, ha⟩
    · rintro ⟨p, hp, ha⟩
      exact ⟨p, (hmem p).2 (.inr hp), ha⟩
  rw [epsilonStart, epsilonStart, hstart, hoccurs, hused]

lemma start_foldl_epsilonRestart {h : Grammar} (hstart : h.start = g.start) :
    ((g.epsilonRestart s).foldl Edit.apply h).start = s := by
  unfold epsilonRestart
  split
  · rename_i hs
    rw [Edit.start_foldl_apply (by simp), hstart, hs]
  · rfl

lemma epsilonRestart_congr {h : Grammar} (hstart : h.start = g.start) :
    h.epsilonRestart s = g.epsilonRestart s := by
  rw [epsilonRestart, epsilonRestart, hstart]

end Grammar

namespace RuleTable

lemma start_clearRow : (t.clearRow a).start = t.start := by
  unfold clearRow
  split
  · exact start_remove
  · rfl

lemma mem_clearRow : p ∈ (t.clearRow a).grammar.productions ↔
    p ∈ t.grammar.productions ∧ (p = ⟨a, []⟩ → a = t.start) := by
  unfold clearRow
  by_cases ha : a = t.start
  · simp [ha]
  · by_cases hempty : t.has a [] = true
    · have hremove : (t.remove ⟨a, []⟩).grammar = (Edit.remove ⟨a, []⟩).apply t.grammar :=
        @grammar_edit t (.remove ⟨a, []⟩)
      rw [if_pos (by simp [ha, hempty]), hremove, Edit.mem_apply_remove]
      simp [ha]
    · rw [if_neg (by simp [hempty])]
      refine (and_iff_left_of_imp fun hp heq => ?_).symm
      rw [heq, mem_grammar] at hp
      exact absurd (decide_eq_true hp) hempty

lemma start_foldl_clearRow (heads : List Symbol) : (heads.foldl clearRow t).start = t.start := by
  induction heads generalizing t with
  | nil => rfl
  | cons a heads ih => rw [List.foldl_cons, ih, start_clearRow]

lemma mem_foldl_clearRow (heads : List Symbol) :
    p ∈ (heads.foldl clearRow t).grammar.productions ↔
      p ∈ t.grammar.productions ∧ (p.head ∈ heads → p.body = [] → p.head = t.start) := by
  induction heads generalizing t with
  | nil => simp
  | cons a heads ih =>
    rw [List.foldl_cons, ih, mem_clearRow, start_clearRow]
    obtain ⟨b, body⟩ := p
    simp only [Production.mk.injEq, List.mem_cons]
    grind

/-- Only the start symbol keeps an empty body. -/
lemma mem_clearEpsilon : p ∈ t.clearEpsilon.grammar.productions ↔
    p ∈ t.grammar.productions ∧ (p.body = [] → p.head = t.start) := by
  rw [clearEpsilon, mem_foldl_clearRow]
  refine and_congr_right fun hp => forall_prop_of_true ?_
  exact mem_heads.2 (mem_rows_of_mem_row (mem_grammar.1 hp))

/-- Once the start symbol is settled, the empty bodies are removed as planned. -/
lemma grammar_clearEpsilon {restart : List Edit} (hu : u.grammar =
      (g.shortenings.map Edit.add ++ restart).foldl Edit.apply g) (hs : u.start = s)
    (hremove : ∀ q, Edit.remove q ∉ restart)
    (hhead : ∀ q, Edit.add q ∈ restart ∨ Edit.retain q ∈ restart → q.head = s) :
    u.clearEpsilon.grammar = g.contractAt restart s := by
  -- one looks for empty bodies at the end and the other in the beginning, so the edits differ
  refine Grammar.ext_productions ?_ fun q => ?_
  · rw [Grammar.contractAt, List.foldl_append, ← hu,
      Edit.start_foldl_apply (by simp [Grammar.epsilonRemovals]), start_grammar, start_grammar,
      clearEpsilon, start_foldl_clearRow]
  · have hmem : q ∈ u.grammar.productions ↔
        q ∈ g.shortenings ∨ (Edit.add q ∈ restart ∨ Edit.retain q ∈ restart) ∨
          q ∈ g.productions := by
      rw [hu, Edit.mem_foldl_apply (by simp [hremove])]
      simp [hremove, or_assoc]
    rw [mem_clearEpsilon, hmem, hs, Grammar.mem_contractAt hremove hhead]
    constructor
    · rintro ⟨hq | hq | hq, hempty⟩
      · exact .inl hq
      · exact .inr (.inl hq)
      · exact .inr (.inr ⟨hq, hempty⟩)
    · rintro (hq | hq | ⟨hq, hempty⟩)
      · exact ⟨.inl hq, fun hbody => absurd hbody (Grammar.mem_shortenings.1 hq).1⟩
      · exact ⟨.inr (.inl hq), fun _ => hhead q hq⟩
      · exact ⟨.inr (.inr hq), hempty⟩

lemma FullRows.epsilonStart_eq (ht : t.FullRows) : t.epsilonStart = t.grammar.epsilonStart := by
  rw [RuleTable.epsilonStart, ht.nonterminals_eq]
  rfl

/-- With shortened bodies, the start symbol is settled and the empty bodies are removed. -/
lemma FullRows.grammar_giveEpsilon (ht : t.FullRows)
    (hgrammar : t.grammar = (g.shortenings.map Edit.add).foldl Edit.apply g) :
    (t.giveEpsilon.map RuleTable.clearEpsilon).map grammar =
      g.epsilonStart.map fun s => g.contractAt (g.epsilonRestart s) s := by
  have hstart : t.grammar.start = g.start := by rw [hgrammar, Grammar.start_foldl_shortenings]
  have hchoice : t.epsilonStart = g.epsilonStart := by
    rw [ht.epsilonStart_eq, hgrammar, Grammar.epsilonStart_foldl_shortenings]
  rw [RuleTable.giveEpsilon, hchoice]
  cases g.epsilonStart with
  | error x => rfl
  | ok s =>
    refine congrArg Except.ok (grammar_clearEpsilon ?_ ?_ (fun q => ?_) fun q hq => ?_)
    · dsimp only
      rw [Grammar.epsilonRestart_congr hstart, grammar_editAll, hgrammar, List.foldl_append]
    · dsimp only
      rw [Grammar.epsilonRestart_congr hstart, ← start_grammar, grammar_editAll,
        Grammar.start_foldl_epsilonRestart hstart]
    · unfold Grammar.epsilonRestart
      split <;> simp
    · rcases Grammar.mem_epsilonRestart.1 hq with rfl | ⟨-, rfl⟩ <;> rfl

/-- Removing the empty bodies of a table removes those of its grammar. -/
theorem FullRows.grammar_eliminateEpsilon (ht : t.FullRows) :
    t.eliminateEpsilon.map grammar = t.grammar.eliminateEpsilon.value := by
  obtain ⟨v, hvisit, hv⟩ := exists_of_map_eq_ok ht.grammar_shorten
  have hfull : v.FullRows := ht.visit hvisit
  have hstart : v.start = t.grammar.start := by
    rw [← start_grammar, hv, Grammar.start_foldl_shortenings]
  rw [RuleTable.eliminateEpsilon, clone_eq, Grammar.eliminateEpsilon]
  dsimp only
  split
  · rfl
  · rw [hvisit]
    show Except.map grammar (if v.start ∈ t.grammar.nullable then _ else _) = _
    rw [hstart]
    split
    · refine (hfull.grammar_giveEpsilon hv).trans ?_
      cases hs : t.grammar.epsilonStart with
      | error x => rfl
      | ok s =>
        rw [Logged.value_map, Stage.value_perform]
        rfl
    · rw [Logged.value_map, Stage.value_perform]
      refine congrArg Except.ok ?_
      refine (@grammar_clearEpsilon t.grammar _ _ [] ?_ hstart (by simp) (by simp)).trans ?_
      · rw [List.append_nil, hv]
      · rw [Grammar.contractAt, List.append_nil]

/-! ## Long and mixed bodies -/

end RuleTable

/-- The edits of a plan that does not fail. -/
def planned : List Edit × Option Exhausted → Except Exhausted (List Edit)
  | (edits, none) => .ok edits
  | (_, some x) => .error x

lemma planned_append (first more : List Edit) (failure : Option Exhausted) :
    planned (first ++ more, failure) = (planned (more, failure)).map (first ++ ·) := by
  cases failure <;> rfl

/-- What is done first, and then as planned. -/
lemma Step.plan_cons_eq_planned {σ : Type} {step : Step σ} {s s' : σ} {first more : List Edit}
    {failure : Option Exhausted} {ps : List Production} (hstep : step s p = .ok (first, s'))
    (hrest : (step.plan s' ps).map Prod.fst = planned (more, failure)) :
    (step.plan s (p :: ps)).map Prod.fst = planned (first ++ more, failure) := by
  rw [Step.plan_cons_of_ok hstep, planned_append, ← hrest]
  cases step.plan s' ps <;> rfl

/-- A pass that replaces productions carries out its plan, if that does not fail. -/
lemma value_pass {stage : Stage} {ps : List Production} {plan : List Edit × Option Exhausted}
    (hempty : ps = [] → plan = ([], none)) :
    (stage.pass ps plan g).value = (planned plan).map fun edits => edits.foldl Edit.apply g := by
  unfold Stage.pass
  split
  · rename_i hnone
    rw [hempty (List.isEmpty_iff.1 hnone), Logged.value_map, Stage.value_skip]
    rfl
  · split
    · rw [Logged.value_map, Stage.value_perform]
      rfl
    · rfl

namespace RuleTable

variable {names names' : Names} {head : Symbol} {body : Form} {ps : List Production}

/-- An edit that adds a production to its own head, to a fresh nonterminal, or where it is. -/
lemma FullRows.spares_add (ht : t.FullRows) {q : Production}
    (hq : q.head = a ∨ q.head ∉ t.grammar.nonterminals ∨ q ∈ t.grammar.productions) :
    (Edit.add q).Spares t a := by
  refine hq.imp_right (Or.imp (fun hfresh hmem => hfresh ?_) mem_grammar.1)
  obtain ⟨body, hbody⟩ := ht q.head hmem
  exact Grammar.head_mem_nonterminals (p := ⟨q.head, body⟩) (mem_grammar.2 hbody)

/-- Splitting a body adds productions to its head and to fresh nonterminals. -/
lemma heads_splitBody (hs : names.Sound g fun _ => True)
    (hsplit : splitBody names head body = (edits, some names')) :
    names'.Sound g (fun _ => True) ∧
      ∀ e ∈ edits, ∃ q, e = .add q ∧ (q.head = head ∨ q.head ∉ g.nonterminals) := by
  fun_induction splitBody names head body generalizing edits names' with
  | case1 names head s t u rest v hfind =>
    simp only [Prod.mk.injEq, Option.some.injEq] at hsplit
    obtain ⟨rfl, rfl⟩ := hsplit
    exact ⟨hs, fun e he => ⟨_, List.mem_singleton.1 he, .inl rfl⟩⟩
  | case2 names head s t u rest hfind v names₁ htake edits₁ result hrec ih =>
    simp only [Prod.mk.injEq] at hsplit
    obtain ⟨rfl, rfl⟩ := hsplit
    have hs₁ := hs.take? trivial htake
    have hv : v ∉ g.nonterminals :=
      (hs₁.fresh ⟨v, t :: u :: rest⟩ (Names.given_of_take? htake ▸ List.mem_cons_self)).1
    obtain ⟨hs', hedits⟩ := ih hs₁ hrec
    refine ⟨hs', fun e he => ?_⟩
    rcases List.mem_cons.1 he with rfl | he
    · exact ⟨_, rfl, .inl rfl⟩
    · obtain ⟨q, rfl, hq | hq⟩ := hedits e he
      · exact ⟨q, rfl, .inr (hq ▸ hv)⟩
      · exact ⟨q, rfl, .inr hq⟩
  | case3 => simp at hsplit
  | case4 names head body hshort =>
    simp only [Prod.mk.injEq, Option.some.injEq] at hsplit
    obtain ⟨rfl, rfl⟩ := hsplit
    exact ⟨hs, fun e he => ⟨_, List.mem_singleton.1 he, .inl rfl⟩⟩

lemma FullRows.local_splitStep (ht : t.FullRows) :
    splitStep.Local t fun names => names.Sound t.grammar fun _ => True := by
  intro names p edits names' hs _ hstep
  unfold splitStep at hstep
  split at hstep
  · obtain ⟨rfl, rfl⟩ := Prod.mk.inj (Except.ok.inj hstep)
    exact ⟨hs, by simp⟩
  · split at hstep
    · rename_i edits₁ names₁ hsplit
      obtain ⟨rfl, rfl⟩ := Prod.mk.inj (Except.ok.inj hstep)
      obtain ⟨hs', hedits⟩ := heads_splitBody hs hsplit
      refine ⟨hs', List.forall_mem_cons.2 ⟨rfl, fun e he => ?_⟩⟩
      obtain ⟨q, rfl, hq⟩ := hedits e he
      exact ht.spares_add (hq.imp_right .inl)
    · contradiction

lemma plan_splitStep (names : Names) (ps : List Production) :
    (splitStep.plan names ps).map Prod.fst =
      planned (splitProductions names (ps.filter fun p => decide (2 < p.body.length))) := by
  induction ps generalizing names with
  | nil => rfl
  | cons p ps ih =>
    by_cases hlong : 2 < p.body.length
    · rw [List.filter_cons_of_pos (by simpa using hlong), splitProductions]
      rcases hsplit : splitBody names p.head p.body with ⟨edits, _ | names'⟩
      · have hstep : splitStep names p = .error (.splitting p) := by
          rw [splitStep, if_neg (by omega), hsplit]
        rw [Step.plan_cons_of_error hstep]
        rfl
      · have hstep : splitStep names p = .ok (.remove p :: edits, names') := by
          rw [splitStep, if_neg (by omega), hsplit]
        exact Step.plan_cons_eq_planned hstep (ih names')
    · have hstep : splitStep names p = .ok ([], names) := by
        rw [splitStep, if_pos (by omega)]
      rw [List.filter_cons_of_neg (by simpa using hlong)]
      exact Step.plan_cons_eq_planned hstep (ih names)

/-- What a pass plans at each production is what it plans for those that it replaces. -/
lemma FullRows.grammar_pass (ht : t.FullRows) {stage : Stage} {step : Step Names}
    {bad : Production → Bool} {replace : Names → List Production → List Edit × Option Exhausted}
    {Good : Form → Prop} (hlocal : step.Local t fun names => names.Sound t.grammar Good)
    (hplan : ∀ names ps,
      (step.plan names ps).map Prod.fst = planned (replace names (ps.filter bad)))
    (hempty : ∀ names, replace names [] = ([], none)) :
    (t.visit step t.names).map grammar =
      (stage.pass (t.grammar.listing.filter bad)
        (replace (Names.ofGrammar t.grammar) (t.grammar.listing.filter bad)) t.grammar).value := by
  rw [ht.names_eq, ht.grammar_visit hlocal (Names.sound_ofGrammar t.grammar Good),
    value_pass fun hnone => hnone ▸ hempty _, ← hplan]
  cases step.plan (Names.ofGrammar t.grammar) t.grammar.listing <;> rfl

lemma FullRows.grammar_binarize (ht : t.FullRows) :
    t.binarize.map grammar = t.grammar.binarize.value := by
  rw [RuleTable.binarize, clone_eq]
  exact ht.grammar_pass ht.local_splitStep plan_splitStep fun _ => rfl

/-- What stands for a terminal is a fresh nonterminal, or one that has it as its only body. -/
lemma FullRows.spares_add_of_stands {Good : Form → Prop} (ht : t.FullRows)
    (hs : names.Sound t.grammar Good) {v : Symbol} (hv : names.Stands v body) :
    (Edit.add ⟨v, body⟩).Spares t a := by
  rcases List.mem_append.1 hv with hv | hv
  · exact ht.spares_add (.inr (.inl (hs.fresh _ hv).1))
  · rw [hs.established] at hv
    exact ht.spares_add (.inr (.inr (Grammar.mem_soleProductions.1 hv).1))

lemma FullRows.local_isolateStep (ht : t.FullRows) :
    isolateStep.Local t fun names => names.Sound t.grammar Form.IsLetter := by
  intro names p edits names' hs _ hstep
  unfold isolateStep at hstep
  split at hstep
  · obtain ⟨rfl, rfl⟩ := Prod.mk.inj (Except.ok.inj hstep)
    exact ⟨hs, by simp⟩
  · split at hstep
    · rename_i edits₁ names₁ body hisolate
      obtain ⟨rfl, rfl⟩ := Prod.mk.inj (Except.ok.inj hstep)
      have hisolated := Grammar.isolateBody_isolated hs hisolate
      refine ⟨hisolated.sound, List.forall_mem_append.2 ⟨fun e he => ?_, ?_⟩⟩
      · obtain ⟨v, t, rfl, hv⟩ := hisolated.added e he
        exact ht.spares_add_of_stands hisolated.sound hv
      · rw [List.forall_mem_cons, List.forall_mem_singleton]
        exact ⟨rfl, .inl rfl⟩
    · contradiction

lemma plan_isolateStep (names : Names) (ps : List Production) :
    (isolateStep.plan names ps).map Prod.fst =
      planned (isolateProductions names (ps.filter Production.isMixed)) := by
  induction ps generalizing names with
  | nil => rfl
  | cons p ps ih =>
    have hcond : (p.body.length != 2 || !p.body.any Symbol.isTerminal) = !p.isMixed := by
      rw [Production.isMixed, Bool.not_and]
      rfl
    by_cases hmixed : p.isMixed = true
    · rw [List.filter_cons_of_pos hmixed, isolateProductions]
      rcases hisolate : isolateBody names p.body with ⟨edits, s | ⟨names', body⟩⟩
      · have hstep : isolateStep names p = .error (.isolating s p) := by
          rw [isolateStep, hcond, hmixed, if_neg (by simp), hisolate]
        rw [Step.plan_cons_of_error hstep]
        rfl
      · have hstep : isolateStep names p =
            .ok (edits ++ [.remove p, .add ⟨p.head, body⟩], names') := by
          rw [isolateStep, hcond, hmixed, if_neg (by simp), hisolate]
        refine (Step.plan_cons_eq_planned hstep (ih names')).trans ?_
        rw [List.append_assoc]
        rfl
    · have hstep : isolateStep names p = .ok ([], names) := by
        rw [isolateStep, hcond, if_pos (by simpa using hmixed)]
      rw [List.filter_cons_of_neg hmixed]
      exact Step.plan_cons_eq_planned hstep (ih names)

lemma FullRows.grammar_isolateTerminals (ht : t.FullRows) :
    t.isolateTerminals.map grammar = t.grammar.isolateTerminals.value := by
  rw [RuleTable.isolateTerminals, clone_eq]
  exact ht.grammar_pass ht.local_isolateStep plan_isolateStep fun _ => rfl

/-! ## Sequences of passes -/

/-- What holds of two steps holds of one after the other. -/
lemma grammar_bind {x : Except Exhausted RuleTable} {next : RuleTable → Except Exhausted RuleTable}
    {y : Logged (Except Exhausted Grammar)} {next' : Grammar → Logged (Except Exhausted Grammar)}
    (hx : x.map grammar = y.value)
    (hnext : ∀ u, x = .ok u → (next u).map grammar = (next' u.grammar).value) :
    (x >>= next).map grammar = (y.andThenOk next').value := by
  rw [Logged.andThenOk, Logged.value_andThen, ← hx]
  cases hresult : x with
  | error e => rfl
  | ok u => exact hnext u hresult

/-- The passes that can not fail, one after the other. -/
lemma FullRows.grammar_reduce (ht : t.FullRows) :
    (t.eliminateUnits >>= fun t => t.dropNonGenerating >>= RuleTable.dropUnreachable).map grammar =
      .ok ((t.grammar.eliminateUnits.andThen Grammar.dropNonGenerating).andThen
        Grammar.dropUnreachable).value := by
  obtain ⟨u, hu, hunits⟩ := exists_of_map_eq_ok (grammar_eliminateUnits (t := t))
  have hfull := ht.eliminateUnits hu
  obtain ⟨v, hv, hgenerating⟩ := exists_of_map_eq_ok hfull.grammar_dropNonGenerating
  have hreachable := (hfull.dropNonGenerating hv).grammar_dropUnreachable
  have hresult : (t.eliminateUnits >>= fun t => t.dropNonGenerating >>=
      RuleTable.dropUnreachable) = v.dropUnreachable := by
    rw [hu, ← show (u.dropNonGenerating >>= RuleTable.dropUnreachable) = v.dropUnreachable by
      rw [hv]; rfl]
    rfl
  rw [hresult, hreachable, hgenerating, hunits, Logged.value_andThen, Logged.value_andThen]

lemma FullRows.grammar_simplify (ht : t.FullRows) :
    t.simplify.map grammar = t.grammar.simplify.value :=
  grammar_bind ht.grammar_eliminateEpsilon fun _ hu => (ht.eliminateEpsilon hu).grammar_reduce

lemma FullRows.grammar_normalize (ht : t.FullRows) :
    t.normalize.map grammar = t.grammar.normalize.value := by
  have hreduced : (t.binarize >>= RuleTable.simplify).map grammar =
      (t.grammar.binarize.andThenOk Grammar.simplify).value :=
    grammar_bind ht.grammar_binarize fun u hu => (ht.clone.visit hu).grammar_simplify
  have hassoc : t.normalize = (t.binarize >>= RuleTable.simplify) >>= isolateTerminals := by
    rw [RuleTable.normalize]
    cases t.binarize <;> rfl
  rw [hassoc]
  refine grammar_bind hreduced fun u hu => ?_
  obtain ⟨v, hv, hu⟩ := exists_of_bind_eq_ok hu
  exact ((ht.clone.visit hv).simplify hu).grammar_isolateTerminals

/-- A transformation of a table makes of its grammar what the transformation of that grammar makes
of it, and fails where that one does. -/
theorem FullRows.grammar_onTable (ht : t.FullRows) (tr : Transformation) :
    (tr.onTable t).map grammar = (tr.run t.grammar).value := by
  cases tr with
  | dropNonGenerating => exact ht.grammar_dropNonGenerating
  | dropUnreachable => exact ht.grammar_dropUnreachable
  | eliminateEpsilon => exact ht.grammar_eliminateEpsilon
  | eliminateUnits => exact grammar_eliminateUnits
  | binarize => exact ht.grammar_binarize
  | isolateTerminals => exact ht.grammar_isolateTerminals
  | simplify => exact ht.grammar_simplify
  | normalize => exact ht.grammar_normalize

end RuleTable

end ContextFree
