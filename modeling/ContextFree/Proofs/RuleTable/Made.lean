import ContextFree.Proofs.RuleTable.Passes
import ContextFree.Proofs.Transformed

/-!
# Tables that can be had

A table is built from rules or read from a text, and transformed any number of times
(`RuleTable.Made`). These tables hold exactly the grammars that can be had
(`Grammar.made_iff_exists_table`), and none of them has an empty row, however often rows were opened
and closed on the way (`Made.fullRows`).

The main result is `Made.wellFormed`.
-/

namespace ContextFree

namespace RuleTable

variable {t u : RuleTable} {a : Symbol}

/-! ## Building -/

/-- Bodies are added until one of them has a symbol that belongs to neither alphabet. -/
lemma addBodies_eq (bodies : List Form) :
    t.addBodies a bodies =
      match bodies.findSome? fun body =>
          (body.find? fun s => !s.isAdmissible).map fun s => (s, body) with
      | some (s, body) => .error (.body s ⟨a, body⟩)
      | none => .ok (t.editAll ((bodies.map (Production.mk a)).map Edit.add)) := by
  induction bodies generalizing t with
  | nil => rfl
  | cons body bodies ih =>
    rw [addBodies, List.foldlM_cons, List.findSome?_cons]
    cases hfind : body.find? fun s => !s.isAdmissible with
    | some s => rfl
    | none => exact ih

/-- Rules are added as far as they pass the check. -/
lemma addRules_eq (rules : List (Symbol × List Form)) :
    t.addRules rules = (Grammar.checkRules rules).map fun ps => t.editAll (ps.map Edit.add) := by
  induction rules generalizing t with
  | nil => rfl
  | cons rule rules ih =>
    obtain ⟨a, bodies⟩ := rule
    rw [addRules, List.foldlM_cons, Grammar.checkRules]
    by_cases ha : a.isNonterminal = true
    · have hfirst := addBodies_eq (t := t) (a := a) bodies
      cases hfind : bodies.findSome? fun body =>
          (body.find? fun s => !s.isAdmissible).map fun s => (s, body) with
      | some found =>
        rw [hfind] at hfirst
        simp only [if_pos ha, hfirst]
        rfl
      | none =>
        rw [hfind] at hfirst
        simp only [if_pos ha, hfirst]
        refine ih.trans ?_
        cases Grammar.checkRules rules with
        | error x => rfl
        | ok ps => simp [Except.map, editAll_append]
    · simp only [if_neg ha]
      rfl

/-- The table of rules holds the grammar of the rules, and there is none where there is no
grammar. -/
theorem grammar_ofRules (start : Symbol) (rules : List (Symbol × List Form)) :
    (ofRules start rules).map grammar = Grammar.ofRules start rules := by
  rw [ofRules, Grammar.ofRules]
  split
  · rw [addRules_eq]
    cases Grammar.checkRules rules with
    | error x => rfl
    | ok ps =>
      refine congrArg Except.ok (Grammar.ext_productions ?_ fun p => ?_)
      · rw [grammar_editAll, Edit.start_foldl_apply (by simp)]
        rfl
      · rw [grammar_editAll, Edit.mem_foldl_apply (by simp)]
        simp
  · rfl

lemma mem_declaredRules {declarations : List Declaration} {rule : Symbol × List Form}
    (hrule : rule ∈ declaredRules declarations) :
    (∃ p ∈ Grammar.declaredProductions declarations, p.head = rule.1) ∧
      ∀ body, body ∈ rule.2 ↔
        (⟨rule.1, body⟩ : Production) ∈ Grammar.declaredProductions declarations := by
  obtain ⟨a, ha, rfl⟩ := List.mem_map.1 hrule
  refine ⟨by simpa using ha, fun body => ?_⟩
  simp only [List.mem_map, List.mem_filter, decide_eq_true_eq]
  constructor
  · rintro ⟨p, ⟨hp, rfl⟩, rfl⟩
    exact hp
  · exact fun hp => ⟨_, ⟨hp, rfl⟩, rfl⟩

/-- Taking the rules of a nonterminal together loses no production. -/
lemma mem_flatMap_declaredRules {declarations : List Declaration} {p : Production} :
    p ∈ ((declaredRules declarations).flatMap fun rule => rule.2.map (Production.mk rule.1)) ↔
      p ∈ Grammar.declaredProductions declarations := by
  rw [List.mem_flatMap]
  constructor
  · rintro ⟨rule, hrule, hp⟩
    obtain ⟨body, hbody, rfl⟩ := List.mem_map.1 hp
    exact ((mem_declaredRules hrule).2 body).1 hbody
  · intro hp
    have ha : p.head ∈ ((Grammar.declaredProductions declarations).map
        Production.head).eraseDups := by
      rw [List.mem_eraseDups]
      exact List.mem_map_of_mem hp
    have hrule := List.mem_map_of_mem (f := fun a => (a,
      ((Grammar.declaredProductions declarations).filter fun p => decide (p.head = a)).map
        Production.body)) ha
    exact ⟨_, hrule, List.mem_map.2 ⟨p.body, ((mem_declaredRules hrule).2 p.body).2 hp, rfl⟩⟩

lemma grammar_ofDeclarations {declarations : List Declaration}
    (hdecl : ∀ d ∈ declarations, d.Admissible) :
    (ofDeclarations declarations).map grammar =
      (Grammar.ofDeclarations declarations).mapError .inl := by
  unfold ofDeclarations
  cases hstarts : Grammar.declaredStarts declarations with
  | nil => simp [Grammar.ofDeclarations, hstarts, Except.map, Except.mapError]
  | cons start rest =>
    cases rest with
    | cons second rest => simp [Grammar.ofDeclarations, hstarts, Except.map, Except.mapError]
    | nil =>
      have hg : Grammar.ofDeclarations declarations =
          .ok ⟨start, .ofList (Grammar.declaredProductions declarations)⟩ := by
        rw [Grammar.ofDeclarations, hstarts]
      have hadm := Grammar.admissible_of_ofDeclarations hdecl hg
      have hdeclared : ∀ p ∈ Grammar.declaredProductions declarations, p.Admissible :=
        fun p hp =>
          ⟨hadm.head p (SortedSet.mem_ofList.2 hp), hadm.body p (SortedSet.mem_ofList.2 hp)⟩
      -- nothing that was read can be complained about
      have hcheck := @Grammar.checkRules_of_admissible (declaredRules declarations)
        (fun rule hrule body hbody => hdeclared _ (((mem_declaredRules hrule).2 body).1 hbody))
        (fun rule hrule => by
          obtain ⟨p, hp, hhead⟩ := (mem_declaredRules hrule).1
          exact hhead ▸ (hdeclared p hp).1)
      have hrules := grammar_ofRules start (declaredRules declarations)
      rw [Grammar.ofRules, if_pos hadm.start, hcheck] at hrules
      obtain ⟨t, ht, hgrammar⟩ := exists_of_map_eq_ok hrules
      show ((ofRules start (declaredRules declarations)).mapError Sum.inr).map grammar = _
      rw [hg, ht]
      refine congrArg Except.ok (hgrammar.trans (Grammar.ext_productions rfl fun p => ?_))
      simp only [SortedSet.mem_ofList, mem_flatMap_declaredRules]

/-- The table that is read from a text holds the grammar that is read from it. -/
theorem grammar_parse (text : String) :
    (parse text).map grammar = (Grammar.parse text).mapError .inl := by
  unfold parse Grammar.parse
  cases Grammar.relevantLines text.toList with
  | nil => rfl
  | cons line lines =>
    cases hlines : (line :: lines).mapM Declaration.ofLine? with
    | none => simp [hlines, Except.map, Except.mapError]
    | some declarations =>
      simp only [hlines]
      exact grammar_ofDeclarations
        (Declaration.forall_of_mapM_eq_some (fun _ _ => Declaration.admissible_of_ofLine?) hlines)

lemma fullRows_of_parse {text : String} (ht : parse text = .ok t) : t.FullRows := by
  unfold parse at ht
  split at ht
  · contradiction
  · split at ht
    · contradiction
    · unfold ofDeclarations at ht
      split at ht
      · contradiction
      · rename_i start _
        cases hrules : ofRules start (declaredRules _) with
        | error x => rw [hrules] at ht; contradiction
        | ok u =>
          rw [hrules] at ht
          obtain rfl := Except.ok.inj ht
          exact fullRows_of_ofRules hrules
      · contradiction

/-! ## What can be had -/

/-- The table was built, or it is the result of a transformation of such a table. -/
inductive Made : RuleTable → Prop
  | rules {start : Symbol} {rules : List (Symbol × List Form)} {t : RuleTable}
      (ht : ofRules start rules = .ok t) : Made t
  | text {text : String} {t : RuleTable} (ht : parse text = .ok t) : Made t
  | transformed {t u : RuleTable} (ht : Made t) {tr : Transformation}
      (hu : tr.onTable t = .ok u) : Made u

/-- However a table was made, none of its rows is empty. -/
theorem Made.fullRows (ht : t.Made) : t.FullRows := by
  induction ht with
  | rules ht => exact fullRows_of_ofRules ht
  | text ht => exact fullRows_of_parse ht
  | transformed _ hu ih => exact ih.transform hu

/-- What such a table holds is a grammar that can be had. -/
theorem Made.grammar (ht : t.Made) : t.grammar.Made := by
  induction ht with
  | @rules start rules t ht =>
    have hrules := grammar_ofRules start rules
    rw [ht] at hrules
    exact .built (.rules hrules.symm)
  | @text text t ht =>
    have htext := grammar_parse text
    rw [ht] at htext
    cases hg : Grammar.parse text with
    | error x => rw [hg] at htext; contradiction
    | ok g =>
      rw [hg] at htext
      obtain rfl := Except.ok.inj htext
      exact .built (.text hg)
  | @transformed t u ht tr hu ih =>
    have hrun := ht.fullRows.grammar_onTable tr
    rw [hu] at hrun
    exact .transformed ih hrun.symm

end RuleTable

/-- The grammars that can be had are those that the tables hold. -/
theorem Grammar.made_iff_exists_table {g : Grammar} :
    g.Made ↔ ∃ t : RuleTable, t.Made ∧ t.grammar = g := by
  constructor
  · intro hg
    induction hg with
    | @built g hg =>
      cases hg with
      | @rules start rules h =>
        obtain ⟨t, ht, hgrammar⟩ :=
          exists_of_map_eq_ok ((RuleTable.grammar_ofRules start rules).trans h)
        exact ⟨t, .rules ht, hgrammar⟩
      | @text text h =>
        have hparse := RuleTable.grammar_parse text
        rw [h] at hparse
        obtain ⟨t, ht, hgrammar⟩ := exists_of_map_eq_ok hparse
        exact ⟨t, .text ht, hgrammar⟩
    | @transformed g h hg tr hh ih =>
      obtain ⟨t, ht, rfl⟩ := ih
      obtain ⟨u, hu, hgrammar⟩ := exists_of_map_eq_ok ((ht.fullRows.grammar_onTable tr).trans hh)
      exact ⟨u, .transformed ht hu, hgrammar⟩
  · rintro ⟨t, ht, rfl⟩
    exact ht.grammar

namespace RuleTable

variable {t : RuleTable}

/-- However a table was made, its start symbol and the symbols with rows are nonterminals, no row is
without bodies, and every symbol of a body is a terminal or a nonterminal. -/
theorem Made.wellFormed (ht : t.Made) :
    t.start.isNonterminal = true ∧
    ∀ a bodies, t.rows.lookup a = some bodies →
      a.isNonterminal = true ∧ bodies ≠ ∅ ∧
      ∀ body ∈ bodies, ∀ s ∈ body, s.isTerminal = true ∨ s.isNonterminal = true := by
  have hadm := ht.grammar.admissible
  refine ⟨hadm.start, fun a bodies hrow => ?_⟩
  obtain rfl := row_of_lookup hrow
  have hp : ∀ body ∈ t.row a, (⟨a, body⟩ : Production) ∈ t.grammar.productions :=
    fun body hbody => mem_grammar.2 hbody
  have hne : (t.row a).Nonempty := ht.fullRows a (Finmap.mem_of_lookup_eq_some hrow)
  obtain ⟨body, hbody⟩ := hne
  exact ⟨hadm.head _ (hp body hbody), Finset.ne_empty_of_mem hbody,
    fun body hbody s hs => hadm.terminal_or_nonterminal (hp body hbody) hs⟩

/-- A table with a nonterminal that derives no word. -/
def lingering : RuleTable :=
  ⟨'S', List.toFinmap [⟨'S', {['A'], ['a']}⟩, ⟨'A', {['b', 'A']}⟩]⟩

/-- What is left of it: the row of that nonterminal is closed. -/
def settled : RuleTable := ⟨'S', List.toFinmap [⟨'S', {['a']}⟩]⟩

lemma made_settled : settled.Made := by
  have hrules : ofRules 'S' [('A', [['b', 'A']]), ('B', []), ('S', [['a'], ['A'], ['a']])] =
      .ok lingering := by decide +kernel
  have hdrop : Transformation.dropNonGenerating.onTable lingering = .ok settled := by
    decide +kernel
  exact .transformed (.rules hrules) hdrop

theorem wellFormed_settled :
    settled.Made ∧ settled.start.isNonterminal = true ∧
      ∀ a bodies, settled.rows.lookup a = some bodies →
        a.isNonterminal = true ∧ bodies ≠ ∅ ∧
        ∀ body ∈ bodies, ∀ s ∈ body, s.isTerminal = true ∨ s.isNonterminal = true :=
  ⟨made_settled, made_settled.wellFormed⟩

end RuleTable

end ContextFree
