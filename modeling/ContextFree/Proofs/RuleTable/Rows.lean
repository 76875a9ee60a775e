import ContextFree.Proofs.Built
import ContextFree.RuleTable.Build
import ContextFree.RuleTable.Transform

/-!
# No row is empty

Every change to a table keeps its rows from being empty (`FullRows.edit`), so whatever is built and
transformed has none (`FullRows.transform`), although rows are opened and closed while they are
visited.

A table without empty rows and the grammar that it holds say the same: an edit of one is the edit of
the other (`grammar_edit`), what is listed from one is listed from the other (`FullRows.heads_eq`,
`bodies_eq`), and there is only one such table for a grammar (`FullRows.eq_of_grammar_eq`).
-/

namespace ContextFree

/-- What each of the results of a fold has in common, if it succeeds. -/
lemma foldlM_invariant {ε α β : Type} (P : β → Prop) {f : β → α → Except ε β}
    (hf : ∀ b a b', P b → f b a = .ok b' → P b') {l : List α} {b b' : β} (hb : P b)
    (hl : l.foldlM f b = .ok b') : P b' := by
  induction l generalizing b with
  | nil =>
    obtain rfl : b = b' := Except.ok.inj hl
    exact hb
  | cons a l ih =>
    rw [List.foldlM_cons] at hl
    cases hfirst : f b a with
    | error e =>
      rw [hfirst] at hl
      contradiction
    | ok b₁ =>
      rw [hfirst] at hl
      exact ih (hf b a b₁ hb hfirst) hl

/-- The value that a successful result was made from. -/
lemma exists_of_map_eq_ok {ε α β : Type} {f : α → β} {x : Except ε α} {b : β}
    (hx : x.map f = .ok b) : ∃ a, x = .ok a ∧ f a = b := by
  cases x with
  | error e => contradiction
  | ok a => exact ⟨a, rfl, Except.ok.inj hx⟩

/-- Both steps of a successful sequence succeed. -/
lemma exists_of_bind_eq_ok {ε α β : Type} {x : Except ε α} {f : α → Except ε β} {b : β}
    (hx : (x >>= f) = .ok b) : ∃ a, x = .ok a ∧ f a = .ok b := by
  cases x with
  | error e => contradiction
  | ok a => exact ⟨a, rfl, hx⟩

namespace RuleTable

variable {σ : Type} {t u : RuleTable} {p : Production} {a : Symbol} {e : Edit}

/-- No row is without bodies. -/
def FullRows (t : RuleTable) : Prop := ∀ a ∈ t.rows, (t.row a).Nonempty

/-! ## Edits -/

lemma fullRows_empty (start : Symbol) : (empty start).FullRows :=
  fun _ ha => absurd ha Finmap.notMem_empty

/-- The row that is opened for a production holds its body afterwards. -/
lemma FullRows.add (ht : t.FullRows) (p : Production) : (t.add p).1.FullRows := by
  intro a ha
  rw [row_add]
  split
  · exact Finset.insert_nonempty ..
  · rename_i hne
    exact ht a ((mem_rows_add.1 ha).resolve_left hne)

/-- A row that loses its last body is closed. -/
lemma FullRows.remove (ht : t.FullRows) (p : Production) : (t.remove p).FullRows := by
  intro a ha
  rw [row_remove]
  by_cases hhead : a = p.head
  · by_cases hmem : p.head ∈ t.rows
    · rw [if_pos hhead, hhead, Finset.nonempty_iff_ne_empty]
      -- a row without bodies left would be closed
      intro hnone
      obtain ⟨bodies, hrow⟩ := Finmap.mem_iff.1 ha
      rw [hhead, lookup_remove_self hmem, if_pos hnone] at hrow
      contradiction
    · rw [remove_of_not_mem hmem, hhead] at ha
      exact absurd ha hmem
  · rw [if_neg hhead]
    refine ht a ?_
    rwa [← Finmap.lookup_isSome, ← lookup_remove_of_ne hhead, Finmap.lookup_isSome]

/-- No edit leaves a row without bodies. -/
theorem FullRows.edit (ht : t.FullRows) (e : Edit) : (t.edit e).FullRows := by
  cases e with
  | add p => exact ht.add p
  | retain p => exact ht.add p
  | remove p => exact ht.remove p
  | restart s => exact ht

theorem FullRows.editAll (ht : t.FullRows) (edits : List Edit) : (t.editAll edits).FullRows := by
  induction edits generalizing t with
  | nil => exact ht
  | cons e edits ih => exact ih (ht.edit e)

/-! ## Building -/

lemma FullRows.addBodies {bodies : List Form} (ht : t.FullRows)
    (hu : t.addBodies a bodies = .ok u) : u.FullRows := by
  refine foldlM_invariant FullRows (fun t body u ht hu => ?_) ht hu
  split at hu
  · contradiction
  · obtain rfl := Except.ok.inj hu
    exact ht.add _

/-- A rule without bodies opens no row. -/
lemma FullRows.addRules {rules : List (Symbol × List Form)} (ht : t.FullRows)
    (hu : t.addRules rules = .ok u) : u.FullRows := by
  refine foldlM_invariant FullRows (fun t rule u ht hu => ?_) ht hu
  simp only at hu
  split at hu
  · exact ht.addBodies hu
  · contradiction

theorem fullRows_of_ofRules {start : Symbol} {rules : List (Symbol × List Form)}
    (ht : ofRules start rules = .ok t) : t.FullRows := by
  unfold ofRules at ht
  split at ht
  · exact (fullRows_empty start).addRules ht
  · contradiction

/-! ## Transformations -/

lemma FullRows.visitRow {step : Step σ} {s s' : σ} {bodies : List Form} (ht : t.FullRows)
    (hu : visitRow step a (s, t) bodies = .ok (s', u)) : u.FullRows := by
  refine foldlM_invariant (fun state : σ × RuleTable => state.2.FullRows)
    (fun state body state' ht hstate => ?_) ht hu
  obtain ⟨⟨edits, s⟩, -, rfl⟩ := exists_of_map_eq_ok hstate
  exact ht.editAll edits

lemma FullRows.visitRows {step : Step σ} {s s' : σ} {heads : List Symbol} (ht : t.FullRows)
    (hu : visitRows step (s, t) heads = .ok (s', u)) : u.FullRows :=
  foldlM_invariant (fun state : σ × RuleTable => state.2.FullRows)
    (fun _ _ _ ht hstate => ht.visitRow hstate) ht hu

/-- Whatever is done at the productions, no row is without bodies after the visit. -/
theorem FullRows.visit {step : Step σ} {s : σ} (ht : t.FullRows)
    (hu : t.visit step s = .ok u) : u.FullRows := by
  obtain ⟨⟨s', u⟩, hrows, rfl⟩ := exists_of_map_eq_ok hu
  exact ht.visitRows hrows

lemma FullRows.clone (ht : t.FullRows) : t.clone.FullRows := by rwa [clone_eq]

/-- A pass that has nothing to do leaves the copy as it is. -/
lemma FullRows.visit_unless {idle : Bool} {step : Step σ} {s : σ} (ht : t.FullRows)
    (hu : (if idle then .ok t else t.visit step s) = .ok u) : u.FullRows := by
  split at hu
  · obtain rfl := Except.ok.inj hu
    exact ht
  · exact ht.visit hu

lemma FullRows.dropNonGenerating (ht : t.FullRows) (hu : t.dropNonGenerating = .ok u) :
    u.FullRows :=
  ht.clone.visit_unless hu

lemma FullRows.dropUnreachable (ht : t.FullRows) (hu : t.dropUnreachable = .ok u) :
    u.FullRows :=
  ht.clone.visit_unless hu

lemma FullRows.giveEpsilon (ht : t.FullRows) (hu : t.giveEpsilon = .ok u) : u.FullRows := by
  obtain ⟨s, -, rfl⟩ := exists_of_map_eq_ok hu
  exact ht.editAll _

lemma FullRows.clearRow (ht : t.FullRows) (a : Symbol) : (t.clearRow a).FullRows := by
  unfold RuleTable.clearRow
  split
  · exact ht.remove _
  · exact ht

lemma FullRows.clearEpsilon (ht : t.FullRows) : t.clearEpsilon.FullRows := by
  unfold RuleTable.clearEpsilon
  generalize t.heads = heads
  induction heads generalizing t with
  | nil => exact ht
  | cons a heads ih => exact ih (ht.clearRow a)

lemma FullRows.eliminateEpsilon (ht : t.FullRows) (hu : t.eliminateEpsilon = .ok u) :
    u.FullRows := by
  rw [RuleTable.eliminateEpsilon] at hu
  split at hu
  · obtain rfl := Except.ok.inj hu
    exact ht.clone
  · obtain ⟨v, hvisit, hu⟩ := exists_of_bind_eq_ok hu
    have hv := ht.clone.visit hvisit
    split at hu
    · obtain ⟨w, hw, rfl⟩ := exists_of_map_eq_ok hu
      exact (hv.giveEpsilon hw).clearEpsilon
    · obtain rfl := Except.ok.inj hu
      exact hv.clearEpsilon

lemma FullRows.eliminateUnits (ht : t.FullRows) (hu : t.eliminateUnits = .ok u) :
    u.FullRows := by
  rw [RuleTable.eliminateUnits] at hu
  split at hu
  · obtain rfl := Except.ok.inj hu
    exact ht.clone
  · obtain rfl := Except.ok.inj hu
    exact ht.clone.editAll _

lemma FullRows.simplify (ht : t.FullRows) (hu : t.simplify = .ok u) : u.FullRows := by
  obtain ⟨v, hv, hu⟩ := exists_of_bind_eq_ok hu
  obtain ⟨w, hw, hu⟩ := exists_of_bind_eq_ok hu
  obtain ⟨x, hx, hu⟩ := exists_of_bind_eq_ok hu
  exact (((ht.eliminateEpsilon hv).eliminateUnits hw).dropNonGenerating hx).dropUnreachable hu

lemma FullRows.normalize (ht : t.FullRows) (hu : t.normalize = .ok u) : u.FullRows := by
  obtain ⟨v, hv, hu⟩ := exists_of_bind_eq_ok hu
  obtain ⟨w, hw, hu⟩ := exists_of_bind_eq_ok hu
  exact ((ht.clone.visit hv).simplify hw).clone.visit hu

/-- No transformation leaves a row without bodies. -/
theorem FullRows.transform (ht : t.FullRows) {tr : Transformation} (hu : tr.onTable t = .ok u) :
    u.FullRows := by
  cases tr with
  | dropNonGenerating => exact ht.dropNonGenerating hu
  | dropUnreachable => exact ht.dropUnreachable hu
  | eliminateEpsilon => exact ht.eliminateEpsilon hu
  | eliminateUnits => exact ht.eliminateUnits hu
  | binarize => exact ht.clone.visit hu
  | isolateTerminals => exact ht.clone.visit hu
  | simplify => exact ht.simplify hu
  | normalize => exact ht.normalize hu

/-! ## The grammar of a table -/

/-- An edit of the table is an edit of the grammar that it holds. -/
theorem grammar_edit : (t.edit e).grammar = e.apply t.grammar := by
  cases e with
  | add p | retain p =>
    refine Grammar.ext_productions start_add fun q => ?_
    rw [mem_grammar, edit, row_add]
    simp only [Edit.mem_apply_add, Edit.mem_apply_retain, mem_grammar]
    split
    · rename_i hhead
      rw [Finset.mem_insert]
      grind [Production]
    · grind [Production]
  | remove p =>
    refine Grammar.ext_productions start_remove fun q => ?_
    rw [mem_grammar, edit, row_remove, Edit.mem_apply_remove, mem_grammar]
    split
    · rename_i hhead
      rw [Finset.mem_erase]
      grind [Production]
    · grind [Production]
  | restart s => exact Grammar.ext_productions rfl fun q => by simp [edit, row]

theorem grammar_editAll (edits : List Edit) :
    (t.editAll edits).grammar = edits.foldl Edit.apply t.grammar := by
  induction edits generalizing t with
  | nil => rfl
  | cons e edits ih => rw [editAll_cons, ih, grammar_edit, List.foldl_cons]

/-- What adding tells is what is reported. -/
theorem action?_add (t : RuleTable) (p : Production) :
    (Edit.add p).action? t.grammar = if (t.add p).2 then some (.added p) else none := by
  rw [Edit.action?, snd_add, has]
  by_cases hp : p.body ∈ t.row p.head <;> simp [hp]

/-- Tables are equal if they have rows for the same symbols and the same bodies in them. -/
lemma ext_row (hstart : t.start = u.start) (hmem : ∀ a, a ∈ t.rows ↔ a ∈ u.rows)
    (hrow : ∀ a ∈ t.rows, t.row a = u.row a) : t = u := by
  have hrows : t.rows = u.rows := Finmap.ext_lookup fun a => by
    by_cases ha : a ∈ t.rows
    · rw [lookup_of_mem ha, lookup_of_mem ((hmem a).1 ha), hrow a ha]
    · rw [Finmap.lookup_eq_none.2 ha, Finmap.lookup_eq_none.2 (mt (hmem a).2 ha)]
  cases t
  cases u
  simp only [mk.injEq]
  exact ⟨hstart, hrows⟩

/-- Without empty rows, the symbols with rows are those with bodies. -/
lemma FullRows.mem_rows_iff (ht : t.FullRows) : a ∈ t.rows ↔ (t.row a).Nonempty :=
  ⟨ht a, fun ⟨_, hbody⟩ => mem_rows_of_mem_row hbody⟩

/-- There is only one table without empty rows for a grammar. -/
theorem FullRows.eq_of_grammar_eq (ht : t.FullRows) (hu : u.FullRows)
    (heq : t.grammar = u.grammar) : t = u := by
  have hrow : ∀ a, t.row a = u.row a := fun a => Finset.ext fun body => by
    rw [← @mem_grammar t ⟨a, body⟩, heq, mem_grammar]
  refine ext_row (congrArg Grammar.start heq) (fun a => ?_) fun a _ => hrow a
  rw [ht.mem_rows_iff, hu.mem_rows_iff, hrow]

end RuleTable

/-! ## Listings -/

namespace Grammar

variable {g : Grammar}

lemma ascending_bodies (g : Grammar) (a : Symbol) : Ascending (g.bodies a) := by
  rw [Ascending, bodies, List.pairwise_map]
  refine (g.productions.ascending.filter _).imp_of_mem fun {p q} hp hq hpq => ?_
  have hhead : p.head = q.head := by
    rw [of_decide_eq_true (List.mem_filter.1 hp).2, of_decide_eq_true (List.mem_filter.1 hq).2]
  simpa [Ordered.before, Production.before, hhead] using hpq

/-- The productions of some heads, head by head. -/
lemma flatMap_bodies_eq_filter (symbols : SortedSet Symbol) :
    (symbols.toList.flatMap fun a => (g.bodies a).map (Production.mk a)) =
      g.productions.toList.filter fun p => decide (p.head ∈ symbols) := by
  refine Ascending.eq_of_mem_iff ?_ (g.productions.ascending.filter _) fun p => ?_
  · refine List.pairwise_flatMap.2 ⟨fun a _ => ?_, symbols.ascending.imp fun {a b} hab => ?_⟩
    · refine List.pairwise_map.2 ((g.ascending_bodies a).imp fun hbefore => ?_)
      simpa [Ordered.before, Production.before] using hbefore
    · intro p hp q hq
      obtain ⟨u, -, rfl⟩ := List.mem_map.1 hp
      obtain ⟨v, -, rfl⟩ := List.mem_map.1 hq
      have hne : a ≠ b := by
        rintro rfl
        rw [Ordered.before_irrefl] at hab
        contradiction
      simpa [Ordered.before, Production.before, hne] using hab
  · simp only [List.mem_flatMap, SortedSet.mem_toList, List.mem_map, mem_bodies, List.mem_filter,
      decide_eq_true_eq]
    constructor
    · rintro ⟨a, ha, body, hp, rfl⟩
      exact ⟨hp, ha⟩
    · rintro ⟨hp, ha⟩
      exact ⟨p.head, ha, p.body, hp, rfl⟩

lemma map_bodies_eq_filter (a : Symbol) :
    (g.bodies a).map (Production.mk a) =
      g.productions.toList.filter fun p => decide (p.head = a) := by
  rw [bodies, List.map_map]
  refine (List.map_congr_left fun p hp => ?_).trans (List.map_id _)
  rw [Function.comp_apply, ← of_decide_eq_true (List.mem_filter.1 hp).2, id_eq]

/-- The listing goes through the heads in order, and through the bodies of each. -/
lemma listing_eq_flatMap :
    g.listing = g.heads.flatMap fun a => (g.bodies a).map (Production.mk a) := by
  have hhead : ∀ p ∈ g.productions.toList, p.head ∈ g.headSet :=
    fun p hp => mem_headSet.2 ⟨p, hp, rfl⟩
  rw [listing, heads]
  split
  · rw [List.flatMap_cons, map_bodies_eq_filter, flatMap_bodies_eq_filter]
    congr 1
    refine List.filter_congr fun p hp => ?_
    simp [hhead p hp]
  · rename_i hstart
    have hnone : (g.productions.toList.filter fun p => decide (p.head = g.start)) = [] := by
      rw [List.filter_eq_nil_iff]
      intro p hp heq
      exact hstart (of_decide_eq_true heq ▸ hhead p hp)
    rw [hnone, List.nil_append, flatMap_bodies_eq_filter]
    refine List.filter_congr fun p hp => ?_
    have hne : p.head ≠ g.start := fun heq => hstart (heq ▸ hhead p hp)
    simp [hhead p hp, hne]

end Grammar

namespace RuleTable

variable {t : RuleTable} {a : Symbol}

/-- The bodies of a symbol are those that its row holds. -/
theorem bodies_eq : t.bodies a = t.grammar.bodies a :=
  (SortedSet.ofFinset (t.row a)).ascending.eq_of_mem_iff (t.grammar.ascending_bodies a)
    fun body => by simp

/-- The symbols with rows are the heads of the productions. -/
lemma FullRows.ofFinset_keys (ht : t.FullRows) :
    SortedSet.ofFinset t.rows.keys = t.grammar.headSet := by
  refine SortedSet.ext fun a => ?_
  rw [SortedSet.mem_ofFinset, Finmap.mem_keys, Grammar.mem_headSet]
  constructor
  · intro ha
    obtain ⟨body, hbody⟩ := ht a ha
    exact ⟨⟨a, body⟩, mem_grammar.2 hbody, rfl⟩
  · rintro ⟨p, hp, rfl⟩
    exact mem_rows_of_mem_row (mem_grammar.1 hp)

theorem FullRows.heads_eq (ht : t.FullRows) : t.heads = t.grammar.heads := by
  rw [heads, ht.ofFinset_keys, Grammar.heads, start_grammar]

theorem FullRows.listing_eq (ht : t.FullRows) : t.listing = t.grammar.listing := by
  rw [listing, Grammar.listing_eq_flatMap, ht.heads_eq]
  simp only [bodies_eq]

theorem FullRows.nonterminals_eq (ht : t.FullRows) :
    t.nonterminals = t.grammar.nonterminals := by
  refine SortedSet.ext fun a => ?_
  have hkey : a ∈ t.rows ↔ ∃ p ∈ t.grammar.productions, p.head = a := by
    rw [← Grammar.mem_headSet, ← ht.ofFinset_keys, SortedSet.mem_ofFinset, Finmap.mem_keys]
  have hbody : (∃ p ∈ t.productions, a ∈ (p.body.filter Symbol.isNonterminal).toFinset) ↔
      ∃ p ∈ t.grammar.productions, a ∈ p.body ∧ a.isNonterminal = true := by
    simp
  rw [nonterminals, SortedSet.mem_ofFinset, Finset.mem_insert, Finset.mem_union, Finmap.mem_keys,
    Finset.mem_biUnion, hkey, hbody, Grammar.mem_nonterminals, start_grammar]
  refine or_congr_right ⟨?_, ?_⟩
  · rintro (⟨p, hp, rfl⟩ | ⟨p, hp, ha⟩)
    · exact ⟨p, hp, .inl rfl⟩
    · exact ⟨p, hp, .inr ha⟩
  · rintro ⟨p, hp, rfl | ha⟩
    · exact .inl ⟨p, hp, rfl⟩
    · exact .inr ⟨p, hp, ha⟩

lemma filterMap_soleBody? (heads : List Symbol) :
    (heads.filterMap fun a => (t.soleBody? a).map (Production.mk a)) =
      (heads.flatMap fun a => (t.grammar.bodies a).map (Production.mk a)).filter fun p =>
        t.grammar.bodies p.head == [p.body] := by
  induction heads with
  | nil => rfl
  | cons a heads ih =>
    rw [List.filterMap_cons, List.flatMap_cons, List.filter_append, ← ih, soleBody?, bodies_eq]
    have hrow : ∀ bodies : List Form, (bodies.map (Production.mk a)).filter (fun p =>
        t.grammar.bodies p.head == [p.body]) =
          (bodies.filter fun body => t.grammar.bodies a == [body]).map (Production.mk a) :=
      fun bodies => List.filter_map ..
    rw [hrow]
    match hbodies : t.grammar.bodies a with
    | [] => simp
    | [body] => simp
    | u :: v :: rest => simp

/-- Before any name is taken, the same nonterminals stand for the same bodies. -/
theorem FullRows.names_eq (ht : t.FullRows) : t.names = Names.ofGrammar t.grammar := by
  rw [names, Names.ofGrammar, ht.nonterminals_eq, filterMap_soleBody?, ht.heads_eq,
    Grammar.soleProductions, Grammar.listing_eq_flatMap]

end RuleTable

end ContextFree
