import ContextFree.Proofs.RuleTable.Rows

/-!
# Visiting a table

A pass over a grammar plans its edits from the productions that are there in the beginning
(`Step.plan`), a pass over a table reads each row when its turn comes, after the edits for the rows
before it. Both come to the same if what is done for one row spares the rows of the other heads
(`Edit.Spares`): only the row that is visited and rows of fresh nonterminals change, and what any
other nonterminal is given it has. The main results are `visit_eq` and `FullRows.grammar_visit`.
-/

namespace ContextFree

variable {σ : Type} {step : Step σ} {I : σ → Prop} {t u : RuleTable} {a b : Symbol} {e : Edit}
  {s s' : σ} {edits : List Edit} {ps : List Production}

/-! ## Planning -/

/-- The edits of steps at productions one after the other. -/
def Step.plan (step : Step σ) : σ → List Production → Except Exhausted (List Edit × σ)
  | s, [] => .ok ([], s)
  | s, p :: ps => do
    let (edits, s) ← step s p
    (step.plan s ps).map (Prod.map (edits ++ ·) id)

namespace Step

variable {p : Production} {x : Exhausted}

lemma plan_cons_of_ok (hstep : step s p = .ok (edits, s')) :
    step.plan s (p :: ps) = (step.plan s' ps).map (Prod.map (edits ++ ·) id) := by
  rw [plan, hstep]
  rfl

lemma plan_cons_of_error (hstep : step s p = .error x) : step.plan s (p :: ps) = .error x := by
  rw [plan, hstep]
  rfl

lemma map_append_append (edits more : List Edit) (result : Except Exhausted (List Edit × σ)) :
    (result.map (Prod.map (more ++ ·) id)).map (Prod.map (edits ++ ·) id) =
      result.map (Prod.map (edits ++ more ++ ·) id) := by
  cases result with
  | error x => rfl
  | ok result => simp [Except.map, Prod.map]

lemma plan_append_of_ok (hplan : step.plan s ps = .ok (edits, s')) (qs : List Production) :
    step.plan s (ps ++ qs) = (step.plan s' qs).map (Prod.map (edits ++ ·) id) := by
  induction ps generalizing s edits with
  | nil =>
    obtain ⟨rfl, rfl⟩ := Prod.mk.inj (Except.ok.inj hplan)
    rw [List.nil_append]
    cases step.plan s qs <;> rfl
  | cons p ps ih =>
    cases hstep : step s p with
    | error x =>
      rw [plan_cons_of_error hstep] at hplan
      contradiction
    | ok result =>
      obtain ⟨first, s₁⟩ := result
      rw [plan_cons_of_ok hstep] at hplan
      obtain ⟨⟨more, s₂⟩, hmore, heq⟩ := exists_of_map_eq_ok hplan
      obtain ⟨rfl, rfl⟩ := Prod.mk.inj heq
      rw [List.cons_append, plan_cons_of_ok hstep, ih hmore, map_append_append]

lemma plan_append_of_error (hplan : step.plan s ps = .error x) (qs : List Production) :
    step.plan s (ps ++ qs) = .error x := by
  induction ps generalizing s with
  | nil => contradiction
  | cons p ps ih =>
    cases hstep : step s p with
    | error y =>
      rw [plan_cons_of_error hstep] at hplan
      rw [List.cons_append, plan_cons_of_error hstep, hplan]
    | ok result =>
      obtain ⟨first, s₁⟩ := result
      rw [plan_cons_of_ok hstep] at hplan
      cases hmore : step.plan s₁ ps with
      | error y =>
        rw [hmore] at hplan
        obtain rfl := Except.error.inj hplan
        rw [List.cons_append, plan_cons_of_ok hstep, ih hmore]
        rfl
      | ok result =>
        rw [hmore] at hplan
        contradiction

end Step

/-! ## What a visit leaves alone -/

/-- The edit, made for a head, spares the rows that the table has for other heads. -/
def Edit.Spares (t : RuleTable) (a : Symbol) : Edit → Prop
  | .add p | .retain p => p.head = a ∨ p.head ∉ t.rows ∨ p.body ∈ t.row p.head
  | .remove p => p.head = a
  | .restart _ => True

/-- From a state of a kind, the step leads to such a state again, and what is done at a production
spares the rows of other heads. -/
def Step.Local (step : Step σ) (t : RuleTable) (I : σ → Prop) : Prop :=
  ∀ s p edits s', I s → p.body ∈ t.row p.head → step s p = .ok (edits, s') →
    I s' ∧ ∀ e ∈ edits, e.Spares t p.head

namespace RuleTable

lemma row_edit_of_spares (he : e.Spares t a) (hb : b ∈ t.rows) (hne : b ≠ a)
    (hu : u.row b = t.row b) : (u.edit e).row b = t.row b := by
  have hadd : ∀ p : Production, (p.head = a ∨ p.head ∉ t.rows ∨ p.body ∈ t.row p.head) →
      (u.add p).1.row b = t.row b := by
    intro p hp
    rw [row_add, hu]
    split
    · rename_i hhead
      rcases hp with rfl | hnot | hmem
      · exact absurd hhead hne
      · exact absurd (hhead ▸ hb) hnot
      · rw [hhead, Finset.insert_eq_of_mem hmem]
    · rfl
  cases e with
  | add p => exact hadd p he
  | retain p => exact hadd p he
  | remove p =>
    obtain rfl : p.head = a := he
    rw [edit, row_remove, if_neg hne, hu]
  | restart s => exact hu

lemma row_editAll_of_spares (hedits : ∀ e ∈ edits, e.Spares t a) (hb : b ∈ t.rows) (hne : b ≠ a)
    (hu : u.row b = t.row b) : (u.editAll edits).row b = t.row b := by
  induction edits generalizing u with
  | nil => exact hu
  | cons e edits ih =>
    exact ih (fun e he => hedits e (List.mem_cons_of_mem _ he))
      (row_edit_of_spares (hedits e List.mem_cons_self) hb hne hu)

lemma map_carryOut_append (edits : List Edit) (result : Except Exhausted (List Edit × σ)) :
    (result.map (Prod.map (edits ++ ·) id)).map u.carryOut =
      result.map (u.editAll edits).carryOut := by
  cases result with
  | error x => rfl
  | ok result => simp [Except.map, carryOut, editAll_append]

/-- The bodies of a row are listed before the first of them is visited, so a row is visited as
planned. -/
lemma visitRow_eq (bodies : List Form) :
    visitRow step a (s, u) bodies =
      (step.plan s (bodies.map (Production.mk a))).map u.carryOut := by
  induction bodies generalizing s u with
  | nil => rfl
  | cons body bodies ih =>
    rw [visitRow, List.foldlM_cons, List.map_cons]
    cases hstep : step s ⟨a, body⟩ with
    | error x =>
      simp only [hstep, Step.plan_cons_of_error hstep]
      rfl
    | ok result =>
      obtain ⟨edits, s'⟩ := result
      simp only [hstep, Step.plan_cons_of_ok hstep]
      rw [map_carryOut_append]
      exact ih

/-- What is planned for one head spares the rows of the others. -/
lemma spares_of_plan (hlocal : step.Local t I) (hs : I s)
    (hps : ∀ p ∈ ps, p.head = a ∧ p.body ∈ t.row a) (hplan : step.plan s ps = .ok (edits, s')) :
    I s' ∧ ∀ e ∈ edits, e.Spares t a := by
  induction ps generalizing s edits with
  | nil =>
    obtain ⟨rfl, rfl⟩ := Prod.mk.inj (Except.ok.inj hplan)
    exact ⟨hs, by simp⟩
  | cons p ps ih =>
    obtain ⟨hp, hrest⟩ := List.forall_mem_cons.1 hps
    obtain ⟨rfl, hbody⟩ := hp
    cases hstep : step s p with
    | error x =>
      rw [Step.plan_cons_of_error hstep] at hplan
      contradiction
    | ok result =>
      obtain ⟨first, s₁⟩ := result
      rw [Step.plan_cons_of_ok hstep] at hplan
      obtain ⟨⟨more, s₂⟩, hmore, heq⟩ := exists_of_map_eq_ok hplan
      obtain ⟨rfl, rfl⟩ := Prod.mk.inj heq
      obtain ⟨hs₁, hfirst⟩ := hlocal s p first s₁ hs hbody hstep
      obtain ⟨hs₂, hspares⟩ := ih hs₁ hrest hmore
      exact ⟨hs₂, fun e he => (List.mem_append.1 he).elim (hfirst e) (hspares e)⟩

/-- As long as the rows that are left are those of the table, they are visited as planned. -/
lemma visitRows_eq (hlocal : step.Local t I) (hs : I s) {heads : List Symbol}
    (hnodup : heads.Nodup) (hheads : ∀ a ∈ heads, a ∈ t.rows ∧ u.row a = t.row a) :
    visitRows step (s, u) heads =
      (step.plan s (heads.flatMap fun a => (t.bodies a).map (Production.mk a))).map
        u.carryOut := by
  induction heads generalizing s u with
  | nil => rfl
  | cons a heads ih =>
    obtain ⟨⟨-, hrow⟩, hrest⟩ := List.forall_mem_cons.1 hheads
    obtain ⟨hnot, hnodup⟩ := List.nodup_cons.1 hnodup
    have hfirst : visitRow step a (s, u) (u.bodies a) =
        (step.plan s ((t.bodies a).map (Production.mk a))).map u.carryOut := by
      rw [visitRow_eq, bodies, bodies, hrow]
    rw [visitRows, List.foldlM_cons, List.flatMap_cons]
    simp only [hfirst]
    cases hplan : step.plan s ((t.bodies a).map (Production.mk a)) with
    | error x =>
      rw [Step.plan_append_of_error hplan]
      rfl
    | ok result =>
      obtain ⟨edits, s'⟩ := result
      have hps : ∀ p ∈ (t.bodies a).map (Production.mk a), p.head = a ∧ p.body ∈ t.row a := by
        intro p hp
        obtain ⟨body, hbody, rfl⟩ := List.mem_map.1 hp
        exact ⟨rfl, SortedSet.mem_ofFinset.1 hbody⟩
      obtain ⟨hs', hspares⟩ := spares_of_plan hlocal hs hps hplan
      -- the rows that are still to come have not changed
      have hrest' : ∀ b ∈ heads, b ∈ t.rows ∧ (u.editAll edits).row b = t.row b := by
        intro b hb
        have hne : b ≠ a := fun heq => hnot (heq ▸ hb)
        exact ⟨(hrest b hb).1, row_editAll_of_spares hspares (hrest b hb).1 hne (hrest b hb).2⟩
      rw [Step.plan_append_of_ok hplan, map_carryOut_append]
      exact ih hs' hnodup hrest'

lemma nodup_heads (t : RuleTable) : t.heads.Nodup := by
  rw [heads]
  split
  · refine List.nodup_cons.2 ⟨fun hmem => ?_, (SortedSet.ascending _).nodup⟩
    exact (SortedSet.mem_erase.1 hmem).2 rfl
  · exact (SortedSet.ascending _).nodup

lemma mem_heads : a ∈ t.heads ↔ a ∈ t.rows := by
  rw [← Finmap.mem_keys, ← SortedSet.mem_ofFinset, heads]
  split
  · rename_i hstart
    by_cases ha : a = t.start
    · simp [ha, hstart]
    · simp [ha]
  · rfl

/-- A table is visited as planned from the productions that it holds in the beginning. -/
theorem visit_eq (hlocal : step.Local t I) (hs : I s) :
    t.visit step s = (step.plan s t.listing).map fun result => t.editAll result.1 := by
  rw [visit, visitRows_eq hlocal hs t.nodup_heads fun a ha => ⟨mem_heads.1 ha, rfl⟩, listing]
  cases step.plan s (t.heads.flatMap fun a => (t.bodies a).map (Production.mk a)) with
  | error x => rfl
  | ok result => rfl

/-- The grammar after a visit. -/
theorem FullRows.grammar_visit (ht : t.FullRows) (hlocal : step.Local t I) (hs : I s) :
    (t.visit step s).map grammar = (step.plan s t.grammar.listing).map
      fun result => result.1.foldl Edit.apply t.grammar := by
  rw [visit_eq hlocal hs, ht.listing_eq]
  cases step.plan s t.grammar.listing with
  | error x => rfl
  | ok result => exact congrArg Except.ok (grammar_editAll _)

end RuleTable

end ContextFree
