import ContextFree.Event

/-!
# Edits

A transformation is planned from the grammar it is given and then carried out as a list of
edits. Carrying them out yields the changed grammar and the log of the edits. Adding a production
that is there leaves no trace; a removal is reported in any case, so it is up to the plan to remove
only what is there.
-/

namespace ContextFree

/-- A change to a grammar. -/
inductive Edit where
  /-- Adds a production. -/
  | add (p : Production)
  /-- Adds a production without telling. -/
  | retain (p : Production)
  /-- Removes a production. -/
  | remove (p : Production)
  /-- Changes the start symbol. -/
  | restart (s : Symbol)
deriving DecidableEq

namespace Edit

/-- The grammar after an edit. -/
def apply (g : Grammar) : Edit → Grammar
  | add p | retain p => { g with productions := g.productions.insert p }
  | remove p => { g with productions := g.productions.erase p }
  | restart s => { g with start := s }

@[simp] theorem mem_apply_add {g : Grammar} {p q : Production} :
    q ∈ ((add p).apply g).productions ↔ q = p ∨ q ∈ g.productions := SortedSet.mem_insert

@[simp] theorem mem_apply_retain {g : Grammar} {p q : Production} :
    q ∈ ((retain p).apply g).productions ↔ q = p ∨ q ∈ g.productions := SortedSet.mem_insert

@[simp] theorem mem_apply_remove {g : Grammar} {p q : Production} :
    q ∈ ((remove p).apply g).productions ↔ q ∈ g.productions ∧ q ≠ p := SortedSet.mem_erase

@[simp] theorem mem_apply_restart {g : Grammar} {s : Symbol} {q : Production} :
    q ∈ ((restart s).apply g).productions ↔ q ∈ g.productions := Iff.rfl

/-- What an edit of the grammar is reported as, if it is. -/
def action? (g : Grammar) : Edit → Option Action
  | add p => if p ∈ g.productions then none else some (.added p)
  | retain _ => none
  | remove p => some (.removed p)
  | restart s => some (.startChanged s)

/-- Carries out edits in order, in the name of a stage. -/
def applyAll (stage : Stage) (g : Grammar) : List Edit → Logged Grammar
  | [] => ⟨[], g⟩
  | edit :: edits =>
    let rest := applyAll stage (edit.apply g) edits
    ⟨((edit.action? g).map (Event.mk stage)).toList ++ rest.events, rest.value⟩

/-- The grammar after all edits is that of applying them one after the other. -/
theorem value_applyAll (stage : Stage) (g : Grammar) (edits : List Edit) :
    (applyAll stage g edits).value = edits.foldl apply g := by
  induction edits generalizing g with
  | nil => rfl
  | cons edit edits ih => exact ih (edit.apply g)

/-- If no edit removes a production that another one adds, the order of the edits does not
matter. -/
theorem mem_foldl_apply {g : Grammar} {edits : List Edit} {p : Production}
    (h : remove p ∈ edits → add p ∉ edits ∧ retain p ∉ edits) :
    p ∈ (edits.foldl apply g).productions ↔
      (add p ∈ edits ∨ retain p ∈ edits) ∨ p ∈ g.productions ∧ remove p ∉ edits := by
  induction edits generalizing g with
  | nil => simp
  | cons edit edits ih =>
    have hrest : remove p ∈ edits → add p ∉ edits ∧ retain p ∉ edits := by
      intro hr
      have := h (List.mem_cons_of_mem _ hr)
      simp only [List.mem_cons, not_or] at this
      exact ⟨this.1.2, this.2.2⟩
    rw [List.foldl_cons, ih hrest]
    cases edit with
    | add q => grind [mem_apply_add]
    | retain q => grind [mem_apply_retain]
    | remove q => grind [mem_apply_remove]
    | restart s => grind [mem_apply_restart]

theorem start_foldl_apply {g : Grammar} {edits : List Edit} (h : ∀ s, restart s ∉ edits) :
    (edits.foldl apply g).start = g.start := by
  induction edits generalizing g with
  | nil => rfl
  | cons edit edits ih =>
    rw [List.foldl_cons, ih fun s hs => h s (List.mem_cons_of_mem _ hs)]
    cases edit with
    | restart s => exact absurd (List.mem_cons_self ..) (h s)
    | add p => rfl
    | retain p => rfl
    | remove p => rfl

end Edit

namespace Stage

/-- The log of a stage that finds nothing to do. -/
def skip (stage : Stage) (notes : List Action) (g : Grammar) : Logged Grammar :=
  ⟨(Action.started :: notes ++ [Action.unchanged]).map (Event.mk stage), g⟩

/-- Carries out the edits of a stage, after the notes it has made. -/
def perform (stage : Stage) (notes : List Action) (edits : List Edit) (g : Grammar) :
    Logged Grammar :=
  let done := Edit.applyAll stage g edits
  ⟨(Action.started :: notes).map (Event.mk stage) ++ done.events ++
    [⟨stage, .finished done.value⟩], done.value⟩

@[simp] theorem value_skip (stage : Stage) (notes : List Action) (g : Grammar) :
    (stage.skip notes g).value = g := rfl

@[simp] theorem value_perform (stage : Stage) (notes : List Action) (edits : List Edit)
    (g : Grammar) : (stage.perform notes edits g).value = edits.foldl Edit.apply g :=
  Edit.value_applyAll stage g edits

/-- Carries out the edits of a stage that can not be completed: the log holds what was done
until then. -/
def abandon {ε : Type} (stage : Stage) (notes : List Action) (edits : List Edit) (g : Grammar)
    (e : ε) : Logged (Except ε Grammar) :=
  ⟨(Action.started :: notes).map (Event.mk stage) ++ (Edit.applyAll stage g edits).events,
    .error e⟩

end Stage

end ContextFree
