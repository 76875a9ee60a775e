import ContextFree.Proofs.Search.Exploration

/-!
# Tracking chains does not change a search

A search that tracks chains carries one in every node, replays every move and lets the start symbol
vanish step by step. If the chains are forgotten afterwards, what is left is the search that tracks
none: the same forms are brought forth in the same order, the same are met again, the same words are
found, and it is asked equally often whether to continue.

One step is the same (`map_forget_successors`, `Progress.forget_push`), hence so is a generation
(`forget_sweep`) and so are all of them (`forget_generations`). The result is `forget_explore`.
-/

namespace ContextFree

/-- The node without its chain. -/
def Node.forget (node : Node) : Node := { node with chain := none }

@[simp] lemma Node.form_forget (t : Node) : t.forget.form = t.form := rfl

@[simp] lemma Node.map_form_forget (ts : List Node) :
    (ts.map Node.forget).map Node.form = ts.map Node.form := by
  rw [List.map_map]
  rfl

/-- Moves that are not replayed leave no chain. -/
lemma Node.replay_false (erasers : List Production) (t : Node) (move : Move) :
    t.replay false erasers move = none := if_neg Bool.false_ne_true

/-- The progress without chains. -/
def Progress.forget (p : Progress) : Progress :=
  { p with found := p.found.map Node.forget, next := p.next.map Node.forget }

/-- What a search has to show, without chains. -/
def Outcome.forget (outcome : Outcome) : Outcome :=
  { outcome with found := outcome.found.map Node.forget }

namespace Progress

variable {p : Progress} {t : Node} {ts : List Node}

/-- Whether a node is pushed depends on its form alone. -/
lemma forget_push : (p.push t).forget = p.forget.push t.forget := by
  obtain ⟨checks, found, seen, next⟩ := p
  rw [push, forget, forget, push, Node.form_forget]
  split
  · rfl
  · rfl

lemma forget_foldl_push :
    (ts.foldl push p).forget = (ts.map Node.forget).foldl push p.forget := by
  induction ts generalizing p with
  | nil => rfl
  | cons t ts ih => rw [List.foldl_cons, ih, forget_push, List.map_cons, List.foldl_cons]

end Progress

namespace Space

variable {cutoff : Cutoff} {ts : List Node} {p : Progress}

/-- The same moves are made, and in the same order. -/
lemma map_forget_successors (space : Space) (track : Bool) (t : Node) :
    (space.successors track t).map Node.forget = space.successors false t.forget := by
  unfold successors
  rw [List.map_flatMap]
  refine List.flatMap_congr fun rule _ => ?_
  dsimp only [Node.form_forget]
  cases Form.splitAt? rule.1 t.form with
  | none => rfl
  | some around =>
    obtain ⟨left, right⟩ := around
    dsimp only
    rw [List.map_filterMap]
    refine List.filterMap_congr fun c _ => ?_
    rw [Node.replay_false]
    split
    · rfl
    · rfl

lemma reached_forget (cutoff : Cutoff) (checks : Nat) (found : List Node) :
    cutoff.reached checks (found.map Node.forget) = cutoff.reached checks found := by
  rw [Cutoff.reached, Cutoff.reached, List.length_map]

/-- A generation deals with the same forms and stops at the same one. -/
lemma forget_sweep (space : Space) (track : Bool) :
    space.sweep false cutoff (ts.map Node.forget) p.forget =
      ((space.sweep track cutoff ts p).1.forget, (space.sweep track cutoff ts p).2) := by
  induction ts generalizing p with
  | nil => rfl
  | cons t ts ih =>
    obtain ⟨checks, found, seen, next⟩ := p
    -- what is asked about a node is asked about its form
    rw [List.map_cons, Progress.forget, sweep, sweep, reached_forget, Node.form_forget]
    split
    · rfl
    · split
      · split
        · split
          · rfl
          · exact ih (p := ⟨checks + 1, t :: found, seen, next⟩)
        · exact ih (p := ⟨checks + 1, found, seen, next⟩)
      · rw [← space.map_forget_successors track, ← ih, Progress.forget_foldl_push]
        rfl

/-- Generation after generation, the forms that are under way are the same. -/
lemma forget_generations (space : Space) (track : Bool) (rounds : Nat) :
    space.generations false cutoff rounds (ts.map Node.forget) p.forget =
      (space.generations track cutoff rounds ts p).forget := by
  induction rounds generalizing ts p with
  | zero =>
    cases ts with
    | nil => simp [generations_nil, Progress.forget, Outcome.forget]
    | cons t ts => simp [generations, Progress.forget, Outcome.forget]
  | succ rounds ih =>
    cases ts with
    | nil => simp [generations_nil, Progress.forget, Outcome.forget]
    | cons t ts =>
      rw [List.map_cons, generations_cons, generations_cons, ← List.map_cons,
        space.forget_sweep track]
      split
      · simp [Progress.forget, Outcome.forget]
      · rw [← ih, List.map_reverse]
        rfl

/-- A search with chains is a search without them, once the chains are forgotten. -/
theorem forget_explore (space : Space) (track : Bool) (cutoff : Cutoff) (rounds : Nat) :
    (space.explore track cutoff rounds).forget = space.explore false cutoff rounds := by
  have hatOnce : (space.foundAtOnce track).map Node.forget = space.foundAtOnce false := by
    unfold foundAtOnce
    split
    · rfl
    · rfl
  have hempty : (space.foundAtOnce false).isEmpty = (space.foundAtOnce track).isEmpty := by
    rw [← hatOnce, List.isEmpty_map]
  have hinitial : (space.initial track).forget = space.initial false := by
    rw [initial, initial, ← hatOnce]
    rfl
  rw [explore_eq, explore_eq, hempty]
  split
  · rfl
  · split
    · rw [Outcome.forget, hatOnce]
    · rw [← hinitial, ← forget_generations]
      rfl

/-- Both searches find the same words, and in the same order. -/
lemma map_form_found (space : Space) (track : Bool) (cutoff : Cutoff) (rounds : Nat) :
    (space.explore track cutoff rounds).found.map Node.form =
      (space.explore false cutoff rounds).found.map Node.form := by
  rw [← space.forget_explore track]
  exact (Node.map_form_forget _).symm

/-- They ask equally often whether to continue. -/
lemma checks_explore (space : Space) (track : Bool) (cutoff : Cutoff) (rounds : Nat) :
    (space.explore track cutoff rounds).checks = (space.explore false cutoff rounds).checks := by
  rw [← space.forget_explore track]
  rfl

/-- They come to their end together. -/
lemma ended_explore (space : Space) (track : Bool) (cutoff : Cutoff) (rounds : Nat) :
    (space.explore track cutoff rounds).ended = (space.explore false cutoff rounds).ended := by
  rw [← space.forget_explore track]
  rfl

end Space

end ContextFree
