import ContextFree.Search.Explore
import Mathlib.Data.List.Nodup
import Mathlib.Logic.Relation
import Mathlib.Tactic.Common

/-!
# What an exploration finds

The search is looked at through an invariant of its progress, `Space.Sound`, which holds however
the search is cut off: what is under way has been reached by moves, what is found is a word that
is looked for, and no form is treated twice.

The invariant is shown for one node, then for a generation (`sweep`) and for all of them
(`generations`). The result is `explore_sound`.
-/

namespace ContextFree

/-! ## Nodes and moves -/

namespace Space

variable {space : Space} {track : Bool} {cutoff : Cutoff} {t t' : Node} {u v : Form}

/-- A move leads from the first form to the second, which is viable. -/
def Leads (space : Space) (u v : Form) : Prop :=
  ∃ rule ∈ space.rules, ∃ left right, Form.splitAt? rule.1 u = some (left, right) ∧
    ∃ c ∈ rule.2, v = left ++ (c.body ++ right) ∧ space.viable v = true

/-- The successors of a node, with the move that leads to each. -/
lemma mem_successors :
    t' ∈ space.successors track t ↔ ∃ rule ∈ space.rules, ∃ left right,
      Form.splitAt? rule.1 t.form = some (left, right) ∧
      ∃ c ∈ rule.2, space.viable (left ++ (c.body ++ right)) = true ∧
        t' = ⟨left ++ (c.body ++ right),
          t.replay track space.erasers ⟨left, c.marking, right⟩⟩ := by
  rw [successors, List.mem_flatMap]
  constructor
  · rintro ⟨rule, hrule, hmem⟩
    dsimp only at hmem
    split at hmem
    · exact absurd hmem List.not_mem_nil
    · rename_i left right hsplit
      obtain ⟨c, hc, hsome⟩ := List.mem_filterMap.1 hmem
      obtain ⟨hviable, heq⟩ := Option.ite_none_right_eq_some.1 hsome
      exact ⟨rule, hrule, left, right, hsplit, c, hc, hviable, (Option.some.inj heq).symm⟩
  · rintro ⟨rule, hrule, left, right, hsplit, c, hc, hviable, rfl⟩
    refine ⟨rule, hrule, ?_⟩
    dsimp only
    rw [hsplit]
    exact List.mem_filterMap.2 ⟨c, hc, if_pos hviable⟩

/-- Where a node can lead depends on its form alone. -/
lemma leads_iff : space.Leads t.form v ↔ ∃ t' ∈ space.successors track t, t'.form = v := by
  constructor
  · rintro ⟨rule, hrule, left, right, hsplit, c, hc, rfl, hviable⟩
    exact ⟨_, mem_successors.2 ⟨rule, hrule, left, right, hsplit, c, hc, hviable, rfl⟩, rfl⟩
  · rintro ⟨t', ht', rfl⟩
    obtain ⟨rule, hrule, left, right, hsplit, c, hc, hviable, rfl⟩ := mem_successors.1 ht'
    exact ⟨rule, hrule, left, right, hsplit, c, hc, rfl, hviable⟩

lemma viable_of_leads (huv : space.Leads u v) : space.viable v = true := by
  obtain ⟨_, _, _, _, _, _, _, -, hviable⟩ := huv
  exact hviable

/-- The nodes that moves lead to from the start symbol. -/
inductive Reached (space : Space) (track : Bool) : Node → Prop
  | root : Reached space track (Node.root track space.start)
  | move {t t' : Node} (h : Reached space track t)
    (ht' : t' ∈ space.successors track t) : Reached space track t'

lemma Reached.path (ht : space.Reached track t) :
    Relation.ReflTransGen space.Leads [space.start] t.form := by
  induction ht with
  | root => exact .refl
  | move _ ht' ih => exact ih.tail (leads_iff.2 ⟨_, ht', rfl⟩)

/-- The node is that of a word that is looked for. -/
def Finds (space : Space) (track : Bool) (t : Node) : Prop :=
  t ∈ space.foundAtOnce track ∨
    (space.Reached track t ∧ t.form.all Symbol.isTerminal = true ∧ space.wants t.form = true)

end Space

/-! ## Pushing nodes -/

namespace Progress

variable {p : Progress} {t : Node} {f : Form}

/-- The progress when the next generation has been taken from it. -/
def cleared (p : Progress) : Progress := { p with next := [] }

/-- A node is pushed unless its form has been met. -/
lemma push_cases :
    (t.form ∈ p.seen ∧ p.push t = p) ∨ (t.form ∉ p.seen ∧
      p.push t = { p with seen := p.seen.insert t.form, next := t :: p.next }) := by
  obtain ⟨checks, found, seen, next⟩ := p
  rw [push]
  split
  · rename_i hseen
    exact .inl ⟨Std.HashSet.mem_iff_contains.2 hseen, rfl⟩
  · rename_i hseen
    exact .inr ⟨fun hmem => hseen (Std.HashSet.mem_iff_contains.1 hmem), rfl⟩

lemma mem_seen_push : f ∈ (p.push t).seen ↔ f = t.form ∨ f ∈ p.seen := by
  rcases push_cases (p := p) (t := t) with ⟨hseen, heq⟩ | ⟨-, heq⟩
  · rw [heq]
    constructor
    · intro hf
      exact .inr hf
    · intro hf
      rcases hf with rfl | hf
      · exact hseen
      · exact hf
  · rw [heq, Std.HashSet.mem_insert, beq_iff_eq, eq_comm]

lemma mem_seen_pushAll {l : List Node} :
    f ∈ (l.foldl push p).seen ↔ f ∈ l.map Node.form ∨ f ∈ p.seen := by
  induction l generalizing p with
  | nil => simp
  | cons t l ih =>
    rw [List.foldl_cons, ih, mem_seen_push, List.map_cons, List.mem_cons]
    exact or_left_comm.trans or_assoc.symm

end Progress

namespace Space

variable {space : Space} {track : Bool} {cutoff : Cutoff} {t : Node} {ts ts' : List Node}
  {p : Progress}

/-! ## The invariant -/

/-- What is under way has been reached, what is found is looked for, and all their forms are
different. -/
structure Sound (space : Space) (track : Bool) (ts : List Node) (p : Progress) : Prop where
  reached : ∀ t ∈ ts ++ p.next, space.Reached track t
  found : ∀ t ∈ p.found, space.Finds track t
  seen : ∀ t ∈ p.found ++ (ts ++ p.next), t.form ∈ p.seen ∨ t.form = []
  nodup : ((p.found ++ (ts ++ p.next)).map Node.form).Nodup

/-- Fewer nodes under way do no harm, and the number of questions plays no part. -/
lemma Sound.drop (hs : space.Sound track ts p) (hsub : ts'.Sublist ts) (checks : Nat) :
    space.Sound track ts' { p with checks } := by
  have hunder : (ts' ++ p.next).Sublist (ts ++ p.next) := hsub.append_right p.next
  have hall := hunder.append_left p.found
  exact ⟨fun t ht => hs.reached t (hunder.subset ht), hs.found,
    fun t ht => hs.seen t (hall.subset ht), hs.nodup.sublist (hall.map _)⟩

/-- A node of a word that is looked for is found. -/
lemma Sound.find (hs : space.Sound track (t :: ts) p)
    (hterminal : t.form.all Symbol.isTerminal = true) (hwants : space.wants t.form = true)
    (checks : Nat) :
    space.Sound track ts { p with checks, found := t :: p.found } := by
  -- the node only changes its place
  have hperm : (p.found ++ (t :: ts ++ p.next)).Perm (t :: p.found ++ (ts ++ p.next)) :=
    List.perm_middle
  refine ⟨fun t' ht' => hs.reached t' (List.mem_cons_of_mem _ ht'), fun t' ht' => ?_,
    fun t' ht' => hs.seen t' (hperm.mem_iff.2 ht'), (hperm.map _).nodup_iff.1 hs.nodup⟩
  rcases List.mem_cons.1 ht' with rfl | ht'
  · exact .inr ⟨hs.reached t' List.mem_cons_self, hterminal, hwants⟩
  · exact hs.found t' ht'

/-- A node that has been reached is pushed. -/
lemma Sound.push (hs : space.Sound track ts p) (ht : space.Reached track t) (hne : t.form ≠ []) :
    space.Sound track ts (p.push t) := by
  rcases Progress.push_cases (p := p) (t := t) with ⟨-, heq⟩ | ⟨hnew, heq⟩
  · rwa [heq]
  · rw [heq]
    have hunder : (ts ++ t :: p.next).Perm (t :: (ts ++ p.next)) := List.perm_middle
    have hall : (p.found ++ (ts ++ t :: p.next)).Perm (t :: (p.found ++ (ts ++ p.next))) :=
      (hunder.append_left p.found).trans List.perm_middle
    refine ⟨fun t' ht' => ?_, hs.found, fun t' ht' => ?_, ?_⟩
    · rcases List.mem_cons.1 (hunder.mem_iff.1 ht') with rfl | ht'
      · exact ht
      · exact hs.reached t' ht'
    · rcases List.mem_cons.1 (hall.mem_iff.1 ht') with rfl | ht'
      · exact .inl Std.HashSet.mem_insert_self
      · exact (hs.seen t' ht').imp_left fun hmem => Std.HashSet.mem_insert.2 (.inr hmem)
    · rw [(hall.map _).nodup_iff, List.map_cons, List.nodup_cons]
      refine ⟨fun hmem => ?_, hs.nodup⟩
      -- a form that has not been met is not there yet
      obtain ⟨t', ht', heq⟩ := List.mem_map.1 hmem
      rw [← heq] at hnew hne
      exact (hs.seen t' ht').elim hnew hne

/-- No move leads to the empty form. -/
def Lengthens (space : Space) : Prop := ∀ u v, space.Leads u v → v ≠ []

lemma Sound.expand (hspace : space.Lengthens) (hs : space.Sound track ts p)
    (ht : space.Reached track t) {successors : List Node}
    (hsucc : ∀ t' ∈ successors, t' ∈ space.successors track t) :
    space.Sound track ts (successors.foldl Progress.push p) := by
  induction successors generalizing p with
  | nil => exact hs
  | cons t' successors ih =>
    have ht' : t' ∈ space.successors track t := hsucc t' (by simp)
    have hne : t'.form ≠ [] := hspace t.form t'.form (leads_iff.2 ⟨t', ht', rfl⟩)
    rw [List.foldl_cons]
    exact ih (hs.push (.move ht ht') hne) fun t'' h => hsucc t'' (List.mem_cons_of_mem _ h)

/-- A generation keeps the invariant, wherever it stops. -/
lemma Sound.sweep (hspace : space.Lengthens) (hs : space.Sound track ts p) :
    space.Sound track [] (space.sweep track cutoff ts p).1 := by
  induction ts generalizing p with
  | nil => exact hs
  | cons t ts ih =>
    obtain ⟨checks, found, seen, next⟩ := p
    rw [Space.sweep]
    split
    · -- cut off: the rest of the generation is given up
      exact hs.drop (List.nil_sublist _) (checks + 1)
    · split
      · rename_i hterminal
        split
        · rename_i hwants
          have hfind := hs.find hterminal hwants (checks + 1)
          split
          · exact hfind.drop (List.nil_sublist _) (checks + 1)
          · exact ih hfind
        · exact ih (hs.drop (List.sublist_cons_self t ts) (checks + 1))
      · have hdrop := hs.drop (List.sublist_cons_self t ts) (checks + 1)
        exact ih (hdrop.expand hspace (hs.reached t (by simp)) fun _ h => h)

/-- The next generation takes the place of the one that is done. -/
lemma Sound.advance (hs : space.Sound track [] p) :
    space.Sound track p.next.reverse { p with next := [] } := by
  have hperm : (p.next.reverse ++ []).Perm ([] ++ p.next) := by simp
  have hall := hperm.append_left p.found
  exact ⟨fun t ht => hs.reached t (hperm.mem_iff.1 ht), hs.found,
    fun t ht => hs.seen t (hall.mem_iff.1 ht), (hall.map _).nodup_iff.2 hs.nodup⟩

lemma Sound.stop (hs : space.Sound track ts p) :
    (∀ t ∈ p.found.reverse, space.Finds track t) ∧ (p.found.reverse.map Node.form).Nodup := by
  refine ⟨fun t ht => hs.found t (List.mem_reverse.1 ht), ?_⟩
  rw [List.map_reverse, List.nodup_reverse]
  exact hs.nodup.sublist ((List.sublist_append_left _ _).map _)

lemma Sound.generations (hspace : space.Lengthens) (rounds : Nat) (hs : space.Sound track ts p) :
    (∀ t ∈ (space.generations track cutoff rounds ts p).found, space.Finds track t) ∧
      ((space.generations track cutoff rounds ts p).found.map Node.form).Nodup := by
  fun_induction Space.generations space track cutoff rounds ts p with
  | case1 => exact hs.stop
  | case2 => exact hs.stop
  | case3 rounds ts p _ checks found seen next hsweep =>
    have hsound : space.Sound track [] (space.sweep track cutoff ts p).1 := hs.sweep hspace
    rw [hsweep] at hsound
    exact hsound.stop
  | case4 rounds ts p _ checks found seen next hsweep ih =>
    have hsound : space.Sound track [] (space.sweep track cutoff ts p).1 := hs.sweep hspace
    rw [hsweep] at hsound
    exact ih hsound.advance

/-- The empty word is looked for and found before any form is expanded. -/
def Vanishes (space : Space) : Prop :=
  (∃ p ∈ space.erasers, p.head = space.start) ∧ space.wants [] = true

lemma mem_foundAtOnce :
    t ∈ space.foundAtOnce track ↔
      t = Node.vanished track space.erasers space.start ∧ space.Vanishes := by
  unfold foundAtOnce Vanishes
  split
  · rename_i hfound
    rw [Bool.and_eq_true, List.any_eq_true] at hfound
    simpa using fun _ => hfound
  · rename_i hnone
    rw [Bool.and_eq_true, List.any_eq_true] at hnone
    simpa using fun _ => hnone

lemma foundAtOnce_eq (space : Space) (track : Bool) :
    space.foundAtOnce track = [] ∨
      space.foundAtOnce track = [Node.vanished track space.erasers space.start] := by
  unfold foundAtOnce
  split
  · exact .inr rfl
  · exact .inl rfl

/-- The state in which the generations begin. -/
def initial (space : Space) (track : Bool) : Progress :=
  ⟨1, space.foundAtOnce track, Std.HashSet.emptyWithCapacity.insert [space.start], []⟩

@[simp] lemma mem_seen_initial {f : Form} : f ∈ (space.initial track).seen ↔ f = [space.start] := by
  simp only [initial, Std.HashSet.mem_insert, beq_iff_eq, Std.HashSet.not_mem_emptyWithCapacity,
    or_false]
  exact eq_comm

lemma sound_initial (space : Space) (track : Bool) :
    space.Sound track [Node.root track space.start] (space.initial track) where
  reached t ht := by
    rw [List.mem_singleton.1 ht]
    exact .root
  found t ht := .inl ht
  seen t ht := by
    rcases List.mem_append.1 ht with ht | ht
    · right
      rcases space.foundAtOnce_eq track with heq | heq
      · simp [initial, heq] at ht
      · rw [initial, heq, List.mem_singleton] at ht
        rw [ht]
        rfl
    · left
      rw [List.mem_singleton.1 ht, mem_seen_initial]
      rfl
  nodup := by
    rcases space.foundAtOnce_eq track with heq | heq
    · simp [initial, heq]
    · simp [initial, heq, Node.vanished, Node.root]

/-! ## Equations -/

lemma generations_nil (cutoff : Cutoff) (rounds : Nat) :
    space.generations track cutoff rounds [] p = ⟨p.found.reverse, p.checks, true⟩ := by
  cases rounds <;> rfl

/-- After a generation that is not empty, the next one is gone through. -/
lemma generations_cons {rounds : Nat} :
    space.generations track cutoff (rounds + 1) (t :: ts) p =
      if (space.sweep track cutoff (t :: ts) p).2 then
        ⟨(space.sweep track cutoff (t :: ts) p).1.found.reverse,
          (space.sweep track cutoff (t :: ts) p).1.checks, true⟩
      else
        space.generations track cutoff rounds (space.sweep track cutoff (t :: ts) p).1.next.reverse
          (space.sweep track cutoff (t :: ts) p).1.cleared := by
  rw [generations]
  · split <;> rename_i hsweep <;> rw [hsweep] <;> rfl
  · exact List.cons_ne_nil t ts

/-- The exploration is told to stop at once, finds its target at once, or goes through the
generations. -/
lemma explore_eq (rounds : Nat) :
    space.explore track cutoff rounds =
      if cutoff.reached 0 ([] : List Node) then ⟨[], 1, true⟩
      else if space.target.isSome && !(space.foundAtOnce track).isEmpty then
        ⟨space.foundAtOnce track, 1, true⟩
      else
        space.generations track cutoff rounds [Node.root track space.start]
          (space.initial track) := rfl

/-! ## What is found -/

/-- Whatever an exploration finds is looked for, and no form is found twice. -/
theorem explore_sound (hspace : space.Lengthens) (track : Bool) (cutoff : Cutoff) (rounds : Nat) :
    (∀ t ∈ (space.explore track cutoff rounds).found, space.Finds track t) ∧
      ((space.explore track cutoff rounds).found.map Node.form).Nodup := by
  unfold explore
  dsimp only
  split
  · simp
  · split
    · refine ⟨fun t ht => .inl ht, ?_⟩
      rcases space.foundAtOnce_eq track with heq | heq <;> simp [heq]
    · exact (space.sound_initial track).generations hspace rounds

end Space

end ContextFree
