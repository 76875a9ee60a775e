import ContextFree.Closure
import ContextFree.Proofs.Yield
import Mathlib.Logic.Relation

/-!
# The closures are exact

The sets that `Grammar.generating`, `Grammar.nullable`, `Grammar.reachable` and
`Grammar.unitClosure` compute are those that their names promise, said in terms of what the
grammar yields and derives.

Saturation is treated once, by an invariant of its rounds (`Closure.saturate_invariant`). The
paths along edges likewise: `Closure.mem_reach_iff` rests on the invariant that an edge whose
source is known leaves the frontier or leads to what is known.
-/

namespace ContextFree

namespace Closure

variable {α β : Type}

/-! ## Saturation -/

@[simp] lemma mem_accepted {f : α → Option β} {pending : List α} {b : β} :
    b ∈ accepted f pending ↔ ∃ a ∈ pending, f a = some b :=
  List.mem_filterMap

@[simp] lemma mem_remaining {f : α → Option β} {pending : List α} {a : α} :
    a ∈ remaining f pending ↔ a ∈ pending ∧ f a = none := by
  simp [remaining]

/-- What every round preserves holds in the end, when all that is left is refused. -/
theorem saturate_invariant {accept : List β → α → Option β} (Inv : List β → List α → Prop)
    (hround : ∀ known pending, Inv known pending →
      Inv (accepted (accept known) pending ++ known) (remaining (accept known) pending))
    (known : List β) (pending : List α) (hinv : Inv known pending) :
    ∃ rest, Inv (saturate accept known pending) rest ∧
      ∀ a ∈ rest, accept (saturate accept known pending) a = none := by
  fun_induction saturate accept known pending with
  | case1 known pending new hnew =>
    refine ⟨pending, hinv, fun a ha => ?_⟩
    rw [Option.eq_none_iff_forall_not_mem]
    intro b hb
    have hmem : b ∈ new := mem_accepted.2 ⟨a, ha, hb⟩
    rw [List.isEmpty_iff.1 hnew] at hmem
    exact absurd hmem List.not_mem_nil
  | case2 known pending new hnew ih => exact ih (hround known pending hinv)

/-- If an item that is ready by good ones is good itself, then all that is collected is good. -/
theorem collect_sound {ready : List α → α → Bool} {pending : List α} (P : α → Prop)
    (hP : ∀ known, (∀ b ∈ known, P b) → ∀ a ∈ pending, ready known a = true → P a) :
    ∀ a ∈ collect ready pending, P a := by
  have hround : ∀ known rest, ((∀ b ∈ known, P b) ∧ ∀ a ∈ rest, a ∈ pending) →
      (∀ b ∈ accepted (fun a => if ready known a then some a else none) rest ++ known, P b) ∧
      ∀ a ∈ remaining (fun a => if ready known a then some a else none) rest, a ∈ pending := by
    rintro known rest ⟨hknown, hrest⟩
    constructor
    · intro b hb
      rcases List.mem_append.1 hb with hb | hb
      · obtain ⟨a, ha, hab⟩ := mem_accepted.1 hb
        obtain ⟨hready, rfl⟩ : ready known a = true ∧ a = b := by simpa using hab
        exact hP known hknown a (hrest a ha) hready
      · exact hknown b hb
    · intro a ha
      exact hrest a (mem_remaining.1 ha).1
  obtain ⟨_, ⟨hres, -⟩, -⟩ := saturate_invariant
    (fun known rest => (∀ b ∈ known, P b) ∧ ∀ a ∈ rest, a ∈ pending) hround
    [] pending ⟨by simp, fun _ ha => ha⟩
  exact hres

/-- An item that is ready in the end has been collected. -/
theorem mem_collect_of_ready {ready : List α → α → Bool} {pending : List α} {a : α}
    (ha : a ∈ pending) (hready : ready (collect ready pending) a = true) :
    a ∈ collect ready pending := by
  have hround : ∀ known rest, (∀ a ∈ pending, a ∈ known ∨ a ∈ rest) → ∀ a ∈ pending,
      a ∈ accepted (fun a => if ready known a then some a else none) rest ++ known ∨
      a ∈ remaining (fun a => if ready known a then some a else none) rest := by
    intro known rest hinv a ha
    rcases hinv a ha with hknown | hrest
    · exact .inl (List.mem_append_right _ hknown)
    · by_cases hr : ready known a = true
      · exact .inl (List.mem_append_left _ (mem_accepted.2 ⟨a, hrest, by simp [hr]⟩))
      · exact .inr (mem_remaining.2 ⟨hrest, by simp [hr]⟩)
  obtain ⟨rest, hinv, hrest⟩ := saturate_invariant
    (fun known rest => ∀ a ∈ pending, a ∈ known ∨ a ∈ rest) hround
    [] pending fun _ ha => .inr ha
  rcases hinv a ha with hmem | hmem
  · exact hmem
  · -- an item left over in the end would have been refused then
    have hnone : (if ready (collect ready pending) a then some a else none) = none :=
      hrest a hmem
    rw [if_pos hready] at hnone
    contradiction

/-! ## Paths -/

variable [DecidableEq α]

@[simp] lemma mem_leaving {points : List α} {edges : List (α × α)} {e : α × α} :
    e ∈ leaving points edges ↔ e ∈ edges ∧ e.1 ∈ points := by
  simp [leaving]

@[simp] lemma mem_staying {points : List α} {edges : List (α × α)} {e : α × α} :
    e ∈ staying points edges ↔ e ∈ edges ∧ e.1 ∉ points := by
  simp [staying]

lemma subset_spread {edges : List (α × α)} {frontier known : List α} {b : α} (hb : b ∈ known) :
    b ∈ spread edges frontier known := by
  fun_induction spread edges frontier known with
  | case1 => exact hb
  | case2 edges frontier known live hlive new ih => exact ih (List.mem_append_right _ hb)

/-- Only ends of paths along the edges join what is known. -/
lemma spread_sound {edges : List (α × α)} {frontier known : List α} (P : α → Prop)
    (hP : ∀ e ∈ edges, P e.1 → P e.2) (hfrontier : ∀ b ∈ frontier, P b)
    (hknown : ∀ b ∈ known, P b) : ∀ b ∈ spread edges frontier known, P b := by
  fun_induction spread edges frontier known with
  | case1 => exact hknown
  | case2 edges frontier known live hlive new ih =>
    have hnew : ∀ b ∈ new, P b := by
      intro b hb
      obtain ⟨e, he, rfl⟩ := List.mem_map.1 (List.mem_filter.1 hb).1
      rw [mem_leaving] at he
      exact hP e he.1 (hfrontier _ he.2)
    refine ih (fun e he => hP e (mem_staying.1 he).1) hnew fun b hb => ?_
    rcases List.mem_append.1 hb with hb | hb
    · exact hnew b hb
    · exact hknown b hb

/-- What is reached is closed under the edges: those dropped on the way lead to what is known,
and those still there leave the frontier as soon as their source is known. -/
lemma spread_closed {all edges : List (α × α)} {frontier known : List α}
    (hdropped : ∀ e ∈ all, e ∈ edges ∨ e.2 ∈ known)
    (hpending : ∀ e ∈ edges, e.1 ∈ known → e.1 ∈ frontier) :
    ∀ e ∈ all, e.1 ∈ spread edges frontier known → e.2 ∈ spread edges frontier known := by
  fun_induction spread edges frontier known with
  | case1 edges frontier known live hlive =>
    intro e he hsource
    rcases hdropped e he with hedge | htarget
    · have hmem : e ∈ live := mem_leaving.2 ⟨hedge, hpending e hedge hsource⟩
      rw [List.isEmpty_iff.1 hlive] at hmem
      exact absurd hmem List.not_mem_nil
    · exact htarget
  | case2 edges frontier known live hlive new ih =>
    refine ih (fun e he => ?_) (fun e he hsource => ?_)
    · rcases hdropped e he with hedge | htarget
      · by_cases hsource : e.1 ∈ frontier
        · -- the edge is followed now: its target is known or new
          right
          by_cases htarget : e.2 ∈ known
          · exact List.mem_append_right _ htarget
          · have hlive : e.2 ∈ live.map Prod.snd :=
              List.mem_map.2 ⟨e, mem_leaving.2 ⟨hedge, hsource⟩, rfl⟩
            exact List.mem_append_left _ (List.mem_filter.2 ⟨hlive, by simpa using htarget⟩)
        · exact .inl (mem_staying.2 ⟨hedge, hsource⟩)
      · exact .inr (List.mem_append_right _ htarget)
    · obtain ⟨hedge, hnot⟩ := mem_staying.1 he
      rcases List.mem_append.1 hsource with hnew | hknown
      · exact hnew
      · exact absurd (hpending e hedge hknown) hnot

/-- The points reached are the ends of the paths along the edges. -/
theorem mem_reach_iff {edges : List (α × α)} {a b : α} :
    b ∈ reach edges a ↔ Relation.ReflTransGen (fun x y => (x, y) ∈ edges) a b := by
  unfold reach
  constructor
  · intro hb
    refine spread_sound (Relation.ReflTransGen (fun x y => (x, y) ∈ edges) a) ?_ ?_ ?_ b hb
    · rintro ⟨x, y⟩ he hx
      exact hx.tail he
    · intro c hc
      rw [List.mem_singleton.1 hc]
    · intro c hc
      rw [List.mem_singleton.1 hc]
  · intro hpath
    induction hpath with
    | refl => exact subset_spread (by simp)
    | tail _ he ih =>
      have hclosed : ∀ e ∈ edges, e.1 ∈ spread edges [a] [a] → e.2 ∈ spread edges [a] [a] :=
        spread_closed (fun e he => .inl he) fun e _ h => h
      exact hclosed _ he ih

end Closure

namespace Grammar

open Closure

variable {g : Grammar} {a b : Symbol}

lemma Admissible.terminal_or_nonterminal (hg : g.Admissible) {p : Production}
    (hp : p ∈ g.productions) {s : Symbol} (hs : s ∈ p.body) :
    s.isTerminal = true ∨ s.isNonterminal = true := by
  have hadm := hg.body p hp s hs
  rw [Symbol.isAdmissible, Bool.or_eq_true] at hadm
  exact hadm.symm

/-! ## Generating nonterminals -/

/-- Whether a nonterminal has a body whose nonterminals are all among the known ones. -/
def generatesBy (g : Grammar) (known : List Symbol) (a : Symbol) : Bool :=
  (g.bodies a).any fun body => body.all fun s => !s.isNonterminal || known.contains s

lemma generatesBy_iff {known : List Symbol} :
    g.generatesBy known a = true ↔ ∃ body, (⟨a, body⟩ : Production) ∈ g.productions ∧
      ∀ s ∈ body, s.isNonterminal = true → s ∈ known := by
  simp only [generatesBy, List.any_eq_true, List.all_eq_true, mem_bodies, Bool.or_eq_true,
    Bool.not_eq_true', List.contains_iff_mem]
  refine exists_congr fun body => and_congr_right fun _ => forall₂_congr fun s _ => ?_
  rw [or_iff_not_imp_left, Bool.not_eq_false]

lemma mem_generating_iff_collect :
    a ∈ g.generating ↔ a ∈ g.headSet ∧ a ∈ collect g.generatesBy g.headSet.toList := by
  simp only [generating, SortedSet.mem_filter, List.contains_iff_mem]
  rfl

lemma exists_yields_of_mem_generating (hg : g.Admissible) (ha : a ∈ g.generating) :
    ∃ w, g.Yields [a] w := by
  refine collect_sound (fun a => ∃ w, g.Yields [a] w) ?_ a (mem_generating_iff_collect.1 ha).2
  intro known hknown a _ hready
  obtain ⟨body, hbody, hsymbols⟩ := generatesBy_iff.1 hready
  obtain ⟨w, hw⟩ : ∃ w, g.Yields body w := by
    refine exists_yields_of_forall fun s hs => ?_
    rcases hg.terminal_or_nonterminal hbody hs with ht | hn
    · exact ⟨[s], .terminal ht .nil⟩
    · exact hknown s (hsymbols s hs hn)
  exact ⟨w, .of_body hbody hw⟩

lemma Yields.mem_generating {u w : Form} (hy : g.Yields u w) :
    ∀ s ∈ u, s.isNonterminal = true → s ∈ g.generating := by
  induction hy with
  | nil => simp
  | terminal hs _ ih =>
    intro t ht hn
    rcases List.mem_cons.1 ht with rfl | ht
    · rw [Symbol.isTerminal_eq_false hn] at hs
      contradiction
    · exact ih t ht hn
  | @production p u x y hp _ _ ihx ihy =>
    intro t ht hn
    rcases List.mem_cons.1 ht with rfl | ht
    · have hhead : p.head ∈ g.headSet := mem_headSet.2 ⟨p, hp, rfl⟩
      -- all nonterminals of the body have been collected, so the head is ready
      have hready : g.generatesBy (collect g.generatesBy g.headSet.toList) p.head = true :=
        generatesBy_iff.2 ⟨p.body, hp, fun s hs hn =>
          (mem_generating_iff_collect.1 (ihx s hs hn)).2⟩
      exact mem_generating_iff_collect.2 ⟨hhead, mem_collect_of_ready hhead hready⟩
    · exact ihy t ht hn

/-- The generating nonterminals are those that yield a word. -/
theorem mem_generating_iff (hg : g.Admissible) :
    a ∈ g.generating ↔ a.isNonterminal = true ∧ ∃ w, g.Yields [a] w := by
  constructor
  · intro ha
    obtain ⟨p, hp, rfl⟩ := mem_headSet.1 (mem_generating_iff_collect.1 ha).1
    exact ⟨hg.head p hp, exists_yields_of_mem_generating hg ha⟩
  · rintro ⟨hn, w, hw⟩
    exact hw.mem_generating a (by simp) hn

/-! ## Nullable nonterminals -/

/-- Whether a nonterminal has a body of known symbols only. -/
def vanishesBy (g : Grammar) (known : List Symbol) (a : Symbol) : Bool :=
  (g.bodies a).any fun body => body.all known.contains

lemma vanishesBy_iff {known : List Symbol} :
    g.vanishesBy known a = true ↔
      ∃ body, (⟨a, body⟩ : Production) ∈ g.productions ∧ ∀ s ∈ body, s ∈ known := by
  simp [vanishesBy]

lemma mem_nullable_iff_collect :
    a ∈ g.nullable ↔ a ∈ g.headSet ∧ a ∈ collect g.vanishesBy g.headSet.toList := by
  simp only [nullable, SortedSet.mem_filter, List.contains_iff_mem]
  rfl

lemma yields_nil_of_mem_nullable (ha : a ∈ g.nullable) : g.Yields [a] [] := by
  refine collect_sound (fun a => g.Yields [a] []) ?_ a (mem_nullable_iff_collect.1 ha).2
  intro known hknown a _ hready
  obtain ⟨body, hbody, hsymbols⟩ := vanishesBy_iff.1 hready
  exact .of_body hbody (yields_nil_right_iff.2 fun s hs => hknown s (hsymbols s hs))

lemma Yields.mem_nullable {u w : Form} (hy : g.Yields u w) (hw : w = []) :
    ∀ s ∈ u, s ∈ g.nullable := by
  induction hy with
  | nil => simp
  | terminal => contradiction
  | @production p u x y hp _ _ ihx ihy =>
    obtain ⟨rfl, rfl⟩ := List.append_eq_nil_iff.1 hw
    intro t ht
    rcases List.mem_cons.1 ht with rfl | ht
    · have hhead : p.head ∈ g.headSet := mem_headSet.2 ⟨p, hp, rfl⟩
      have hready : g.vanishesBy (collect g.vanishesBy g.headSet.toList) p.head = true :=
        vanishesBy_iff.2 ⟨p.body, hp, fun s hs => (mem_nullable_iff_collect.1 (ihx rfl s hs)).2⟩
      exact mem_nullable_iff_collect.2 ⟨hhead, mem_collect_of_ready hhead hready⟩
    · exact ihy rfl t ht

/-- The nullable nonterminals are the symbols that yield the empty word. -/
theorem mem_nullable_iff : a ∈ g.nullable ↔ g.Yields [a] [] := by
  constructor
  · exact yields_nil_of_mem_nullable
  · intro hy
    exact hy.mem_nullable rfl a (by simp)

/-! ## Reachable nonterminals -/

/-- The nonterminal `b` occurs in a body of `a`. -/
def Mentions (g : Grammar) (a b : Symbol) : Prop :=
  ∃ body, (⟨a, body⟩ : Production) ∈ g.productions ∧ b ∈ body ∧ b.isNonterminal = true

lemma mem_occurrences : (a, b) ∈ g.occurrences ↔ g.Mentions a b := by
  simp only [occurrences, List.mem_flatMap, List.mem_map, List.mem_filter, SortedSet.mem_toList,
    Prod.mk.injEq, Mentions]
  constructor
  · rintro ⟨p, hp, s, ⟨hs, hn⟩, rfl, rfl⟩
    exact ⟨p.body, hp, hs, hn⟩
  · rintro ⟨body, hp, hs, hn⟩
    exact ⟨_, hp, b, ⟨hs, hn⟩, rfl, rfl⟩

lemma mem_reachable_iff_path :
    a ∈ g.reachable ↔ a ∈ g.nonterminals ∧ Relation.ReflTransGen g.Mentions g.start a := by
  have hlinks : (fun x y => (x, y) ∈ g.occurrences) = g.Mentions := by
    funext x y
    exact propext mem_occurrences
  simp only [reachable, SortedSet.mem_filter, List.contains_iff_mem, mem_reach_iff, hlinks]

/-- A path of occurrences is a derivation of a form in which its end stands. -/
lemma exists_derives_of_path (hpath : Relation.ReflTransGen g.Mentions a b) :
    ∃ u v, g.Derives [a] (u ++ b :: v) := by
  induction hpath with
  | refl => exact ⟨[], [], .refl _⟩
  | @tail b c _ hbc ih =>
    obtain ⟨u, v, hd⟩ := ih
    obtain ⟨body, hp, hc, -⟩ := hbc
    obtain ⟨left, right, rfl⟩ := List.append_of_mem hc
    have hs : g.Step (u ++ b :: v) (u ++ (left ++ c :: right) ++ v) := .apply u v hp
    refine ⟨u ++ left, right ++ v, hd.trans (.step ?_ (.refl _))⟩
    simpa using hs

/-- Every nonterminal of a derived form is mentioned, directly or not, by one of the form that it is
derived from. -/
lemma Derives.exists_path (hg : g.Admissible) {u w : Form} (hd : g.Derives u w) :
    ∀ b ∈ w, b.isNonterminal = true →
      ∃ a ∈ u, a.isNonterminal = true ∧ Relation.ReflTransGen g.Mentions a b := by
  induction hd with
  | refl =>
    intro b hb hn
    exact ⟨b, hb, hn, .refl⟩
  | step hs _ ih =>
    intro b hb hn
    obtain ⟨a, ha, han, hpath⟩ := ih b hb hn
    obtain @⟨left, right, p, hp⟩ := hs
    -- a symbol of the body is mentioned by the head, the others were there before
    rcases List.mem_append.1 ha with ha | ha
    · rcases List.mem_append.1 ha with ha | ha
      · exact ⟨a, List.mem_append_left _ ha, han, hpath⟩
      · exact ⟨p.head, by simp, hg.head p hp, hpath.head ⟨p.body, hp, ha, han⟩⟩
    · exact ⟨a, by simp [ha], han, hpath⟩

lemma path_mem_nonterminals (hpath : Relation.ReflTransGen g.Mentions g.start a) :
    a ∈ g.nonterminals := by
  rcases Relation.ReflTransGen.cases_tail hpath with rfl | ⟨b, -, body, hp, ha, hn⟩
  · exact mem_nonterminals.2 (.inl rfl)
  · exact mem_nonterminals.2 (.inr ⟨_, hp, .inr ⟨ha, hn⟩⟩)

lemma Admissible.isNonterminal (hg : g.Admissible) (ha : a ∈ g.nonterminals) :
    a.isNonterminal = true := by
  rcases mem_nonterminals.1 ha with rfl | ⟨p, hp, rfl | ⟨-, hn⟩⟩
  · exact hg.start
  · exact hg.head p hp
  · exact hn

/-- The reachable nonterminals are those that occur in a form derived from the start symbol. -/
theorem mem_reachable_iff (hg : g.Admissible) :
    a ∈ g.reachable ↔ a.isNonterminal = true ∧ ∃ u v, g.Derives [g.start] (u ++ a :: v) := by
  rw [mem_reachable_iff_path]
  constructor
  · rintro ⟨ha, hpath⟩
    exact ⟨hg.isNonterminal ha, exists_derives_of_path hpath⟩
  · rintro ⟨hn, u, v, hd⟩
    obtain ⟨b, hb, -, hpath⟩ := hd.exists_path hg a (by simp) hn
    rw [List.mem_singleton] at hb
    subst hb
    exact ⟨path_mem_nonterminals hpath, hpath⟩

/-! ## Unit productions -/

/-- There is a unit production from `a` to `b`. -/
def UnitLink (g : Grammar) (a b : Symbol) : Prop :=
  (⟨a, [b]⟩ : Production) ∈ g.productions ∧ b.isNonterminal = true

lemma mem_unitLinks : (a, b) ∈ g.unitLinks ↔ g.UnitLink a b := by
  simp only [unitLinks, List.mem_filterMap, SortedSet.mem_toList, Option.map_eq_some_iff,
    Production.unit?_eq_some_iff, Prod.mk.injEq, UnitLink]
  constructor
  · rintro ⟨⟨c, body⟩, hp, s, ⟨rfl, hn⟩, rfl, rfl⟩
    exact ⟨hp, hn⟩
  · rintro ⟨hp, hn⟩
    exact ⟨_, hp, b, ⟨rfl, hn⟩, rfl, rfl⟩

lemma mem_unitHeads : a ∈ g.unitHeads ↔ ∃ b, g.UnitLink a b := by
  simp [unitHeads, mem_unitLinks]

lemma mem_unitTargets : b ∈ g.unitTargets ↔ ∃ a, g.UnitLink a b := by
  simp [unitTargets, mem_unitLinks]

/-- What the closure of a nonterminal holds: the other nonterminals to which unit productions
lead. -/
theorem mem_unitClosure_iff :
    (∃ reached, (a, reached) ∈ g.unitClosure ∧ b ∈ reached) ↔
      b ≠ a ∧ Relation.ReflTransGen g.UnitLink a b := by
  have hlinks : (fun x y => (x, y) ∈ g.unitLinks) = g.UnitLink := by
    funext x y
    exact propext mem_unitLinks
  simp only [unitClosure, List.mem_map, SortedSet.mem_toList, Prod.mk.injEq]
  constructor
  · rintro ⟨reached, ⟨c, -, rfl, rfl⟩, hb⟩
    simp only [SortedSet.mem_filter, Bool.and_eq_true, List.contains_iff_mem, mem_reach_iff,
      hlinks, bne_iff_ne] at hb
    exact ⟨hb.2.2, hb.2.1⟩
  · rintro ⟨hne, hpath⟩
    -- the path is not empty, so it has a first and a last link
    have hhead : a ∈ g.unitHeads := by
      rcases Relation.ReflTransGen.cases_head hpath with rfl | ⟨c, hac, -⟩
      · contradiction
      · exact mem_unitHeads.2 ⟨c, hac⟩
    have htarget : b ∈ g.unitTargets := by
      rcases Relation.ReflTransGen.cases_tail hpath with rfl | ⟨c, -, hcb⟩
      · contradiction
      · exact mem_unitTargets.2 ⟨c, hcb⟩
    refine ⟨_, ⟨a, hhead, rfl, rfl⟩, ?_⟩
    simp only [SortedSet.mem_filter, Bool.and_eq_true, List.contains_iff_mem, mem_reach_iff,
      hlinks, bne_iff_ne]
    exact ⟨htarget, hpath, hne⟩

end Grammar

end ContextFree
