import ContextFree.Proofs.AnyOrder
import Mathlib.Data.List.Nodup

/-!
# Closures by worklists

`Grammar.reachable` and `Grammar.unitClosure` follow edges in rounds. The same sets come out if
points are dealt with one at a time. A queue marks a point when it is met for the first time, so
that no point waits twice (`Closure.drain`). A stack marks a point when it is taken off, so points
may lie on it several times, and it may grow (`Closure.unwind`). What a point leads to may be listed
in any order, which may change from turn to turn.

What is marked or pending is always the end of a path, and whatever a followed point leads to is
marked or pending. So when nothing is pending, all ends of paths are marked. Both ways come to
their end: every point is taken from the queue once, and a turn at the stack either takes off a
point or replaces it by the ends of edges that are not followed again.

The main results are `Grammar.reachable_exact` and `Grammar.unitClosure_exact`.
-/

namespace ContextFree

open Relation

namespace Closure

variable {α : Type} {R : α → α → Prop} {root a b : α}

/-- What holds the root, only ends of paths, and all that its points lead to, holds the ends of all
paths. -/
lemma mem_iff_path_of_closed {found : List α} (hroot : root ∈ found)
    (hpath : ∀ b ∈ found, ReflTransGen R root b)
    (hclosed : ∀ b ∈ found, ∀ c, R b c → c ∈ found) :
    b ∈ found ↔ ReflTransGen R root b := by
  constructor
  · exact hpath b
  · intro hb
    induction hb with
    | refl => exact hroot
    | tail _ hstep ih => exact hclosed _ ih _ hstep

/-! ## A queue -/

/-- The points that have been met, and those among them that wait to be followed. -/
structure Queue (α : Type) where
  /-- The points met so far. -/
  met : List α
  /-- The points that wait, the next one first. -/
  waiting : List α

/-- What is met is met once and is the end of a path. It waits, or all that it leads to has been
met. -/
structure Queue.Spreads (R : α → α → Prop) (root : α) (q : Queue α) : Prop where
  begun : root ∈ q.met
  nodup : q.met.Nodup
  path : ∀ b ∈ q.met, ReflTransGen R root b
  waiting : ∀ b ∈ q.waiting, b ∈ q.met
  followed : ∀ b ∈ q.met, b ∈ q.waiting ∨ ∀ c, R b c → c ∈ q.met

lemma Queue.spreads_root : Queue.Spreads R root ⟨[root], [root]⟩ where
  begun := List.mem_singleton_self root
  nodup := List.nodup_singleton root
  path b hb := by rw [List.mem_singleton.1 hb]
  waiting b hb := hb
  followed b hb := .inl hb

/-- When nothing waits, the ends of all paths have been met. -/
lemma Queue.Spreads.mem_iff {met : List α} (hq : Queue.Spreads R root ⟨met, []⟩) :
    b ∈ met ↔ ReflTransGen R root b :=
  mem_iff_path_of_closed hq.begun hq.path fun b hb =>
    (hq.followed b hb).resolve_left List.not_mem_nil

variable [DecidableEq α]

/-- A point that is met for the first time joins the queue at its end. -/
def Queue.meet (q : Queue α) (b : α) : Queue α :=
  if b ∈ q.met then q else ⟨b :: q.met, q.waiting ++ [b]⟩

/-- Takes points from the front and meets what they lead to, until no point waits. Each turn has its
own listing of what points lead to; there is no result if the listings do not suffice. -/
def drain : List (α → List α) → Queue α → Option (List α)
  | _, ⟨met, []⟩ => some met
  | [], ⟨_, _ :: _⟩ => none
  | targets :: listings, ⟨met, a :: waiting⟩ =>
    drain listings ((targets a).foldl Queue.meet ⟨met, waiting⟩)

/-- Meeting points one after the other adds the new ones, each of them once. -/
lemma foldl_meet {q : Queue α} (hq : q.met.Nodup) (points : List α) :
    ∃ new, points.foldl Queue.meet q = ⟨new.reverse ++ q.met, q.waiting ++ new⟩ ∧
      (new.reverse ++ q.met).Nodup ∧ ∀ b, b ∈ new ↔ b ∈ points ∧ b ∉ q.met := by
  induction points generalizing q with
  | nil => exact ⟨[], by simp, by simpa using hq, by simp⟩
  | cons c points ih =>
    rw [List.foldl_cons, Queue.meet]
    by_cases hc : c ∈ q.met
    · rw [if_pos hc]
      obtain ⟨new, heq, hnodup, hmem⟩ := ih hq
      refine ⟨new, heq, hnodup, fun b => ?_⟩
      rw [hmem, List.mem_cons]
      grind
    · rw [if_neg hc]
      obtain ⟨new, heq, hnodup, hmem⟩ := ih (q := ⟨c :: q.met, q.waiting ++ [c]⟩)
        (List.nodup_cons.2 ⟨hc, hq⟩)
      refine ⟨c :: new, ?_, ?_, fun b => ?_⟩
      · rw [heq, List.reverse_cons, List.append_assoc, List.append_assoc]
        rfl
      · rwa [List.reverse_cons, List.append_assoc]
      · rw [List.mem_cons, hmem, List.mem_cons, List.mem_cons]
        grind

/-- A turn keeps the invariant. It takes one point from the queue and adds to it what it adds to
the points met. -/
lemma Queue.Spreads.turn {met waiting : List α} (hq : Queue.Spreads R root ⟨met, a :: waiting⟩)
    {targets : List α} (htargets : ∀ b, b ∈ targets ↔ R a b) :
    Queue.Spreads R root (targets.foldl Queue.meet ⟨met, waiting⟩) ∧
      (targets.foldl Queue.meet ⟨met, waiting⟩).met.length + waiting.length =
        met.length + (targets.foldl Queue.meet ⟨met, waiting⟩).waiting.length := by
  obtain ⟨new, heq, hnodup, hnew⟩ := foldl_meet (q := ⟨met, waiting⟩) hq.nodup targets
  have ha : a ∈ met := hq.waiting a List.mem_cons_self
  have hmet : ∀ b, b ∈ new.reverse ++ met ↔ b ∈ new ∨ b ∈ met := by
    intro b
    rw [List.mem_append, List.mem_reverse]
  rw [heq]
  refine ⟨⟨?_, hnodup, ?_, ?_, ?_⟩, ?_⟩
  · exact (hmet root).2 (.inr hq.begun)
  · intro b hb
    rcases (hmet b).1 hb with hb | hb
    · exact (hq.path a ha).tail ((htargets b).1 ((hnew b).1 hb).1)
    · exact hq.path b hb
  · intro b hb
    rcases List.mem_append.1 hb with hb | hb
    · exact (hmet b).2 (.inr (hq.waiting b (List.mem_cons_of_mem _ hb)))
    · exact (hmet b).2 (.inl hb)
  · intro b hb
    rcases (hmet b).1 hb with hb | hb
    · exact .inl (List.mem_append_right _ hb)
    · rcases hq.followed b hb with hwaits | hfollowed
      · rcases List.mem_cons.1 hwaits with rfl | hwaits
        · -- the point whose turn it was: what it leads to has just been met
          refine .inr fun c hc => (hmet c).2 ?_
          by_cases hcmet : c ∈ met
          · exact .inr hcmet
          · exact .inl ((hnew c).2 ⟨(htargets c).2 hc, hcmet⟩)
        · exact .inl (List.mem_append_left _ hwaits)
      · exact .inr fun c hc => (hmet c).2 (.inr (hfollowed c hc))
  · show (new.reverse ++ met).length + waiting.length = met.length + (waiting ++ new).length
    rw [List.length_append, List.length_append, List.length_reverse]
    omega

/-- In whatever order points are listed, no point waits after as many turns as there are points at
the ends of paths, and these have been met then. -/
theorem exists_drain {points : List α} (hpoints : ∀ b, ReflTransGen R root b → b ∈ points)
    {listings : List (α → List α)} (hlistings : ∀ targets ∈ listings, ∀ a b, b ∈ targets a ↔ R a b)
    {q : Queue α} (hq : Queue.Spreads R root q)
    (henough : points.length + q.waiting.length ≤ listings.length + q.met.length) :
    ∃ found, drain listings q = some found ∧ found.Nodup ∧
      ∀ b, b ∈ found ↔ ReflTransGen R root b := by
  fun_induction drain listings q with
  | case1 listings met => exact ⟨met, rfl, hq.nodup, fun b => hq.mem_iff⟩
  | case2 met a waiting =>
    -- so many points as have been met do not exist
    have hle : met.length ≤ points.length :=
      (hq.nodup.subperm fun b hb => hpoints b (hq.path b hb)).length_le
    simp only [List.length_cons, List.length_nil] at henough
    omega
  | case3 targets listings met a waiting ih =>
    obtain ⟨hfirst, hrest⟩ := List.forall_mem_cons.1 hlistings
    obtain ⟨hnext, hlength⟩ := hq.turn (hfirst a)
    refine ih hrest hnext ?_
    simp only [List.length_cons] at henough
    omega

/-! ## A stack -/

/-- Takes points from the top. One that has not been visited becomes so, and what it leads to is
put on the stack, the last one on top. Each turn has its own listing, and there is no result if
the listings do not suffice. -/
def unwind : List (α → List α) → List α → List α → Option (List α)
  | _, visited, [] => some visited
  | [], _, _ :: _ => none
  | targets :: listings, visited, a :: stack =>
    if a ∈ visited then unwind listings visited stack
    else unwind listings (a :: visited) ((targets a).reverse ++ stack)

section

omit [DecidableEq α]

variable {visited stack : List α}

/-- For every point, the points to which it leads are listed, each of them once. -/
structure Lists (R : α → α → Prop) (targets : α → List α) : Prop where
  nodup : ∀ a, (targets a).Nodup
  mem_iff : ∀ {a b}, b ∈ targets a ↔ R a b

lemma Lists.reverse {targets : α → List α} (htargets : Lists R targets) :
    Lists R fun a => (targets a).reverse where
  nodup a := List.nodup_reverse.2 (htargets.nodup a)
  mem_iff := List.mem_reverse.trans htargets.mem_iff

/-- What is visited is visited once. It is the end of a path, as is what lies on the stack, and all
that it leads to has been visited or lies there. -/
structure Unwinds (R : α → α → Prop) (root : α) (visited stack : List α) : Prop where
  begun : root ∈ visited ∨ root ∈ stack
  nodup : visited.Nodup
  path : ∀ b, b ∈ visited ∨ b ∈ stack → ReflTransGen R root b
  followed : ∀ b ∈ visited, ∀ c, R b c → c ∈ visited ∨ c ∈ stack

lemma unwinds_root : Unwinds R root [] [root] where
  begun := .inr (List.mem_singleton_self root)
  nodup := List.nodup_nil
  path b hb := by
    rcases hb with hb | hb
    · exact absurd hb List.not_mem_nil
    · rw [List.mem_singleton.1 hb]
  followed b hb := absurd hb List.not_mem_nil

/-- When the stack is empty, the ends of all paths have been visited. -/
lemma Unwinds.mem_iff (hu : Unwinds R root visited []) : b ∈ visited ↔ ReflTransGen R root b :=
  mem_iff_path_of_closed (hu.begun.resolve_right List.not_mem_nil) (fun b hb => hu.path b (.inl hb))
    fun b hb c hc => (hu.followed b hb c hc).resolve_right List.not_mem_nil

/-- A point on top of the stack is not missed if it has been visited. -/
lemma mem_or_mem_of_mem_cons (ha : a ∈ visited) (hb : b ∈ visited ∨ b ∈ a :: stack) :
    b ∈ visited ∨ b ∈ stack := by
  rcases hb with hb | hb
  · exact .inl hb
  · rcases List.mem_cons.1 hb with rfl | hb
    · exact .inl ha
    · exact .inr hb

/-- A point that has been visited is taken off. -/
lemma Unwinds.skip (hu : Unwinds R root visited (a :: stack)) (ha : a ∈ visited) :
    Unwinds R root visited stack where
  begun := mem_or_mem_of_mem_cons ha hu.begun
  nodup := hu.nodup
  path b hb := hu.path b (hb.imp_right (List.mem_cons_of_mem a))
  followed b hb c hc := mem_or_mem_of_mem_cons ha (hu.followed b hb c hc)

/-- A point that has not been visited makes room for what it leads to. -/
lemma Unwinds.follow {targets : List α} (hu : Unwinds R root visited (a :: stack))
    (ha : a ∉ visited) (htargets : ∀ b, b ∈ targets ↔ R a b) :
    Unwinds R root (a :: visited) (targets.reverse ++ stack) := by
  have hpath : ReflTransGen R root a := hu.path a (.inr List.mem_cons_self)
  have hkept : ∀ b, b ∈ visited ∨ b ∈ a :: stack →
      b ∈ a :: visited ∨ b ∈ targets.reverse ++ stack := by
    intro b hb
    rcases hb with hb | hb
    · exact .inl (List.mem_cons_of_mem a hb)
    · rcases List.mem_cons.1 hb with rfl | hb
      · exact .inl List.mem_cons_self
      · exact .inr (List.mem_append_right _ hb)
  refine ⟨hkept root hu.begun, List.nodup_cons.2 ⟨ha, hu.nodup⟩, ?_, ?_⟩
  · intro b hb
    rcases hb with hb | hb
    · rcases List.mem_cons.1 hb with rfl | hb
      · exact hpath
      · exact hu.path b (.inl hb)
    · rcases List.mem_append.1 hb with hb | hb
      · exact hpath.tail ((htargets b).1 (List.mem_reverse.1 hb))
      · exact hu.path b (.inr (List.mem_cons_of_mem a hb))
  · intro b hb c hc
    rcases List.mem_cons.1 hb with rfl | hb
    · exact .inr (List.mem_append_left _ (List.mem_reverse.2 ((htargets c).2 hc)))
    · exact hkept c (hu.followed b hb c hc)

end

/-- The edges that leave a point are used up when it is visited. -/
lemma length_staying_cons {visited : List α} (edges : List (α × α)) (ha : a ∉ visited) :
    (leaving [a] edges).length + (staying (a :: visited) edges).length =
      (staying visited edges).length := by
  induction edges with
  | nil => rfl
  | cons e edges ih =>
    simp only [leaving, staying, List.filter_cons, List.mem_cons] at ih ⊢
    by_cases he : e.1 = a
    · simp [he, ha] at ih ⊢
      omega
    · by_cases hvisited : e.1 ∈ visited
      · simpa [he, hvisited] using ih
      · simp [he, hvisited] at ih ⊢
        omega

/-- No point leads to more points than edges leave it. -/
lemma Lists.length_le {edges : List (α × α)} (hedges : ∀ a b, R a b → (a, b) ∈ edges)
    {targets : α → List α} (htargets : Lists R targets) (a : α) :
    (targets a).length ≤ (leaving [a] edges).length := by
  have hnodup : ((targets a).map (a, ·)).Nodup :=
    List.Nodup.map (fun b c hbc => (Prod.mk.inj hbc).2) (htargets.nodup a)
  have hsub : (targets a).map (a, ·) ⊆ leaving [a] edges := by
    intro e he
    obtain ⟨b, hb, rfl⟩ := List.mem_map.1 he
    exact mem_leaving.2 ⟨hedges a b (htargets.mem_iff.1 hb), List.mem_singleton_self a⟩
  simpa using (hnodup.subperm hsub).length_le

/-- In whatever order points are listed, the stack is empty after as many turns as it has points and
edges that are not used up, and then the ends of all paths have been visited. -/
theorem exists_unwind {edges : List (α × α)} (hedges : ∀ a b, R a b → (a, b) ∈ edges)
    {listings : List (α → List α)} (hlistings : ∀ targets ∈ listings, Lists R targets)
    {visited stack : List α} (hu : Unwinds R root visited stack)
    (henough : stack.length + (staying visited edges).length ≤ listings.length) :
    ∃ found, unwind listings visited stack = some found ∧ found.Nodup ∧
      ∀ b, b ∈ found ↔ ReflTransGen R root b := by
  fun_induction unwind listings visited stack with
  | case1 listings visited => exact ⟨visited, rfl, hu.nodup, fun b => hu.mem_iff⟩
  | case2 visited a stack =>
    simp only [List.length_cons, List.length_nil] at henough
    omega
  | case3 targets listings visited a stack ha ih =>
    simp only [List.length_cons] at henough
    exact ih (List.forall_mem_cons.1 hlistings).2 (hu.skip ha) (by omega)
  | case4 targets listings visited a stack ha ih =>
    obtain ⟨hfirst, hrest⟩ := List.forall_mem_cons.1 hlistings
    refine ih hrest (hu.follow ha fun b => hfirst.mem_iff) ?_
    -- the stack gets longer only by what the visit takes from the edges
    have hlength := hfirst.length_le hedges a
    have hused := length_staying_cons edges ha
    simp only [List.length_cons] at henough
    rw [List.length_append, List.length_reverse]
    omega

end Closure

namespace Grammar

open Closure

variable {g : Grammar} {a b : Symbol}

/-! ## Reachable nonterminals -/

/-- The nonterminals of the bodies of a symbol, in the order in which these are listed. -/
def mentioned (bodies : Symbol → List Form) (a : Symbol) : List Symbol :=
  (bodies a).flatten.filter Symbol.isNonterminal

lemma mem_mentioned {bodies : Symbol → List Form} (hbodies : ∀ a, (bodies a).Perm (g.bodies a)) :
    b ∈ mentioned bodies a ↔ g.Mentions a b := by
  simp only [mentioned, List.mem_filter, List.mem_flatten, (hbodies a).mem_iff, mem_bodies,
    Mentions]
  constructor
  · rintro ⟨⟨body, hbody, hb⟩, hn⟩
    exact ⟨body, hbody, hb, hn⟩
  · rintro ⟨body, hbody, hb, hn⟩
    exact ⟨⟨body, hbody, hb⟩, hn⟩

/-- Whatever the order in which bodies are looked at, no nonterminal is left in the queue after as
many turns as there are nonterminals in use. Then the reachable ones have been met, each once: those
that occur in a form derived from the start symbol, whether they have productions or not. -/
theorem reachable_exact (hg : g.Built) {orders : List (Symbol → List Form)}
    (horders : ∀ bodies ∈ orders, ∀ a, (bodies a).Perm (g.bodies a))
    (henough : g.nonterminals.toList.length ≤ orders.length) :
    (∃ found, drain (orders.map mentioned) ⟨[g.start], [g.start]⟩ = some found ∧ found.Nodup ∧
      SortedSet.ofList found = g.reachable) ∧
    ∀ a, a ∈ g.reachable ↔
      a.isNonterminal = true ∧ ∃ form, g.Derives [g.start] form ∧ a ∈ form := by
  constructor
  · have hlistings : ∀ targets ∈ orders.map mentioned, ∀ a b, b ∈ targets a ↔ g.Mentions a b := by
      intro targets htargets a b
      obtain ⟨bodies, hbodies, rfl⟩ := List.mem_map.1 htargets
      exact mem_mentioned (horders bodies hbodies)
    have hpoints : ∀ b, ReflTransGen g.Mentions g.start b → b ∈ g.nonterminals.toList :=
      fun b hb => path_mem_nonterminals hb
    obtain ⟨found, hfound, hnodup, hmem⟩ :=
      exists_drain hpoints hlistings Queue.spreads_root (by simpa using henough)
    refine ⟨found, hfound, hnodup, SortedSet.ext fun a => ?_⟩
    rw [SortedSet.mem_ofList, hmem, mem_reachable_iff_path]
    exact (and_iff_right_of_imp path_mem_nonterminals).symm
  · intro a
    rw [mem_reachable_iff hg.admissible]
    refine and_congr_right fun _ => ⟨?_, ?_⟩
    · rintro ⟨u, v, hd⟩
      exact ⟨_, hd, by simp⟩
    · rintro ⟨form, hd, ha⟩
      obtain ⟨u, v, rfl⟩ := List.append_of_mem ha
      exact ⟨u, v, hd⟩

/-- A grammar that comes back to its start symbol, with a nonterminal that has no productions and
one that is not reachable. -/
def rambling : Grammar :=
  ⟨'S', .ofList [⟨'S', ['A', 'b', 'A']⟩, ⟨'S', ['B']⟩, ⟨'A', ['S', 'C']⟩, ⟨'B', []⟩,
    ⟨'D', ['A', 'D']⟩]⟩

theorem reachable_rambling :
    rambling.Built ∧ rambling.nonterminals.toList.length = 5 ∧
      (∃ found,
        drain ([rambling.bodies, fun a => (rambling.bodies a).reverse, rambling.bodies,
          rambling.bodies, rambling.bodies].map mentioned) ⟨['S'], ['S']⟩ = some found ∧
          found.Nodup ∧ SortedSet.ofList found = rambling.reachable) ∧
      ∀ a, a ∈ rambling.reachable ↔
        a.isNonterminal = true ∧ ∃ form, rambling.Derives [rambling.start] form ∧ a ∈ form := by
  have hbuilt : rambling.Built :=
    @Built.rules _ 'S' [('S', [['A', 'b', 'A'], ['B']]), ('A', [['S', 'C']]), ('B', [[]]),
      ('D', [['A', 'D']])] rfl
  have hcount : rambling.nonterminals.toList.length = 5 := by decide +kernel
  refine ⟨hbuilt, hcount, reachable_exact hbuilt ?_ ?_⟩
  · simp [List.reverse_perm]
  · rw [hcount]
    decide

/-! ## Unit closure -/

/-- The nonterminals to which unit productions lead from a symbol, in alphabet order. -/
def unitsOf (g : Grammar) (a : Symbol) : List Symbol :=
  (g.unitTargets.filter fun b => g.unitLinks.contains (a, b)).toList

lemma lists_unitsOf (g : Grammar) : Lists g.UnitLink g.unitsOf where
  nodup a := (SortedSet.ascending _).nodup
  mem_iff := by
    intro a b
    rw [unitsOf, SortedSet.mem_toList, SortedSet.mem_filter, List.contains_iff_mem, mem_unitLinks,
      mem_unitTargets]
    exact and_iff_right_of_imp fun hlink => ⟨a, hlink⟩

lemma keys_unitClosure (g : Grammar) : g.unitClosure.map Prod.fst = g.unitHeads.toList := by
  rw [unitClosure, List.map_map]
  exact List.map_id _

/-- An entry holds what chains of unit productions lead to, the key itself excepted. -/
lemma mem_iff_of_mem_unitClosure {reached : SortedSet Symbol}
    (hentry : (a, reached) ∈ g.unitClosure) :
    b ∈ reached ↔ b ≠ a ∧ ReflTransGen g.UnitLink a b := by
  rw [← mem_unitClosure_iff]
  constructor
  · intro hb
    exact ⟨reached, hentry, hb⟩
  · rintro ⟨reached', hentry', hb⟩
    have hnodup : (g.unitClosure.map Prod.fst).Nodup := by
      rw [keys_unitClosure]
      exact (SortedSet.ascending _).nodup
    have hsame := List.inj_on_of_nodup_map hnodup hentry hentry' rfl
    rwa [(Prod.mk.inj hsame).2]

/-- Whatever the order in which unit productions are followed from a key, its stack is empty after
one turn more than there are unit productions; what has been visited then, each symbol once, is the
key and its entry. The keys are the heads of unit productions, each once, and an entry holds the
other nonterminals to which chains of them lead. -/
theorem unitClosure_exact {listings : List (Symbol → List Symbol)}
    (hlistings : ∀ targets ∈ listings, Lists g.UnitLink targets)
    (henough : g.unitLinks.length < listings.length) :
    (∀ a reached, (a, reached) ∈ g.unitClosure →
      ∃ found, unwind listings [] [a] = some found ∧ found.Nodup ∧
        (SortedSet.ofList found).erase a = reached) ∧
    (g.unitClosure.map Prod.fst).Nodup ∧
    (∀ a, a ∈ g.unitClosure.map Prod.fst ↔ ∃ b, g.UnitLink a b) ∧
    ∀ a reached, (a, reached) ∈ g.unitClosure →
      ∀ b, b ∈ reached ↔ b ≠ a ∧ TransGen g.UnitLink a b := by
  refine ⟨fun a reached hentry => ?_, ?_, fun a => ?_, fun a reached hentry b => ?_⟩
  · have hturns : [a].length + (staying [] g.unitLinks).length ≤ listings.length := by
      have hall : staying [] g.unitLinks = g.unitLinks := by simp [staying]
      rw [hall, List.length_singleton]
      omega
    obtain ⟨found, hfound, hnodup, hmem⟩ := exists_unwind
      (fun a b hlink => mem_unitLinks.2 hlink) hlistings unwinds_root hturns
    refine ⟨found, hfound, hnodup, SortedSet.ext fun b => ?_⟩
    rw [SortedSet.mem_erase, SortedSet.mem_ofList, hmem, mem_iff_of_mem_unitClosure hentry]
    exact and_comm
  · rw [keys_unitClosure]
    exact (SortedSet.ascending _).nodup
  · rw [keys_unitClosure, SortedSet.mem_toList, mem_unitHeads]
  · rw [mem_iff_of_mem_unitClosure hentry, reflTransGen_iff_eq_or_transGen]
    exact and_congr_right fun hne => or_iff_right hne

/-- A grammar whose unit productions run in circles. -/
def circular : Grammar :=
  ⟨'A', .ofList [⟨'A', ['A']⟩, ⟨'A', ['B']⟩, ⟨'B', ['A']⟩, ⟨'B', ['C']⟩, ⟨'C', ['B']⟩,
    ⟨'C', ['D']⟩, ⟨'D', ['d']⟩]⟩

/-- Ways to follow them: first in alphabet order, then against it. -/
def circularListings : List (Symbol → List Symbol) :=
  List.replicate 4 circular.unitsOf ++ List.replicate 3 fun a => (circular.unitsOf a).reverse

theorem unitClosure_circular :
    circular.unitLinks.length = 6 ∧
      (∀ targets ∈ circularListings, Lists circular.UnitLink targets) ∧
      ('A', SortedSet.ofList ['B', 'C', 'D']) ∈ circular.unitClosure ∧
      (∀ a reached, (a, reached) ∈ circular.unitClosure →
        ∃ found, unwind circularListings [] [a] = some found ∧ found.Nodup ∧
          (SortedSet.ofList found).erase a = reached) ∧
      (circular.unitClosure.map Prod.fst).Nodup ∧
      (∀ a, a ∈ circular.unitClosure.map Prod.fst ↔ ∃ b, circular.UnitLink a b) ∧
      ∀ a reached, (a, reached) ∈ circular.unitClosure →
        ∀ b, b ∈ reached ↔ b ≠ a ∧ TransGen circular.UnitLink a b := by
  have hcount : circular.unitLinks.length = 6 := by decide +kernel
  have hlistings : ∀ targets ∈ circularListings, Lists circular.UnitLink targets := by
    intro targets htargets
    rcases List.mem_append.1 htargets with htargets | htargets
    · rw [List.eq_of_mem_replicate htargets]
      exact circular.lists_unitsOf
    · rw [List.eq_of_mem_replicate htargets]
      exact circular.lists_unitsOf.reverse
  refine ⟨hcount, hlistings, by decide +kernel, unitClosure_exact hlistings ?_⟩
  rw [hcount]
  decide

end Grammar

end ContextFree
