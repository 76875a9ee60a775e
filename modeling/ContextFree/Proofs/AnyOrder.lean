import ContextFree.Proofs.Built
import ContextFree.Proofs.Closures
import Mathlib.Data.List.Perm.Subperm

/-!
# Closures in any order

`Grammar.generating` and `Grammar.nullable` collect nonterminals in rounds, each of which looks only
at what the earlier ones have found. The same sets come out if every nonterminal counts from the
moment it is found: passes are made over the productions until one of them finds nothing
(`Closure.passes`). The nonterminals, and the bodies of each, may be visited in any order, which
may change from pass to pass (`Grammar.IsOrder`).

What is known only grows, and it never goes beyond what is collected in rounds (`Gathered`). A pass
that finds nothing has left no nonterminal behind that is ready, so nothing is missing either. Every
other pass finds one of finitely many heads, so a last pass comes (`exists_passes`). The main result
is `generating_exact`.
-/

namespace ContextFree

namespace Closure

/-- A nonterminal and its bodies, in the order in which they are looked at. -/
abbrev Visit := Symbol × List Form

/-- Looks at a nonterminal. Unless it is known, it becomes so if each symbol of one of its bodies is
free or known. -/
def visit (free : Symbol → Bool) (known : List Symbol) (v : Visit) : List Symbol :=
  if known.contains v.1 then known
  else if v.2.any fun body => body.all fun s => free s || known.contains s then v.1 :: known
  else known

/-- Looks at nonterminals one after the other, each time with all that is known by then. -/
def pass (free : Symbol → Bool) (known : List Symbol) (order : List Visit) : List Symbol :=
  order.foldl (visit free) known

/-- Makes passes in the given orders, one after the other, until one of them finds nothing. There
is no result if the orders do not suffice. -/
def passes (free : Symbol → Bool) (known : List Symbol) : List (List Visit) → Option (List Symbol)
  | [] => none
  | order :: orders =>
    let next := pass free known order
    if next.length = known.length then some next else passes free next orders

variable {free : Symbol → Bool} {known : List Symbol} {v : Visit} {order : List Visit}

/-! ## What is known grows -/

lemma suffix_visit : known <:+ visit free known v := by
  unfold visit
  split
  · exact List.suffix_rfl
  · split
    · exact List.suffix_cons _ _
    · exact List.suffix_rfl

lemma suffix_pass : known <:+ pass free known order := by
  induction order generalizing known with
  | nil => exact List.suffix_rfl
  | cons v order ih => exact suffix_visit.trans ih

/-- A pass that finds nothing has found nothing at any of its visits. -/
lemma visit_eq_self_of_pass (hpass : pass free known order = known) :
    ∀ v ∈ order, visit free known v = known := by
  induction order with
  | nil => simp
  | cons v order ih =>
    -- what the first visit finds would stay
    have hfirst : visit free known v = known := by
      have hlast : visit free known v <:+ known := by
        have hsuffix : visit free known v <:+ pass free known (v :: order) := suffix_pass
        rwa [hpass] at hsuffix
      exact (hlast.eq_of_length_le suffix_visit.length_le)
    have hrest : pass free known order = known := by
      rwa [pass, List.foldl_cons, hfirst] at hpass
    exact List.forall_mem_cons.2 ⟨hfirst, ih hrest⟩

end Closure

namespace Grammar

open Closure

variable {g : Grammar} {free : Symbol → Bool} {known : List Symbol} {a : Symbol} {v : Visit}
  {order : List Visit}

/-- Whether a nonterminal has a body of free and known symbols. -/
def readyBy (g : Grammar) (free : Symbol → Bool) (known : List Symbol) (a : Symbol) : Bool :=
  (g.bodies a).any fun body => body.all fun s => free s || known.contains s

lemma readyBy_iff : g.readyBy free known a = true ↔
    ∃ body, (⟨a, body⟩ : Production) ∈ g.productions ∧ ∀ s ∈ body, free s = true ∨ s ∈ known := by
  simp [readyBy]

lemma readyBy_mono {known' : List Symbol} (hknown : known ⊆ known')
    (hready : g.readyBy free known a = true) : g.readyBy free known' a = true := by
  obtain ⟨body, hp, hbody⟩ := readyBy_iff.1 hready
  exact readyBy_iff.2 ⟨body, hp, fun s hs => (hbody s hs).imp_right (hknown ·)⟩

/-- The heads that the rounds collect. -/
def gathered (g : Grammar) (free : Symbol → Bool) : List Symbol :=
  collect (g.readyBy free) g.headSet.toList

lemma mem_headSet_of_mem_gathered (ha : a ∈ g.gathered free) : a ∈ g.headSet :=
  collect_sound (· ∈ g.headSet) (fun _ _ _ hb _ => hb) a ha

lemma mem_gathered_of_readyBy (hready : g.readyBy free (g.gathered free) a = true) :
    a ∈ g.gathered free := by
  obtain ⟨body, hp, -⟩ := readyBy_iff.1 hready
  exact mem_collect_of_ready (mem_headSet.2 ⟨_, hp, rfl⟩) hready

/-! ## Orders -/

/-- Every nonterminal that has bodies is visited once, with all of its bodies. -/
structure IsOrder (g : Grammar) (order : List Visit) : Prop where
  heads : (order.map Prod.fst).Perm g.heads
  bodies : ∀ v ∈ order, v.2.Perm (g.bodies v.1)

instance : Decidable (g.IsOrder order) :=
  decidable_of_iff
    ((order.map Prod.fst).Perm g.heads ∧ ∀ v ∈ order, v.2.Perm (g.bodies v.1))
    ⟨fun h => ⟨h.1, h.2⟩, fun h => ⟨h.heads, h.bodies⟩⟩

lemma IsOrder.exists_visit (horder : g.IsOrder order) (ha : a ∈ g.headSet) :
    ∃ v ∈ order, v.1 = a := by
  have hmem : a ∈ order.map Prod.fst := by
    rw [horder.heads.mem_iff, mem_heads]
    exact mem_headSet.1 ha
  exact List.mem_map.1 hmem

/-- What a visit does, whatever the order of the bodies. -/
lemma visit_cases (free : Symbol → Bool) (known : List Symbol) (hv : v.2.Perm (g.bodies v.1)) :
    (visit free known v = known ∧ (g.readyBy free known v.1 = true → v.1 ∈ known)) ∨
      (visit free known v = v.1 :: known ∧ v.1 ∉ known ∧ g.readyBy free known v.1 = true) := by
  have hready : (v.2.any fun body => body.all fun s => free s || known.contains s) =
      g.readyBy free known v.1 := hv.any_eq
  unfold visit
  rw [hready]
  by_cases hmem : v.1 ∈ known
  · left
    rw [if_pos (List.contains_iff_mem.2 hmem)]
    exact ⟨rfl, fun _ => hmem⟩
  · rw [if_neg (mt List.contains_iff_mem.1 hmem)]
    by_cases hr : g.readyBy free known v.1 = true
    · right
      rw [if_pos hr]
      exact ⟨rfl, hmem, hr⟩
    · left
      rw [if_neg hr]
      exact ⟨rfl, fun hr' => absurd hr' hr⟩

/-! ## Passes -/

/-- What is known is listed once and is part of what the rounds collect. -/
structure Gathered (g : Grammar) (free : Symbol → Bool) (known : List Symbol) : Prop where
  nodup : known.Nodup
  subset : known ⊆ g.gathered free

lemma gathered_nil : g.Gathered free [] := ⟨.nil, List.nil_subset _⟩

lemma Gathered.visit (hknown : g.Gathered free known) (hv : v.2.Perm (g.bodies v.1)) :
    g.Gathered free (visit free known v) := by
  rcases visit_cases free known hv with ⟨heq, -⟩ | ⟨heq, hnew, hready⟩
  · rwa [heq]
  · rw [heq]
    refine ⟨List.nodup_cons.2 ⟨hnew, hknown.nodup⟩, List.cons_subset.2 ⟨?_, hknown.subset⟩⟩
    exact mem_gathered_of_readyBy (readyBy_mono hknown.subset hready)

lemma Gathered.pass (hknown : g.Gathered free known)
    (hbodies : ∀ v ∈ order, v.2.Perm (g.bodies v.1)) : g.Gathered free (pass free known order) := by
  induction order generalizing known with
  | nil => exact hknown
  | cons v order ih =>
    obtain ⟨hv, hrest⟩ := List.forall_mem_cons.1 hbodies
    exact ih (hknown.visit hv) hrest

lemma Gathered.length_le (hknown : g.Gathered free known) : known.length ≤ g.heads.length := by
  refine (hknown.nodup.subperm fun a ha => ?_).length_le
  exact mem_heads.2 (mem_headSet.1 (mem_headSet_of_mem_gathered (hknown.subset ha)))

/-- A pass that finds nothing leaves no nonterminal behind that is ready. -/
lemma IsOrder.mem_of_readyBy (horder : g.IsOrder order) (hpass : pass free known order = known)
    (hready : g.readyBy free known a = true) : a ∈ known := by
  obtain ⟨body, hp, -⟩ := readyBy_iff.1 hready
  obtain ⟨v, hv, rfl⟩ := horder.exists_visit (mem_headSet.2 ⟨_, hp, rfl⟩)
  have hsame := visit_eq_self_of_pass hpass v hv
  rcases visit_cases free known (horder.bodies v hv) with ⟨-, hmem⟩ | ⟨heq, -⟩
  · exact hmem hready
  · rw [hsame] at heq
    exact absurd heq.symm (List.cons_ne_self _ _)

/-- When nothing is left that is ready, everything has been found that the rounds collect. -/
lemma Gathered.mem_iff (hknown : g.Gathered free known)
    (hclosed : ∀ a, g.readyBy free known a = true → a ∈ known) :
    a ∈ known ↔ a ∈ g.gathered free := by
  constructor
  · exact fun ha => hknown.subset ha
  · refine collect_sound (· ∈ known) (fun known' hknown' b _ hready => ?_) a
    exact hclosed b (readyBy_mono hknown' hready)

/-- In whatever orders the passes are made, there is a last one if there are more of them than
heads, and what is found is what the rounds collect. -/
theorem exists_passes {orders : List (List Visit)} (hknown : g.Gathered free known)
    (horders : ∀ order ∈ orders, g.IsOrder order)
    (henough : g.heads.length < known.length + orders.length) :
    ∃ found, passes free known orders = some found ∧ found.Nodup ∧
      ∀ a, a ∈ found ↔ a ∈ g.gathered free := by
  induction orders generalizing known with
  | nil =>
    have hle := hknown.length_le
    simp only [List.length_nil] at henough
    omega
  | cons order orders ih =>
    obtain ⟨horder, hrest⟩ := List.forall_mem_cons.1 horders
    have hnext := hknown.pass horder.bodies
    rw [passes]
    by_cases hlength : (pass free known order).length = known.length
    · have hsame : pass free known order = known :=
        (suffix_pass.eq_of_length hlength.symm).symm
      refine ⟨known, ?_, hknown.nodup, fun a => ?_⟩
      · rw [if_pos hlength, hsame]
      · exact hknown.mem_iff fun b hb => horder.mem_of_readyBy hsame hb
    · -- the pass has found something
      have hle : known.length ≤ (pass free known order).length := suffix_pass.length_le
      rw [if_neg hlength]
      refine ih hnext hrest ?_
      rw [List.length_cons] at henough
      omega

/-! ## The sets -/

lemma exists_passes_eq {set : SortedSet Symbol} (hset : ∀ a, a ∈ set ↔ a ∈ g.gathered free)
    {orders : List (List Visit)} (horders : ∀ order ∈ orders, g.IsOrder order)
    (henough : g.heads.length < orders.length) :
    ∃ found, passes free [] orders = some found ∧ found.Nodup ∧ SortedSet.ofList found = set := by
  obtain ⟨found, hfound, hnodup, hmem⟩ :=
    exists_passes gathered_nil horders (by simpa using henough)
  refine ⟨found, hfound, hnodup, SortedSet.ext fun a => ?_⟩
  rw [SortedSet.mem_ofList, hmem, hset]

/-- For generating nonterminals, terminals are free. -/
lemma mem_generating_iff_gathered :
    a ∈ g.generating ↔ a ∈ g.gathered fun s => !s.isNonterminal := by
  rw [mem_generating_iff_collect]
  exact and_iff_right_of_imp mem_headSet_of_mem_gathered

/-- For nullable ones, nothing is. -/
lemma mem_nullable_iff_gathered : a ∈ g.nullable ↔ a ∈ g.gathered fun _ => false := by
  have hready : g.vanishesBy = g.readyBy fun _ => false := by
    funext known a
    simp only [vanishesBy, readyBy, Bool.false_or]
  rw [mem_nullable_iff_collect, hready]
  exact and_iff_right_of_imp mem_headSet_of_mem_gathered

/-- Whatever the orders in which passes look at nonterminals and bodies, one of them is the last if
there are more of them than heads. Then the generating nonterminals have been found, each once:
those that derive a word. -/
theorem generating_exact (hg : g.Built) {orders : List (List Visit)}
    (horders : ∀ order ∈ orders, g.IsOrder order) (henough : g.heads.length < orders.length) :
    (∃ found, passes (fun s => !s.isNonterminal) [] orders = some found ∧ found.Nodup ∧
      SortedSet.ofList found = g.generating) ∧
    ∀ a, a ∈ g.generating ↔ a.isNonterminal = true ∧ ∃ w, g.Generates a w := by
  refine ⟨exists_passes_eq (fun a => mem_generating_iff_gathered) horders henough, fun a => ?_⟩
  simp only [generates_iff_yields]
  exact mem_generating_iff hg.admissible

/-- A grammar with nonterminals that generate words only by way of each other, and two that generate
none. -/
def layered : Grammar :=
  ⟨'S', .ofList [⟨'S', ['A', 'B']⟩, ⟨'A', ['B', 'a']⟩, ⟨'A', ['S']⟩, ⟨'B', []⟩, ⟨'C', ['C', 'a']⟩,
    ⟨'C', ['D']⟩]⟩

/-- An order in which every pass but the last finds one nonterminal. -/
def layeredOrder : List Visit :=
  [('C', [['D'], ['C', 'a']]), ('S', [['A', 'B']]), ('A', [['S'], ['B', 'a']]), ('B', [[]])]

theorem generating_layered :
    layered.Built ∧ layered.heads.length = 4 ∧ layered.IsOrder layeredOrder ∧
      layered.IsOrder layeredOrder.reverse ∧
      (∃ found,
        passes (fun s => !s.isNonterminal) []
          [layeredOrder, layeredOrder, layeredOrder.reverse, layeredOrder, layeredOrder] =
            some found ∧ found.Nodup ∧ SortedSet.ofList found = layered.generating) ∧
      ∀ a, a ∈ layered.generating ↔ a.isNonterminal = true ∧ ∃ w, layered.Generates a w := by
  have hbuilt : layered.Built :=
    @Built.rules _ 'S' [('S', [['A', 'B']]), ('A', [['B', 'a'], ['S']]), ('B', [[]]),
      ('C', [['C', 'a'], ['D']])] rfl
  have hheads : layered.heads.length = 4 := by decide +kernel
  have horder : layered.IsOrder layeredOrder := by decide +kernel
  have hreverse : layered.IsOrder layeredOrder.reverse := by decide +kernel
  refine ⟨hbuilt, hheads, horder, hreverse, generating_exact hbuilt ?_ ?_⟩
  · simp [horder, hreverse]
  · rw [hheads]
    decide

end Grammar

end ContextFree
