import ContextFree.Derivation
import Mathlib.Data.List.Basic
import Mathlib.Tactic.Common

/-!
# What a form yields

Derivations rewrite one symbol at a time, in any order. `Grammar.Yields` says the same about
terminal words symbol by symbol, without an order: a terminal yields itself, and the head of a
production yields what the body yields. `yields_iff` ties the two together.

The second notion is that of an interpretation, which gives every symbol a language. An
interpretation that is closed under the productions of a grammar contains everything the
grammar yields (`Yields.reads`). Transformations of grammars are compared by choosing an
interpretation of the symbols of one grammar in the other.
-/

namespace ContextFree.Grammar

variable {g h : Grammar} {s : Symbol} {u v w : Form}

/-! ## Derivations in context -/

lemma Step.append_left (x : Form) (hs : g.Step u v) : g.Step (x ++ u) (x ++ v) := by
  obtain ⟨left, right, hp⟩ := hs
  simpa using Step.apply (x ++ left) right hp

lemma Step.append_right (x : Form) (hs : g.Step u v) : g.Step (u ++ x) (v ++ x) := by
  obtain ⟨left, right, hp⟩ := hs
  simpa using Step.apply left (right ++ x) hp

lemma Derives.append_left (x : Form) (hd : g.Derives u v) : g.Derives (x ++ u) (x ++ v) := by
  induction hd with
  | refl => exact .refl _
  | step hs _ ih => exact .step (hs.append_left x) ih

lemma Derives.append_right (x : Form) (hd : g.Derives u v) : g.Derives (u ++ x) (v ++ x) := by
  induction hd with
  | refl => exact .refl _
  | step hs _ ih => exact .step (hs.append_right x) ih

/-- Two forms that stand side by side are derived from independently. -/
lemma Derives.append {x y : Form} (hu : g.Derives u x) (hv : g.Derives v y) :
    g.Derives (u ++ v) (x ++ y) :=
  (hu.append_right v).trans (hv.append_left x)

/-- The head of a production derives its body. -/
lemma derives_body {p : Production} (hp : p ∈ g.productions) : g.Derives [p.head] p.body := by
  have hs : g.Step [p.head] p.body := by simpa using Step.apply [] [] hp
  exact .step hs (.refl _)

/-! ## Yields -/

/-- The form yields the terminal word: each of its symbols yields a part of it. -/
inductive Yields (g : Grammar) : Form → Form → Prop
  /-- The empty form yields the empty word. -/
  | nil : Yields g [] []
  /-- A terminal yields itself. -/
  | terminal {s : Symbol} {u w : Form} (hs : s.isTerminal = true) (hu : Yields g u w) :
    Yields g (s :: u) (s :: w)
  /-- The head of a production yields what its body yields. -/
  | production {p : Production} {u x y : Form} (hp : p ∈ g.productions)
      (hx : Yields g p.body x) (hy : Yields g u y) : Yields g (p.head :: u) (x ++ y)

lemma Yields.isTerminal (hy : g.Yields u w) : ∀ t ∈ w, t.isTerminal = true := by
  induction hy with
  | nil => simp
  | terminal hs _ ih =>
    intro t ht
    rcases List.mem_cons.1 ht with rfl | ht
    · exact hs
    · exact ih t ht
  | production _ _ _ ihx ihy =>
    intro t ht
    rcases List.mem_append.1 ht with ht | ht
    · exact ihx t ht
    · exact ihy t ht

lemma Yields.append {x y : Form} (hu : g.Yields u x) (hv : g.Yields v y) :
    g.Yields (u ++ v) (x ++ y) := by
  induction hu with
  | nil => exact hv
  | terminal hs _ ih => exact .terminal hs ih
  | production hp hx _ _ ih =>
    rw [List.append_assoc]
    exact .production hp hx ih

@[simp] lemma yields_nil_iff : g.Yields [] w ↔ w = [] := by
  constructor
  · intro hy
    cases hy
    rfl
  · rintro rfl
    exact .nil

/-- What two forms side by side yield falls into what each of them yields. -/
lemma yields_append_iff :
    g.Yields (u ++ v) w ↔ ∃ x y, w = x ++ y ∧ g.Yields u x ∧ g.Yields v y := by
  constructor
  · intro hy
    induction u generalizing w with
    | nil => exact ⟨[], w, rfl, .nil, hy⟩
    | cons s u ih =>
      rw [List.cons_append] at hy
      cases hy with
      | terminal hs hu =>
        obtain ⟨x, y, rfl, hx, hy⟩ := ih hu
        exact ⟨s :: x, y, rfl, .terminal hs hx, hy⟩
      | production hp hb hu =>
        obtain ⟨x, y, rfl, hx, hy⟩ := ih hu
        exact ⟨_ ++ x, y, by rw [List.append_assoc], .production hp hb hx, hy⟩
  · rintro ⟨x, y, rfl, hx, hy⟩
    exact hx.append hy

lemma yields_cons_iff :
    g.Yields (s :: u) w ↔ ∃ x y, w = x ++ y ∧ g.Yields [s] x ∧ g.Yields u y := by
  rw [← List.singleton_append, yields_append_iff]

/-- A single symbol is a terminal, or a production is applied to it. -/
lemma yields_singleton_iff :
    g.Yields [s] w ↔ (s.isTerminal = true ∧ w = [s]) ∨
      ∃ p ∈ g.productions, p.head = s ∧ g.Yields p.body w := by
  constructor
  · intro hy
    cases hy with
    | terminal hs hu =>
      rw [yields_nil_iff] at hu
      exact .inl ⟨hs, by rw [hu]⟩
    | production hp hx hu =>
      rw [yields_nil_iff] at hu
      exact .inr ⟨_, hp, rfl, by rwa [hu, List.append_nil]⟩
  · rintro (⟨hs, rfl⟩ | ⟨p, hp, rfl, hy⟩)
    · exact .terminal hs .nil
    · simpa using Yields.production hp hy .nil

lemma Yields.of_body {a : Symbol} {body : Form} (hp : (⟨a, body⟩ : Production) ∈ g.productions)
    (hy : g.Yields body w) : g.Yields [a] w :=
  yields_singleton_iff.2 (.inr ⟨_, hp, rfl, hy⟩)

/-- A word of terminals yields itself. -/
lemma yields_self (hw : ∀ t ∈ w, t.isTerminal = true) : g.Yields w w := by
  induction w with
  | nil => exact .nil
  | cons t w ih =>
    exact .terminal (hw t (by simp)) (ih fun s hs => hw s (List.mem_cons_of_mem _ hs))

lemma Yields.exists_of_mem (hy : g.Yields u w) (hs : s ∈ u) : ∃ x, g.Yields [s] x := by
  obtain ⟨left, right, rfl⟩ := List.append_of_mem hs
  obtain ⟨_, _, -, -, hright⟩ := yields_append_iff.1 hy
  obtain ⟨x, _, -, hx, -⟩ := yields_cons_iff.1 hright
  exact ⟨x, hx⟩

lemma exists_yields_of_forall (hu : ∀ s ∈ u, ∃ x, g.Yields [s] x) : ∃ w, g.Yields u w := by
  induction u with
  | nil => exact ⟨[], .nil⟩
  | cons s u ih =>
    obtain ⟨x, hx⟩ := hu s (by simp)
    obtain ⟨y, hy⟩ := ih fun t ht => hu t (List.mem_cons_of_mem _ ht)
    exact ⟨x ++ y, hx.append hy⟩

lemma yields_nil_right_iff : g.Yields u [] ↔ ∀ s ∈ u, g.Yields [s] [] := by
  induction u with
  | nil => simp
  | cons s u ih =>
    rw [yields_cons_iff, List.forall_mem_cons, ← ih]
    constructor
    · rintro ⟨x, y, hxy, hx, hy⟩
      obtain ⟨rfl, rfl⟩ := List.nil_eq_append_iff.1 hxy
      exact ⟨hx, hy⟩
    · rintro ⟨hx, hy⟩
      exact ⟨[], [], rfl, hx, hy⟩

/-! ## Yields and derivations -/

lemma Yields.derives (hy : g.Yields u w) : g.Derives u w := by
  induction hy with
  | nil => exact .refl _
  | terminal _ _ ih => exact ih.append_left [_]
  | production hp _ _ ihx ihy => exact ((derives_body hp).trans ihx).append ihy

/-- What a form derives yields only what the form itself yields. -/
lemma Yields.of_derives (hd : g.Derives u v) (hy : g.Yields v w) : g.Yields u w := by
  induction hd with
  | refl => exact hy
  | step hs _ ih =>
    obtain ⟨left, right, hp⟩ := hs
    -- the body stands between the two sides of its head
    obtain ⟨_, z, rfl, hleft, hz⟩ := yields_append_iff.1 (ih hy)
    obtain ⟨x, y, rfl, hx, hbody⟩ := yields_append_iff.1 hleft
    rw [List.append_assoc]
    exact hx.append (.production hp hbody hz)

/-- A form yields exactly the terminal words that it derives. -/
theorem yields_iff : g.Yields u w ↔ g.Derives u w ∧ ∀ t ∈ w, t.isTerminal = true := by
  constructor
  · intro hy
    exact ⟨hy.derives, hy.isTerminal⟩
  · rintro ⟨hd, hw⟩
    exact .of_derives hd (yields_self hw)

theorem generates_iff_yields {a : Symbol} : g.Generates a w ↔ g.Yields [a] w :=
  yields_iff.symm

theorem inLanguage_iff_yields : g.InLanguage w ↔ g.Yields [g.start] w :=
  yields_iff.symm

/-! ## Interpretations -/

/-- The word is put together from words of the languages that the interpretation gives to the
symbols of the form. -/
def Reads (L : Symbol → Form → Prop) : Form → Form → Prop
  | [], w => w = []
  | s :: u, w => ∃ x y, w = x ++ y ∧ L s x ∧ Reads L u y

lemma Reads.mono {L L' : Symbol → Form → Prop} (hL : ∀ s ∈ u, ∀ x, L s x → L' s x)
    (hr : Reads L u w) : Reads L' u w := by
  induction u generalizing w with
  | nil => exact hr
  | cons s u ih =>
    obtain ⟨x, y, rfl, hx, hy⟩ := hr
    exact ⟨x, y, rfl, hL s (by simp) x hx,
      ih (fun t ht => hL t (List.mem_cons_of_mem _ ht)) hy⟩

lemma reads_singleton_iff {L : Symbol → Form → Prop} : Reads L [s] w ↔ L s w := by
  constructor
  · rintro ⟨x, y, rfl, hx, rfl⟩
    rwa [List.append_nil]
  · intro hw
    exact ⟨w, [], by simp, hw, rfl⟩

/-- Reading every symbol as a form of the grammar is yielding the forms one after the other. -/
lemma reads_yields_iff (meaning : Symbol → Form) :
    Reads (fun s => g.Yields (meaning s)) u w ↔ g.Yields (u.flatMap meaning) w := by
  induction u generalizing w with
  | nil => simp [Reads]
  | cons s u ih =>
    rw [List.flatMap_cons, yields_append_iff]
    simp only [Reads, ih]

lemma reads_yields_self_iff : Reads (fun s => g.Yields [s]) u w ↔ g.Yields u w := by
  rw [reads_yields_iff fun s => [s]]
  simp

/-- An interpretation that agrees with terminals and allows every production. -/
structure Closed (g : Grammar) (L : Symbol → Form → Prop) : Prop where
  terminal : ∀ s, s.isTerminal = true → L s [s]
  production : ∀ p ∈ g.productions, ∀ w, Reads L p.body w → L p.head w

/-- A closed interpretation contains everything that the grammar yields. -/
theorem Yields.reads {L : Symbol → Form → Prop} (hL : g.Closed L) (hy : g.Yields u w) :
    Reads L u w := by
  induction hy with
  | nil => rfl
  | @terminal s u w hs _ ih => exact ⟨[s], w, rfl, hL.terminal s hs, ih⟩
  | @production p u x y hp _ _ ihx ihy => exact ⟨x, y, rfl, hL.production p hp x ihx, ihy⟩

/-- A grammar that makes up for every production of another one yields at least as much. -/
theorem Yields.of_simulates
    (hsim : ∀ p ∈ g.productions, ∀ w, h.Yields p.body w → h.Yields [p.head] w)
    (hy : g.Yields u w) : h.Yields u w := by
  have hclosed : g.Closed fun s => h.Yields [s] := by
    refine ⟨fun s hs => .terminal hs .nil, fun p hp w hr => ?_⟩
    exact hsim p hp w (reads_yields_self_iff.1 hr)
  exact reads_yields_self_iff.1 (hy.reads hclosed)

lemma Yields.mono (hsub : ∀ p ∈ g.productions, p ∈ h.productions) (hy : g.Yields u w) :
    h.Yields u w :=
  hy.of_simulates fun _ hp _ hb => .of_body (hsub _ hp) hb

end ContextFree.Grammar
