import ContextFree.Erasure
import ContextFree.Proofs.Closures
import ContextFree.Proofs.Contraction

/-!
# How nullable symbols vanish

The table of erasers is grounded (`Grammar.Grounded`): each of its productions is one of the
grammar, and the symbols of its body have their own entries further down. Following the table
is therefore a derivation of the empty form (`passes_vanish`), and so is every way in which a
marking lets symbols vanish (`passes_passed`).

The table has an entry for every nullable nonterminal and for no other symbol
(`mem_erasers_iff`).
-/

namespace ContextFree

namespace Grammar

variable {g : Grammar} {u v w : Form} {l m : List Form}

/-! ## Passing forms -/

/-- From the first form, the listed ones are passed, each by a step from the one before it, and the
last one is the second form. -/
inductive Passes (g : Grammar) : Form → List Form → Form → Prop
  | nil (u : Form) : Passes g u [] u
  | cons {u v w : Form} {l : List Form} (hs : g.Step u v) (rest : Passes g v l w) :
    Passes g u (v :: l) w

lemma Passes.append (hl : g.Passes u l v) (hm : g.Passes v m w) : g.Passes u (l ++ m) w := by
  induction hl with
  | nil => exact hm
  | cons hs _ ih => exact .cons hs (ih hm)

/-- Forms are passed in the same way when other symbols stand around them. -/
lemma Passes.context (left right : Form) (hl : g.Passes u l v) :
    g.Passes (left ++ u ++ right) (l.map fun form => left ++ form ++ right)
      (left ++ v ++ right) := by
  induction hl with
  | nil => exact .nil _
  | cons hs _ ih => exact .cons ((hs.append_left left).append_right right) ih

lemma Passes.cons_left (s : Symbol) (hl : g.Passes u l v) :
    g.Passes (s :: u) (l.map (s :: ·)) (s :: v) := by
  simpa using hl.context [s] []

lemma Passes.append_right (right : Form) (hl : g.Passes u l v) :
    g.Passes (u ++ right) (l.map (· ++ right)) (v ++ right) := by
  simpa using hl.context [] right

lemma Passes.derives (hl : g.Passes u l v) : g.Derives u v := by
  induction hl with
  | nil => exact .refl _
  | cons hs _ ih => exact .step hs ih

/-- Forms that are passed make a chain of steps. -/
lemma Passes.linked (hl : g.Passes u l v) :
    Derivation.Linked g (u :: l) ∧ (u :: l).getLast? = some v := by
  induction hl with
  | nil => exact ⟨trivial, rfl⟩
  | cons hs _ ih => exact ⟨⟨hs, ih.1⟩, by rw [List.getLast?_cons_cons]; exact ih.2⟩

/-! ## Grounded tables -/

/-- Every entry is a production whose symbols have entries further down. -/
def Grounded (g : Grammar) : List Production → Prop
  | [] => True
  | p :: table => p ∈ g.productions ∧ (∀ s ∈ p.body, ∃ q ∈ table, q.head = s) ∧ Grounded g table

/-- Entries whose symbols are all in a grounded table may be put before it. -/
lemma Grounded.append {new table : List Production} (htable : g.Grounded table)
    (hnew : ∀ p ∈ new, p ∈ g.productions ∧ ∀ s ∈ p.body, ∃ q ∈ table, q.head = s) :
    g.Grounded (new ++ table) := by
  induction new with
  | nil => exact htable
  | cons p new ih =>
    obtain ⟨hp, hbody⟩ := hnew p (by simp)
    refine ⟨hp, fun s hs => ?_, ih fun q hq => hnew q (List.mem_cons_of_mem _ hq)⟩
    obtain ⟨q, hq, hhead⟩ := hbody s hs
    exact ⟨q, List.mem_append_right _ hq, hhead⟩

/-- A symbol with an entry passes forms of the grammar on its way to nothing. -/
theorem passes_vanish {table : List Production} (htable : g.Grounded table) {s : Symbol}
    (hs : ∃ p ∈ table, p.head = s) : g.Passes [s] (vanish table s) [] := by
  induction table generalizing s with
  | nil => simp at hs
  | cons p table ih =>
    obtain ⟨hp, hbody, htable⟩ := htable
    rw [vanish]
    split
    · rename_i heq
      -- the body is put in, and its symbols vanish from right to left
      have hrest : ∀ body : Form, (∀ t ∈ body, ∃ q ∈ table, q.head = t) →
          g.Passes body
            (body.foldr (fun t forms => forms.map (t :: ·) ++ vanish table t) []) [] := by
        intro body hsymbols
        induction body with
        | nil => exact .nil _
        | cons t body ihbody =>
          have hothers := ihbody fun s hs => hsymbols s (List.mem_cons_of_mem _ hs)
          exact (hothers.cons_left t).append (ih htable (hsymbols t (by simp)))
      have hstep : g.Step [s] p.body := by
        rw [heq]
        simpa using Step.apply [] [] hp
      exact .cons hstep (hrest p.body hbody)
    · rename_i hne
      obtain ⟨q, hq, hhead⟩ := hs
      rcases List.mem_cons.1 hq with rfl | hq
      · exact absurd hhead.symm hne
      · exact ih htable ⟨q, hq, hhead⟩

/-- A body passes forms of the grammar while its marked symbols vanish. -/
theorem passes_passed {table : List Production} (htable : g.Grounded table) {m : Marking}
    (hm : m.Erases fun s => ∃ p ∈ table, p.head = s) :
    g.Passes m.origin (Marking.passed table m) m.kept := by
  induction m with
  | nil => exact .nil _
  | cons mark m ih =>
    obtain ⟨hmark, hm⟩ := Marking.erases_cons_iff.1 hm
    have hrest := (ih hm).cons_left mark.symbol
    rw [Marking.origin_cons, Marking.passed]
    split
    · rename_i herased
      rw [Marking.kept_cons_of_erased herased]
      have hvanish := (passes_vanish htable (hmark herased)).append_right (Marking.kept m)
      exact hrest.append hvanish
    · rename_i hkept
      rw [Marking.kept_cons_of_not_erased (by simpa using hkept), List.append_nil]
      exact hrest

/-! ## The table of a grammar -/

/-- The entry that a nonterminal gets when the table holds the given ones. -/
def eraser? (g : Grammar) (table : List Production) (a : Symbol) : Option Production :=
  ((g.bodies a).find? fun body => body.all fun s => table.any fun p => p.head == s).map
    (Production.mk a)

lemma eraser?_eq_some {table : List Production} {a : Symbol} {p : Production}
    (hp : g.eraser? table a = some p) :
    p.head = a ∧ p ∈ g.productions ∧ ∀ s ∈ p.body, ∃ q ∈ table, q.head = s := by
  obtain ⟨body, hfind, rfl⟩ := Option.map_eq_some_iff.1 hp
  have hall := List.find?_some hfind
  rw [List.all_eq_true] at hall
  refine ⟨rfl, mem_bodies.1 (List.mem_of_find?_eq_some hfind), fun s hs => ?_⟩
  simpa using hall s hs

lemma eraser?_ne_none {table : List Production} {p : Production} (hp : p ∈ g.productions)
    (hbody : ∀ s ∈ p.body, ∃ q ∈ table, q.head = s) : g.eraser? table p.head ≠ none := by
  rw [eraser?, ne_eq, Option.map_eq_none_iff, List.find?_eq_none]
  intro hnone
  refine hnone p.body (mem_bodies.2 hp) (List.all_eq_true.2 fun s hs => ?_)
  simpa using hbody s hs

/-- Every entry is made from the entries of earlier rounds. -/
theorem grounded_erasers : g.Grounded g.erasers := by
  have hround : ∀ (table : List Production) (pending : List Symbol), g.Grounded table →
      g.Grounded (Closure.accepted (g.eraser? table) pending ++ table) := by
    intro table pending htable
    refine htable.append fun p hp => ?_
    obtain ⟨a, -, ha⟩ := Closure.mem_accepted.1 hp
    exact (eraser?_eq_some ha).2
  obtain ⟨_, hgrounded, -⟩ := @Closure.saturate_invariant _ _ g.eraser?
    (fun table _ => g.Grounded table) hround [] g.heads trivial
  exact hgrounded

/-- A head has got an entry as soon as the symbols of one of its bodies have theirs. -/
lemma exists_eraser_of_body {p : Production} (hp : p ∈ g.productions)
    (hbody : ∀ s ∈ p.body, ∃ q ∈ g.erasers, q.head = s) : ∃ q ∈ g.erasers, q.head = p.head := by
  have hround : ∀ (table : List Production) (pending : List Symbol),
      (∀ a ∈ g.heads, (∃ q ∈ table, q.head = a) ∨ a ∈ pending) →
      ∀ a ∈ g.heads, (∃ q ∈ Closure.accepted (g.eraser? table) pending ++ table, q.head = a) ∨
        a ∈ Closure.remaining (g.eraser? table) pending := by
    intro table pending hinv a ha
    rcases hinv a ha with ⟨q, hq, hhead⟩ | hpending
    · exact .inl ⟨q, List.mem_append_right _ hq, hhead⟩
    · cases hentry : g.eraser? table a with
      | none => exact .inr (Closure.mem_remaining.2 ⟨hpending, hentry⟩)
      | some q =>
        have hq := Closure.mem_accepted.2 ⟨a, hpending, hentry⟩
        exact .inl ⟨q, List.mem_append_left _ hq, (eraser?_eq_some hentry).1⟩
  obtain ⟨rest, hinv, hrest⟩ := @Closure.saturate_invariant _ _ g.eraser?
    (fun table pending => ∀ a ∈ g.heads, (∃ q ∈ table, q.head = a) ∨ a ∈ pending) hround
    [] g.heads fun a ha => .inr ha
  refine (hinv p.head (mem_heads.2 ⟨p, hp, rfl⟩)).resolve_right fun hleft => ?_
  -- a head that is left over in the end would have been refused then
  exact eraser?_ne_none hp hbody (hrest p.head hleft)

lemma Yields.exists_eraser (hy : g.Yields u w) (hw : w = []) :
    ∀ s ∈ u, ∃ q ∈ g.erasers, q.head = s := by
  induction hy with
  | nil => simp
  | terminal => contradiction
  | @production p u x y hp _ _ ihx ihy =>
    obtain ⟨rfl, rfl⟩ := List.append_eq_nil_iff.1 hw
    exact List.forall_mem_cons.2 ⟨exists_eraser_of_body hp (ihx rfl), ihy rfl⟩

/-- Exactly the nullable symbols have an entry. -/
theorem mem_erasers_iff {s : Symbol} : (∃ p ∈ g.erasers, p.head = s) ↔ s ∈ g.nullable := by
  rw [mem_nullable_iff]
  constructor
  · intro hs
    exact yields_iff.2 ⟨(passes_vanish grounded_erasers hs).derives, by simp⟩
  · intro hy
    exact hy.exists_eraser rfl s (by simp)

end Grammar

end ContextFree
