import ContextFree.Proofs.AnyOrder
import ContextFree.Proofs.Erasers
import Mathlib.Data.List.Nodup

/-!
# Nullable symbols and how they vanish

Which symbols are nullable is computed twice: as a set (`Grammar.nullable`), and as a table that
gives each of them a body to vanish by (`Grammar.erasers`). Both hold exactly the nonterminals that
derive the empty word.

In the table every symbol has one entry at most (`nodup_heads_erasers`), and the symbols of its body
have theirs further down. So the order of the table can be forgotten: by way of the bodies no symbol
leads back to itself (`wellFounded_chosen`), and looking up one body after the other comes to an end
wherever a nullable symbol stands (`erases_of_grounded`). On the way the forms are passed that
`vanish` lists.

The main result is `nullability_exact`.
-/

namespace ContextFree

variable {g : Grammar} {table earlier later : List Production} {p : Production} {s : Symbol}
  {depth : Nat}

/-! ## Looking bodies up -/

/-- The body that a table gives for a symbol, the empty one if there is no entry. -/
def lookUp (table : List Production) (s : Symbol) : Form :=
  ((table.find? fun p => p.head == s).map Production.body).getD []

/-- Lets the symbol at a place of a form vanish: the body that is looked up for it is put in, and
then the symbols of that body vanish in the same way, from right to left. The forms are added to
the chain. There is no result if the form is too short, or if calls are nested more deeply than
`depth`. -/
def eraseAt (table : List Production) :
    Nat → Derivation → Form → Nat → Option (Derivation × Form)
  | 0, _, _, _ => none
  | depth + 1, chain, form, i =>
    form[i]?.bind fun s =>
      let body := lookUp table s
      let form := form.take i ++ body ++ form.drop (i + 1)
      (List.range' i body.length).reverse.foldlM
        (fun state j => eraseAt table depth state.1 state.2 j) (chain ++ [form], form)

/-- An entry is found if no entry before it is for the same symbol. -/
lemma lookUp_append_cons (hearlier : ∀ q ∈ earlier, q.head ≠ p.head) :
    lookUp (earlier ++ p :: later) p.head = p.body := by
  have hnone : (earlier.find? fun q => q.head == p.head) = none := by
    rw [List.find?_eq_none]
    intro q hq
    simpa using hearlier q hq
  rw [lookUp, List.find?_append, hnone, Option.none_or, List.find?_cons_of_pos]
  · rfl
  · exact beq_self_eq_true p.head

lemma eraseAt_append_cons (chain : Derivation) (left right : Form) :
    eraseAt table (depth + 1) chain (left ++ s :: right) left.length =
      (List.range' left.length (lookUp table s).length).reverse.foldlM
        (fun state j => eraseAt table depth state.1 state.2 j)
        (chain ++ [left ++ lookUp table s ++ right], left ++ lookUp table s ++ right) := by
  have hplace : (left ++ s :: right)[left.length]? = some s := by simp
  have hleft : (left ++ s :: right).take left.length = left := List.take_left
  have hright : (left ++ s :: right).drop (left.length + 1) = right := by simp
  rw [eraseAt, hplace, hleft, hright]
  rfl

/-- In any surroundings, the symbol vanishes with calls nested so deeply, and passes the listed
forms. -/
def Erases (table : List Production) (depth : Nat) (s : Symbol) (forms : List Form) : Prop :=
  ∀ (chain : Derivation) (left right : Form),
    eraseAt table depth chain (left ++ s :: right) left.length =
      some (chain ++ forms.map fun form => left ++ form ++ right, left ++ right)

/-- If the symbols of a body vanish one by one, the body vanishes. -/
lemma foldlM_eraseAt {body : Form} (hbody : ∀ t ∈ body, Erases table depth t (vanish later t))
    (chain : Derivation) (left right : Form) :
    (List.range' left.length body.length).reverse.foldlM
        (fun state j => eraseAt table depth state.1 state.2 j) (chain, left ++ body ++ right) =
      some (chain ++ (body.foldr (fun t forms => forms.map (t :: ·) ++ vanish later t) []).map
        fun form => left ++ form ++ right, left ++ right) := by
  induction body generalizing chain left with
  | nil => simp
  | cons t body ih =>
    obtain ⟨ht, hrest⟩ := List.forall_mem_cons.1 hbody
    -- the symbols on the right vanish with the first one standing on their left
    have hothers := ih hrest chain (left ++ [t])
    rw [List.length_append, List.length_singleton, List.append_assoc left, List.singleton_append]
      at hothers
    rw [List.length_cons, List.range'_succ, List.reverse_cons, List.foldlM_append, hothers]
    simp only [Option.bind_eq_bind, Option.bind_some, List.foldlM_cons, List.foldlM_nil]
    rw [List.append_assoc left, List.singleton_append, ht]
    simp [Function.comp_def]

/-- Whatever entries come before, a symbol that has one in a grounded table vanishes, with calls
nested no more deeply than there are entries from its own one on. -/
theorem erases_of_grounded (hnodup : ((earlier ++ table).map Production.head).Nodup)
    (htable : g.Grounded table) (hs : ∃ p ∈ table, p.head = s) (hdepth : table.length ≤ depth) :
    Erases (earlier ++ table) depth s (vanish table s) := by
  induction table generalizing earlier s depth with
  | nil => simp at hs
  | cons p table ih =>
    obtain ⟨-, hbody, htable⟩ := htable
    have hshift : earlier ++ p :: table = (earlier ++ [p]) ++ table := by simp
    by_cases heq : s = p.head
    · subst heq
      have hearlier : ∀ q ∈ earlier, q.head ≠ p.head := by
        rw [List.map_append, List.nodup_append] at hnodup
        intro q hq
        exact hnodup.2.2 q.head (List.mem_map_of_mem hq) p.head (by simp)
      obtain ⟨depth, rfl⟩ : ∃ d, depth = d + 1 := Nat.exists_eq_succ_of_ne_zero (by
        rw [List.length_cons] at hdepth
        omega)
      have hsymbols : ∀ t ∈ p.body, Erases (earlier ++ p :: table) depth t (vanish table t) := by
        intro t ht
        rw [hshift] at hnodup ⊢
        exact ih hnodup htable (hbody t ht) (Nat.le_of_succ_le_succ hdepth)
      intro chain left right
      rw [eraseAt_append_cons, lookUp_append_cons hearlier, foldlM_eraseAt hsymbols, vanish,
        if_pos rfl]
      simp
    · obtain ⟨q, hq, hhead⟩ := hs
      have hq : q ∈ table := by
        rcases List.mem_cons.1 hq with rfl | hq
        · exact absurd hhead.symm heq
        · exact hq
      rw [vanish, if_neg heq, hshift]
      rw [hshift] at hnodup
      exact ih hnodup htable ⟨q, hq, hhead⟩ (by rw [List.length_cons] at hdepth; omega)

/-- At every place of every form where the symbol stands, it is taken out. -/
lemma Erases.eraseAt_eq {forms : List Form} (hs : Erases table depth s forms) {form : Form}
    {i : Nat} (hi : form[i]? = some s) (chain : Derivation) :
    eraseAt table depth chain form i =
      some (chain ++ forms.map fun passed => form.take i ++ passed ++ form.drop (i + 1),
        form.eraseIdx i) := by
  obtain ⟨hlt, hget⟩ := List.getElem?_eq_some_iff.1 hi
  have hsplit : form.take i ++ s :: form.drop (i + 1) = form := by
    rw [← hget, ← List.drop_eq_getElem_cons, List.take_append_drop]
  have herase := hs chain (form.take i) (form.drop (i + 1))
  rwa [hsplit, List.length_take_of_le (Nat.le_of_lt hlt), ← List.eraseIdx_eq_take_drop_succ]
    at herase

namespace Grammar

open Closure

/-! ## The table of a grammar -/

lemma nodup_heads (g : Grammar) : g.heads.Nodup := by
  unfold heads
  split
  · refine List.nodup_cons.2 ⟨?_, (SortedSet.ascending _).nodup⟩
    rw [SortedSet.mem_toList, SortedSet.mem_erase]
    exact fun hmem => hmem.2 rfl
  · exact g.headSet.ascending.nodup

/-- A round makes one entry at most for every pending nonterminal. -/
lemma nodup_heads_accepted {pending : List Symbol} (hpending : pending.Nodup) :
    ((accepted (g.eraser? table) pending).map Production.head).Nodup := by
  rw [accepted, List.map_filterMap]
  refine List.Nodup.filterMap (fun a b c ha hb => ?_) hpending
  obtain ⟨p, hp, rfl⟩ := Option.map_eq_some_iff.1 ha
  obtain ⟨q, hq, hhead⟩ := Option.map_eq_some_iff.1 hb
  rw [← (eraser?_eq_some hp).1, ← (eraser?_eq_some hq).1, hhead]

/-- No symbol has two entries: what has got one is no longer pending. -/
theorem nodup_heads_erasers (g : Grammar) : (g.erasers.map Production.head).Nodup := by
  have hround : ∀ (table : List Production) (pending : List Symbol),
      ((table.map Production.head).Nodup ∧ pending.Nodup ∧ ∀ p ∈ table, p.head ∉ pending) →
      ((accepted (g.eraser? table) pending ++ table).map Production.head).Nodup ∧
        (remaining (g.eraser? table) pending).Nodup ∧
        ∀ p ∈ accepted (g.eraser? table) pending ++ table,
          p.head ∉ remaining (g.eraser? table) pending := by
    rintro table pending ⟨htable, hpending, hapart⟩
    refine ⟨?_, hpending.filter _, fun p hp hmem => ?_⟩
    · rw [List.map_append, List.nodup_append]
      refine ⟨nodup_heads_accepted hpending, htable, fun a ha b hb hab => ?_⟩
      obtain ⟨p, hp, rfl⟩ := List.mem_map.1 ha
      obtain ⟨q, hq, rfl⟩ := List.mem_map.1 hb
      obtain ⟨c, hc, hentry⟩ := mem_accepted.1 hp
      rw [(eraser?_eq_some hentry).1] at hab
      exact hapart q hq (hab ▸ hc)
    · obtain ⟨hmem, hnone⟩ := mem_remaining.1 hmem
      rcases List.mem_append.1 hp with hp | hp
      · obtain ⟨c, -, hentry⟩ := mem_accepted.1 hp
        rw [(eraser?_eq_some hentry).1, hentry] at hnone
        contradiction
      · exact hapart p hp hmem
  obtain ⟨_, ⟨hnodup, -⟩, -⟩ := @saturate_invariant _ _ g.eraser?
    (fun table pending => (table.map Production.head).Nodup ∧ pending.Nodup ∧
      ∀ p ∈ table, p.head ∉ pending) hround [] g.heads ⟨.nil, g.nodup_heads, by simp⟩
  exact hnodup

/-- The second symbol stands in the body that the first one vanishes by. -/
def Chosen (g : Grammar) (s t : Symbol) : Prop := ∃ p ∈ g.erasers, p.head = s ∧ t ∈ p.body

lemma Grounded.mem_productions (htable : g.Grounded table) : ∀ p ∈ table, p ∈ g.productions := by
  induction table with
  | nil => simp
  | cons p table ih => exact List.forall_mem_cons.2 ⟨htable.1, ih htable.2.2⟩

/-- What holds of the head of an entry whenever it holds of the symbols of the body, holds of the
heads of all entries of a grounded table. -/
lemma Grounded.forall_head {P : Symbol → Prop} (htable : g.Grounded table)
    (hstep : ∀ p ∈ table, (∀ t ∈ p.body, P t) → P p.head) : ∀ p ∈ table, P p.head := by
  induction table with
  | nil => simp
  | cons p table ih =>
    obtain ⟨-, hbody, htable⟩ := htable
    obtain ⟨hp, hrest⟩ := List.forall_mem_cons.1 hstep
    have hlater := ih htable hrest
    refine List.forall_mem_cons.2 ⟨hp fun t ht => ?_, hlater⟩
    obtain ⟨q, hq, rfl⟩ := hbody t ht
    exact hlater q hq

/-- By way of the bodies that are chosen, no symbol leads back to itself. -/
theorem wellFounded_chosen (g : Grammar) : WellFounded fun t s => g.Chosen s t := by
  have hentry : ∀ p ∈ g.erasers, Acc (fun t s => g.Chosen s t) p.head := by
    refine grounded_erasers.forall_head fun p hp hbody => ⟨_, fun t ht => ?_⟩
    obtain ⟨q, hq, hhead, ht⟩ := ht
    obtain rfl : q = p := List.inj_on_of_nodup_map g.nodup_heads_erasers hq hp hhead
    exact hbody t ht
  refine ⟨fun s => ⟨s, fun t ht => ?_⟩⟩
  obtain ⟨p, hp, rfl, -⟩ := id ht
  exact (hentry p hp).inv ht

/-! ## Main result -/

/-- The set of nullable symbols and the table of erasers both hold exactly the nonterminals that
derive the empty word; the set also if it is computed in passes, in whatever orders. The table has
one production of the grammar for each of them, and no symbol leads back to itself by way of the
bodies. So a nullable symbol can be erased at every place of every form, with calls nested no more
deeply than the table is long: it alone is taken out, and the forms that are passed are those of
`vanish`. -/
theorem nullability_exact (hg : g.Built) :
    (∀ a, a ∈ g.nullable ↔ a.isNonterminal = true ∧ g.Derives [a] []) ∧
    (∀ orders, (∀ order ∈ orders, g.IsOrder order) → g.heads.length < orders.length →
      ∃ found, passes (fun _ => false) [] orders = some found ∧ found.Nodup ∧
        SortedSet.ofList found = g.nullable) ∧
    (∀ a, (∃ p ∈ g.erasers, p.head = a) ↔ a.isNonterminal = true ∧ g.Derives [a] []) ∧
    ((∀ p ∈ g.erasers, p ∈ g.productions) ∧ (g.erasers.map Production.head).Nodup) ∧
    (WellFounded fun t s => g.Chosen s t) ∧
    ∀ depth ≥ g.erasers.length, ∀ (chain : Derivation) (form : Form) (i : Nat) (a : Symbol),
      form[i]? = some a → a ∈ g.nullable →
      eraseAt g.erasers depth chain form i =
        some (chain ++ (vanish g.erasers a).map fun passed =>
          form.take i ++ passed ++ form.drop (i + 1), form.eraseIdx i) := by
  have hderives : ∀ a, a ∈ g.nullable ↔ a.isNonterminal = true ∧ g.Derives [a] [] := by
    intro a
    constructor
    · intro ha
      obtain ⟨p, hp, rfl⟩ := mem_headSet.1 (mem_nullable_iff_collect.1 ha).1
      exact ⟨hg.admissible.head p hp, (mem_nullable_iff.1 ha).derives⟩
    · rintro ⟨-, hd⟩
      exact mem_nullable_iff.2 (yields_iff.2 ⟨hd, by simp⟩)
  refine ⟨hderives, fun orders => exists_passes_eq fun a => mem_nullable_iff_gathered,
    fun a => mem_erasers_iff.trans (hderives a),
    ⟨grounded_erasers.mem_productions, g.nodup_heads_erasers⟩,
    g.wellFounded_chosen, fun depth hdepth chain form i a hi ha => ?_⟩
  have herases : Erases ([] ++ g.erasers) depth a (vanish g.erasers a) :=
    erases_of_grounded g.nodup_heads_erasers grounded_erasers (mem_erasers_iff.2 ha) hdepth
  exact herases.eraseAt_eq hi chain

/-- A grammar in which symbols that vanish by way of each other could lead round in circles. -/
def withering : Grammar :=
  ⟨'S', .ofList [⟨'S', ['A']⟩, ⟨'S', ['a']⟩, ⟨'A', ['S']⟩, ⟨'A', ['B', 'B']⟩, ⟨'B', []⟩,
    ⟨'B', ['A', 'S']⟩]⟩

theorem nullability_withering :
    withering.Built ∧
      (∀ a, a ∈ withering.nullable ↔ a.isNonterminal = true ∧ withering.Derives [a] []) ∧
      (∀ a, (∃ p ∈ withering.erasers, p.head = a) ↔
        a.isNonterminal = true ∧ withering.Derives [a] []) ∧
      (WellFounded fun t s => withering.Chosen s t) ∧
      eraseAt withering.erasers 3 [['b', 'A', 'b']] ['b', 'A', 'b'] 1 =
        some ([['b', 'A', 'b'], ['b', 'B', 'B', 'b'], ['b', 'B', 'b'], ['b', 'b']],
          ['b', 'b']) := by
  have hbuilt : withering.Built :=
    @Built.rules _ 'S' [('S', [['A'], ['a']]), ('A', [['S'], ['B', 'B']]),
      ('B', [[], ['A', 'S']])] rfl
  have hlength : 3 ≥ withering.erasers.length := by decide +kernel
  have hA : 'A' ∈ withering.nullable := by decide +kernel
  have hvanish : vanish withering.erasers 'A' = [['B', 'B'], ['B'], []] := by decide +kernel
  obtain ⟨hset, -, htable, -, hchosen, herase⟩ := nullability_exact hbuilt
  refine ⟨hbuilt, hset, htable, hchosen, ?_⟩
  rw [herase 3 hlength _ _ 1 'A' rfl hA, hvanish]
  rfl

end Grammar

end ContextFree
