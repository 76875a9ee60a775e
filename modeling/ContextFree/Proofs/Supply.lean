import ContextFree.Proofs.Naming

/-!
# The supply of fresh nonterminals

A pass that names bodies takes nonterminals from a pool (`Grammar.pool`), one for each body that
needs a name and has none (`Names.Takes`). Whatever the order in which the bodies come up, the
nonterminals taken are the first ones of the pool and no body is named twice (`Names.InTurn`). So
the pass gets stuck only if more bodies need a name than the pool can serve, and if all of them have
a name in the end, their number tells which nonterminals are in use.
-/

namespace ContextFree

/-! ## The pool -/

lemma Symbol.nodup_nonterminals : Symbol.nonterminals.Nodup := by
  -- the codes are faster to compare than the symbols
  have hcodes : (Symbol.nonterminals.map Char.toNat).Nodup := by decide +kernel
  exact .of_map Char.toNat hcodes

/-- The nonterminals that can still be taken, in the order in which they are. -/
def spare (used : List Symbol) : List Symbol :=
  Symbol.nonterminals.filter fun s => s != Symbol.reserved && !used.contains s

/-- The nonterminals that a grammar leaves to be taken. -/
def Grammar.pool (g : Grammar) : List Symbol := spare g.nonterminals.toList

/-- The first one is next. -/
lemma fresh?_eq_head? (used : List Symbol) : fresh? used = (spare used).head? :=
  List.head?_filter.symm

/-- Once it is taken, the others are left. -/
lemma spare_cons {used rest : List Symbol} {s : Symbol} (hspare : spare used = s :: rest) :
    spare (s :: used) = rest := by
  have hfilter : spare (s :: used) = (spare used).filter (· != s) := by
    rw [spare, spare, List.filter_filter]
    refine List.filter_congr fun x _ => ?_
    rw [List.contains_cons, Bool.not_or, Bool.and_left_comm]
    rfl
  have hnodup : (s :: rest).Nodup := hspare ▸ Symbol.nodup_nonterminals.filter _
  rw [hfilter, hspare, List.filter_cons_of_neg (by simp), List.filter_eq_self]
  intro x hx
  rw [bne_iff_ne]
  rintro rfl
  exact (List.nodup_cons.1 hnodup).1 hx

namespace Names

variable {g : Grammar} {names names' : Names} {needs : List Form} {body : Form}

/-! ## Taking names -/

/-- A nonterminal is taken for a body that needs a name and has none. -/
def Takes (needs : List Form) (names names' : Names) : Prop :=
  ∃ body v, body ∈ needs ∧ names.find? body = none ∧ names.take? body = some (v, names')

/-- No nonterminal is left for a body that needs a name and has none. -/
def Stuck (needs : List Form) (names : Names) : Prop :=
  ∃ body ∈ needs, names.find? body = none ∧ names.take? body = none

/-- Taking names one after the other leads to the given account or, without one, gets stuck. -/
def RunsTo (needs : List Form) (names : Names) : Option Names → Prop
  | some names' => Relation.ReflTransGen (Takes needs) names names'
  | none => ∃ names', Relation.ReflTransGen (Takes needs) names names' ∧ names'.Stuck needs

lemma RunsTo.prepend {result : Option Names}
    (htakes : Relation.ReflTransGen (Takes needs) names names')
    (hruns : names'.RunsTo needs result) : names.RunsTo needs result := by
  cases result with
  | some names'' => exact htakes.trans hruns
  | none =>
    obtain ⟨names'', hruns, hstuck⟩ := hruns
    exact ⟨names'', htakes.trans hruns, hstuck⟩

lemma body_ne_of_find? (hfind : names.find? body = none) {p : Production}
    (hp : p ∈ names.given ++ names.established) : p.body ≠ body := by
  rw [find?, Option.map_eq_none_iff, List.find?_eq_none] at hfind
  simpa using hfind p hp

lemma established_of_take? {v : Symbol} (hv : names.take? body = some (v, names')) :
    names'.established = names.established := by
  obtain ⟨s, -, hs⟩ := Option.map_eq_some_iff.1 hv
  rw [Prod.mk.injEq] at hs
  rw [← hs.2]

lemma established_of_takes (htakes : Relation.ReflTransGen (Takes needs) names names') :
    names'.established = names.established := by
  induction htakes with
  | refl => rfl
  | tail _ hstep ih =>
    obtain ⟨body, v, -, -, hv⟩ := hstep
    rw [established_of_take? hv, ih]

/-- One production after the other takes the names it needs, until all are done or one is stuck. -/
lemma runsTo_foldlM {ps : List Production} {rename : Names → Production → Option Names}
    (hrename : ∀ p ∈ ps, ∀ names : Names, names.established = g.soleProductions →
      names.RunsTo needs (rename names p))
    (hnames : names.established = g.soleProductions) :
    names.RunsTo needs (ps.foldlM rename names) := by
  induction ps generalizing names with
  | nil => exact .refl
  | cons p ps ih =>
    have hfirst := hrename p (by simp) names hnames
    rw [List.foldlM_cons]
    cases hresult : rename names p with
    | none => rwa [hresult] at hfirst
    | some names₁ =>
      rw [hresult] at hfirst
      have hnames₁ := (established_of_takes hfirst).trans hnames
      exact .prepend hfirst (ih (fun q hq => hrename q (List.mem_cons_of_mem _ hq)) hnames₁)

/-! ## Names taken in turn -/

/-- The nonterminals taken so far are the first ones of the pool, the others are left, and each was
taken for another body that needs a name. -/
structure InTurn (names : Names) (g : Grammar) (needs : List Form) : Prop where
  spare : spare names.used = g.pool.drop names.given.length
  heads : (names.given.map Production.head).reverse = g.pool.take names.given.length
  bodies : (names.given.map Production.body).Nodup
  needed : ∀ p ∈ names.given, p.body ∈ needs

lemma inTurn_ofGrammar (g : Grammar) (needs : List Form) : (ofGrammar g).InTurn g needs where
  spare := rfl
  heads := rfl
  bodies := List.nodup_nil
  needed _ hp := absurd hp List.not_mem_nil

/-- A body without a name differs from all that have one. -/
lemma InTurn.nodup_cons (hturn : names.InTurn g needs) (hfind : names.find? body = none) :
    (body :: names.given.map Production.body).Nodup := by
  refine List.nodup_cons.2 ⟨fun hmem => ?_, hturn.bodies⟩
  obtain ⟨p, hp, hbody⟩ := List.mem_map.1 hmem
  exact body_ne_of_find? hfind (List.mem_append_left _ hp) hbody

/-- Taking one name more keeps to the order. -/
lemma InTurn.takes (hturn : names.InTurn g needs) (hstep : Takes needs names names') :
    names'.InTurn g needs := by
  obtain ⟨body, v, hneed, hfind, htake⟩ := hstep
  obtain ⟨s, hfresh, heq⟩ := Option.map_eq_some_iff.1 htake
  rw [Prod.mk.injEq] at heq
  obtain ⟨rfl, rfl⟩ := heq
  have hnext : (g.pool.drop names.given.length).head? = some s := by
    rw [← hturn.spare, ← fresh?_eq_head?, hfresh]
  obtain ⟨rest, hdrop⟩ := List.head?_eq_some_iff.1 hnext
  refine ⟨?_, ?_, hturn.nodup_cons hfind, ?_⟩
  · rw [spare_cons (hturn.spare.trans hdrop), List.length_cons, ← List.tail_drop, hdrop,
      List.tail_cons]
  · rw [List.map_cons, List.reverse_cons, hturn.heads, List.length_cons, List.take_add_one,
      ← List.head?_drop, hnext]
    rfl
  · intro p hp
    rcases List.mem_cons.1 hp with rfl | hp
    · exact hneed
    · exact hturn.needed p hp

/-- All names are taken in turn. -/
theorem inTurn_of_takes (htakes : Relation.ReflTransGen (Takes needs) (ofGrammar g) names) :
    names.InTurn g needs := by
  induction htakes with
  | refl => exact inTurn_ofGrammar g needs
  | tail _ hstep ih => exact ih.takes hstep

namespace InTurn

lemma length_le (hturn : names.InTurn g needs) : names.given.length ≤ g.pool.length := by
  have hlength := congrArg List.length hturn.heads
  rw [List.length_reverse, List.length_map, List.length_take] at hlength
  omega

/-- Who is stuck has used up the pool and still needs a name. -/
lemma length_lt (hturn : names.InTurn g needs) (hstuck : names.Stuck needs) :
    g.pool.length < needs.length := by
  obtain ⟨body, hneed, hfind, htake⟩ := hstuck
  have hempty : g.pool.length ≤ names.given.length := by
    rw [take?, Option.map_eq_none_iff, fresh?_eq_head?, hturn.spare,
      List.head?_eq_none_iff] at htake
    exact List.drop_eq_nil_iff.1 htake
  have hsub : body :: names.given.map Production.body ⊆ needs := by
    refine List.cons_subset.2 ⟨hneed, fun t ht => ?_⟩
    obtain ⟨p, hp, rfl⟩ := List.mem_map.1 ht
    exact hturn.needed p hp
  have hle := (hturn.nodup_cons hfind).length_le_of_subset hsub
  rw [List.length_cons, List.length_map] at hle
  omega

/-- If all that need a name have one, there are as many names as needs. -/
lemma length_eq (hturn : names.InTurn g needs) (hneeds : needs.Nodup)
    (hall : ∀ body ∈ needs, ∃ v, (⟨v, body⟩ : Production) ∈ names.given) :
    names.given.length = needs.length := by
  have hperm : (names.given.map Production.body).Perm needs := by
    rw [List.perm_ext_iff_of_nodup hturn.bodies hneeds]
    intro body
    constructor
    · intro hbody
      obtain ⟨p, hp, rfl⟩ := List.mem_map.1 hbody
      exact hturn.needed p hp
    · intro hbody
      obtain ⟨v, hv⟩ := hall body hbody
      exact List.mem_map_of_mem hv
  rw [← hperm.length_eq, List.length_map]

/-- So many from the pool are the ones that were taken. -/
lemma mem_take_iff (hturn : names.InTurn g needs) {n : Nat} (hn : names.given.length = n)
    {a : Symbol} : a ∈ g.pool.take n ↔ a ∈ names.given.map Production.head := by
  rw [← hn, ← hturn.heads, List.mem_reverse]

end InTurn

/-- A run that gets stuck needs more names than there are. -/
theorem length_lt_of_runsTo (hruns : (ofGrammar g).RunsTo needs none) :
    g.pool.length < needs.length := by
  obtain ⟨names, htakes, hstuck⟩ := hruns
  exact (inTurn_of_takes htakes).length_lt hstuck

end Names

/-! ## Nonterminals newly in use -/

namespace Grammar

variable {g h : Grammar} {names : Names} {Good : Form → Prop}
  {Piece : Names → Production → Production → Prop} {a : Symbol}

/-- A nonterminal in a source belongs to the grammar, if those of named bodies do. -/
lemma Source.mem_nonterminals (hg : g.Admissible) (hs : names.Sound g Good)
    (hgood : ∀ body, Good body → ∀ s ∈ body, s.isTerminal = true ∨ s ∈ g.nonterminals)
    {src : Production} (hsrc : g.Source names src) (ha : a ∈ src.body)
    (hn : a.isNonterminal = true) : a ∈ g.nonterminals := by
  rcases hsrc.plain hg hs hgood a ha with ht | ha
  · rw [Symbol.isTerminal_eq_false hn] at ht
    contradiction
  · exact ha

lemma mem_or_given_of_stands (hs : names.Sound g Good) {v : Symbol} {body : Form}
    (hv : names.Stands v body) : v ∈ g.nonterminals ∨ v ∈ names.given.map Production.head := by
  rcases List.mem_append.1 hv with hv | hv
  · exact .inr (List.mem_map.2 ⟨_, hv, rfl⟩)
  · rw [hs.established] at hv
    exact .inl (head_mem_nonterminals (mem_soleProductions.1 hv).1)

namespace Rewritten

/-- Only the nonterminals that were taken are new, if pieces use no others. -/
lemma mem_nonterminals_iff (hr : g.Rewritten h Good Piece names)
    (hpiece : ∀ src q, g.Source names src → Piece names src q → q.head = src.head ∧
      ∀ s ∈ q.body, s.isNonterminal = true →
        s ∈ g.nonterminals ∨ s ∈ names.given.map Production.head) :
    a ∈ h.nonterminals ∧ a ∉ g.nonterminals ↔ a ∈ names.given.map Production.head := by
  constructor
  · rintro ⟨ha, hnew⟩
    rcases mem_nonterminals.1 ha with rfl | ⟨q, hq, hmem⟩
    · rw [hr.start] at hnew
      exact absurd (mem_nonterminals.2 (.inl rfl)) hnew
    · obtain ⟨src, hsrc, hpq⟩ := hr.justified q hq
      obtain ⟨hhead, hbody⟩ := hpiece src q hsrc hpq
      rcases hmem with rfl | ⟨hmem, hn⟩
      · rw [hhead] at hnew ⊢
        rcases hsrc with hsrc | hsrc
        · exact absurd (head_mem_nonterminals hsrc) hnew
        · exact List.mem_map_of_mem hsrc
      · exact (hbody a hmem hn).resolve_left hnew
  · intro ha
    obtain ⟨p, hp, rfl⟩ := List.mem_map.1 ha
    obtain ⟨q, hq, hpq⟩ := hr.covered p (.inr hp)
    refine ⟨?_, (hr.sound.fresh p hp).1⟩
    rw [← (hpiece p q (.inr hp) hpq).1]
    exact head_mem_nonterminals hq

end Rewritten

end Grammar

end ContextFree
