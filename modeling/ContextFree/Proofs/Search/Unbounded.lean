import ContextFree.Proofs.Search.Enumeration
import Mathlib.Algebra.Group.Action.Defs
import Mathlib.Algebra.Order.BigOperators.Group.List

/-!
# Enumerating without a bound

Without a bound on the length, a form is viable as soon as its nonterminals derive words, be it the
empty word alone. The search then comes to its end exactly if no nonterminal that it meets can come
back beside other symbols (`Space.finite_forms_iff`):

* if one can (`Space.Swells`), there are forms of any length (`Swells.exists_form`);
* if none can, no move adds weight to a form (`WithinWeight.of_leads`), where a symbol weighs the
  more the more symbols it leads to.

For a finite language, forms whose symbols derive words that are not empty can not grow, but symbols
that derive nothing but the empty word can pile up (`ended_words_of_finite_language`).
-/

namespace ContextFree

namespace Space

open Relation

variable {space : Space} {a b : Symbol} {p : Production} {f u v left right : Form}

/-- There are no bounds: neither on the length of words nor on the words themselves. -/
structure Unbounded (space : Space) : Prop where
  limit : space.limit = none
  target : space.target = none

lemma unbounded_ofGrammar (g : Grammar) : (ofGrammar g none none).Unbounded := ⟨rfl, rfl⟩

lemma Unbounded.viable_iff (hspace : space.Unbounded) :
    space.viable f = true ↔ ∀ s ∈ f, s.isTerminal = true ∨ s ∈ space.generating := by
  simp [viable, hspace.limit, hspace.target]

/-- The contracted bodies that can become part of a viable form. -/
structure Applies (space : Space) (p : Production) : Prop where
  mem : p ∈ space.grammar.productions
  viable : space.viable p.body = true

/-- The symbol is replaced by a body that the other symbol is part of. -/
def Brings (space : Space) (a b : Symbol) : Prop :=
  ∃ p, space.Applies p ∧ p.head = a ∧ b ∈ p.body

/-- A nonterminal that the search meets comes back beside other symbols. -/
def Swells (space : Space) : Prop :=
  ∃ p, space.Applies p ∧ 2 ≤ p.body.length ∧ ReflTransGen space.Brings space.start p.head ∧
    ∃ b ∈ p.body, ReflTransGen space.Brings b p.head

lemma Applies.brings (hp : space.Applies p) (hb : b ∈ p.body) : space.Brings p.head b :=
  ⟨p, hp, rfl, hb⟩

/-- A move replaces a symbol by a body, which is then part of a viable form. -/
lemma Unbounded.leads_cases (hspace : space.Unbounded) (huv : space.Leads u v) :
    ∃ p left right, space.Applies p ∧ u = left ++ p.head :: right ∧
      v = left ++ p.body ++ right := by
  have hviable := viable_of_leads huv
  obtain ⟨left, right, hp⟩ := step_of_leads huv
  refine ⟨_, left, right, ⟨hp, hspace.viable_iff.2 fun s hs => ?_⟩, rfl, rfl⟩
  exact hspace.viable_iff.1 hviable s (by simp [hs])

/-! ## Forms that grow -/

/-- In a form that has been reached, viable bodies can be put for any symbol. -/
lemma Unbounded.viable_replace (hspace : space.Unbounded) (hf : left ++ a :: right ∈ space.forms)
    {body : Form} (hbody : space.viable body = true) :
    space.viable (left ++ (body ++ right)) = true := by
  rcases ReflTransGen.cases_tail hf with hstart | ⟨u, -, hlead⟩
  · -- the start symbol stands alone
    obtain ⟨rfl, hcons⟩ | ⟨-, hcons⟩ := List.append_eq_singleton_iff.1 hstart
    · rw [List.cons.inj hcons |>.2, List.nil_append, List.append_nil]
      exact hbody
    · contradiction
  · rw [hspace.viable_iff] at hbody ⊢
    have hviable := hspace.viable_iff.1 (viable_of_leads hlead)
    intro s hs
    rcases List.mem_append.1 hs with hs | hs
    · exact hviable s (by simp [hs])
    · rcases List.mem_append.1 hs with hs | hs
      · exact hbody s hs
      · exact hviable s (by simp [hs])

/-- A body that can become part of a viable form does so wherever its head has been reached. -/
lemma Applies.exists_form (hspace : space.Unbounded) (hp : space.Applies p)
    (hf : f ∈ space.forms) (hhead : p.head ∈ f) :
    ∃ v ∈ space.forms, (∀ b ∈ p.body, b ∈ v) ∧ f.length + p.body.length = v.length + 1 := by
  obtain ⟨left, right, rfl, hleft⟩ := List.eq_append_cons_of_mem hhead
  have hlead := leads_of_mem_grammar hp.mem hleft (hspace.viable_replace hf hp.viable)
  refine ⟨_, hf.tail hlead, fun b hb => by simp [hb], ?_⟩
  simp only [List.length_append, List.length_cons]
  omega

/-- What a symbol brings about comes up in forms that are not shorter. -/
lemma exists_form_of_path (hspace : space.Unbounded)
    (hne : ∀ p ∈ space.grammar.productions, p.body ≠ []) (hpath : ReflTransGen space.Brings a b)
    (hf : f ∈ space.forms) (ha : a ∈ f) : ∃ v ∈ space.forms, b ∈ v ∧ f.length ≤ v.length := by
  induction hpath with
  | refl => exact ⟨f, hf, ha, Nat.le_refl _⟩
  | tail _ hbrings ih =>
    obtain ⟨u, hu, hmem, hle⟩ := ih
    obtain ⟨p, hp, rfl, hb⟩ := hbrings
    obtain ⟨v, hv, hbody, hlength⟩ := hp.exists_form hspace hu hmem
    have hpos : 0 < p.body.length := List.length_pos_iff.2 (hne p hp.mem)
    exact ⟨v, hv, hbody _ hb, by omega⟩

/-- A nonterminal that comes back beside other symbols makes forms as long as one likes. -/
theorem Swells.exists_form (hspace : space.Unbounded)
    (hne : ∀ p ∈ space.grammar.productions, p.body ≠ []) (hswells : space.Swells) (n : Nat) :
    ∃ f ∈ space.forms, n ≤ f.length := by
  obtain ⟨p, hp, htwo, hstart, b, hb, hback⟩ := hswells
  have hlong : ∃ f ∈ space.forms, p.head ∈ f ∧ n ≤ f.length := by
    induction n with
    | zero =>
      obtain ⟨f, hf, hhead, -⟩ :=
        exists_form_of_path hspace hne hstart .refl (List.mem_singleton.2 rfl)
      exact ⟨f, hf, hhead, Nat.zero_le _⟩
    | succ n ih =>
      -- once around: the body is put in, and one of its symbols brings its head back
      obtain ⟨f, hf, hhead, hle⟩ := ih
      obtain ⟨u, hu, hbody, hlength⟩ := hp.exists_form hspace hf hhead
      obtain ⟨v, hv, hhead', hle'⟩ := exists_form_of_path hspace hne hback hu (hbody b hb)
      exact ⟨v, hv, hhead', by omega⟩
  obtain ⟨f, hf, -, hle⟩ := hlong
  exact ⟨f, hf, hle⟩

/-! ## Forms that do not grow -/

/-- The weight of a form: for each symbol, a power by the number of symbols to which it leads. -/
noncomputable def weight (space : Space) (breadth : Nat) (f : Form) : Nat :=
  (f.map fun s => breadth ^ extent space.Brings s).sum

variable {breadth : Nat}

lemma weight_append : space.weight breadth (u ++ v) = space.weight breadth u +
    space.weight breadth v := by
  rw [weight, List.map_append, List.sum_append]
  rfl

lemma weight_cons : space.weight breadth (a :: u) = breadth ^ extent space.Brings a +
    space.weight breadth u := by
  rw [weight, List.map_cons, List.sum_cons]
  rfl

lemma length_le_weight (hbreadth : 0 < breadth) : f.length ≤ space.weight breadth f := by
  have hle := List.length_le_sum_of_one_le (f.map fun s => breadth ^ extent space.Brings s)
    fun n hn => by
      obtain ⟨s, -, rfl⟩ := List.mem_map.1 hn
      exact Nat.pow_pos hbreadth
  rwa [List.length_map] at hle

/-- Where no nonterminal comes back beside other symbols, a body is not heavier than its head. -/
lemma Applies.weight_body_le (hnot : ¬space.Swells) (hp : space.Applies p)
    (hhead : ReflTransGen space.Brings space.start p.head) (hbreadth : p.body.length ≤ breadth)
    (hpos : 0 < breadth) :
    space.weight breadth p.body ≤ breadth ^ extent space.Brings p.head := by
  by_cases htwo : 2 ≤ p.body.length
  · -- none of the symbols leads back, so each of them leads to fewer symbols than the head
    have hlt : ∀ b ∈ p.body, extent space.Brings b < extent space.Brings p.head := fun b hb =>
      extent_lt (hp.brings hb) fun hback => hnot ⟨p, hp, htwo, hhead, b, hb, hback⟩
    obtain ⟨b, hb⟩ := List.exists_mem_of_length_pos (Nat.zero_lt_of_lt htwo)
    obtain ⟨e, he⟩ := Nat.exists_eq_add_one_of_ne_zero (Nat.ne_zero_of_lt (hlt b hb))
    have hle := List.sum_le_card_nsmul (p.body.map fun s => breadth ^ extent space.Brings s)
      (breadth ^ e) fun n hn => by
        obtain ⟨s, hs, rfl⟩ := List.mem_map.1 hn
        have hlt := hlt s hs
        exact Nat.pow_le_pow_right hpos (by omega)
    rw [List.length_map, smul_eq_mul] at hle
    calc space.weight breadth p.body ≤ p.body.length * breadth ^ e := hle
      _ ≤ breadth * breadth ^ e := Nat.mul_le_mul_right _ hbreadth
      _ = breadth ^ extent space.Brings p.head := by rw [he, Nat.pow_succ, Nat.mul_comm]
  · cases hbody : p.body with
    | nil => exact Nat.zero_le _
    | cons b rest =>
      rw [hbody, List.length_cons] at htwo
      have hrest : rest = [] := List.eq_nil_of_length_eq_zero (by omega)
      rw [hrest, weight_cons]
      exact Nat.pow_le_pow_right hpos (extent_le (hp.brings (by simp [hbody])))

/-- A form that can be reached consists of symbols that the start symbol brings about, and it is not
heavier than the start symbol. -/
structure WithinWeight (space : Space) (breadth : Nat) (f : Form) : Prop where
  path : ∀ s ∈ f, ReflTransGen space.Brings space.start s
  weight : space.weight breadth f ≤ space.weight breadth [space.start]

/-- No move adds weight. -/
lemma WithinWeight.of_leads (hspace : space.Unbounded) (hnot : ¬space.Swells)
    (hbreadth : ∀ p ∈ space.grammar.productions, p.body.length ≤ breadth) (hpos : 0 < breadth)
    (hu : space.WithinWeight breadth u) (huv : space.Leads u v) : space.WithinWeight breadth v := by
  obtain ⟨p, left, right, hp, rfl, rfl⟩ := hspace.leads_cases huv
  have hhead := hu.path p.head (by simp)
  refine ⟨fun s hs => ?_, ?_⟩
  · rcases List.mem_append.1 hs with hs | hs
    · rcases List.mem_append.1 hs with hs | hs
      · exact hu.path s (by simp [hs])
      · exact hhead.tail (hp.brings hs)
    · exact hu.path s (by simp [hs])
  · have hbody := hp.weight_body_le hnot hhead (hbreadth p hp.mem) hpos
    have hbefore := hu.weight
    rw [weight_append, weight_cons] at hbefore
    rw [weight_append, weight_append]
    omega

lemma exists_breadth (g : Grammar) :
    ∃ breadth, 0 < breadth ∧ ∀ p ∈ g.productions, p.body.length ≤ breadth := by
  refine ⟨(g.productions.toList.map fun p => p.body.length).sum + 1, Nat.succ_pos _, ?_⟩
  intro p hp
  have hmem : p.body.length ∈ g.productions.toList.map fun p => p.body.length :=
    List.mem_map_of_mem (SortedSet.mem_toList.2 hp)
  exact Nat.le_succ_of_le (List.le_sum_of_mem hmem)

/-- Without bounds, moves reach finitely many forms exactly if no nonterminal comes back beside
other symbols. -/
theorem finite_forms_iff (hspace : space.Unbounded)
    (hne : ∀ p ∈ space.grammar.productions, p.body ≠ []) :
    space.forms.Finite ↔ ¬space.Swells := by
  constructor
  · intro hfinite hswells
    obtain ⟨n, hn⟩ := (hfinite.image List.length).bddAbove
    obtain ⟨f, hf, hle⟩ := hswells.exists_form hspace hne (n + 1)
    have hle' : f.length ≤ n := hn (Set.mem_image_of_mem _ hf)
    omega
  · intro hnot
    obtain ⟨breadth, hpos, hbreadth⟩ := exists_breadth space.grammar
    refine (finite_length_le (space.weight breadth [space.start])).subset fun f hf => ?_
    have hwithin : space.WithinWeight breadth f := by
      induction hf with
      | refl => exact ⟨fun s hs => by rw [List.mem_singleton.1 hs], Nat.le_refl _⟩
      | tail _ hlead ih => exact ih.of_leads hspace hnot hbreadth hpos hlead
    exact (length_le_weight hpos).trans hwithin.weight

end Space

namespace Grammar

variable {g : Grammar} {f : Form}

/-! ## The enumeration -/

lemma finite_forms_iff_not_swells :
    (Space.ofGrammar g none none).forms.Finite ↔ ¬(Space.ofGrammar g none none).Swells :=
  Space.finite_forms_iff (Space.unbounded_ofGrammar g) fun _ hp => (Space.of_mem_grammar hp).2.1

/-- Where a nonterminal comes back beside other symbols, no number of generations is enough. -/
lemma ended_words_eq_false (hg : g.Admissible) (hswells : (Space.ofGrammar g none none).Swells)
    (rounds : Nat) : (g.words none .never rounds).ended = false := by
  rw [← Bool.not_eq_true]
  intro hended
  have hfinite :=
    Space.finite_of_ended_explore (Space.expandsNonwords_ofGrammar hg) rfl hended
  exact finite_forms_iff_not_swells.1 hfinite hswells

/-- A form of symbols that derive more than the empty word derives a word that is as long. -/
lemma exists_yields_length_le (hf : ∀ s ∈ f, ∃ x, x ≠ [] ∧ g.Yields [s] x) :
    ∃ w, g.Yields f w ∧ f.length ≤ w.length := by
  induction f with
  | nil => exact ⟨[], .nil, Nat.le_refl 0⟩
  | cons s f ih =>
    obtain ⟨x, hne, hx⟩ := hf s List.mem_cons_self
    obtain ⟨w, hw, hle⟩ := ih fun t ht => hf t (List.mem_cons_of_mem s ht)
    have hpos : 0 < x.length := List.length_pos_iff.2 hne
    refine ⟨x ++ w, hx.append hw, ?_⟩
    rw [List.length_cons, List.length_append]
    omega

/-- The forms that moves reach are derived by the grammar. -/
lemma derives_of_mem_forms (hf : f ∈ (Space.ofGrammar g none none).forms) :
    g.Derives [g.start] f := by
  induction hf with
  | refl => exact .refl _
  | tail _ hlead ih =>
    obtain ⟨left, right, hp⟩ := Space.step_of_leads hlead
    have hbody := ((Space.of_mem_grammar hp).2.2.append_left left).append_right right
    exact ih.trans (by simpa using hbody)

/-- The words of a finite language bound the forms whose symbols derive more than the empty word. -/
lemma finite_forms_of_language (hg : g.Admissible) (hfinite : {w | g.InLanguage w}.Finite)
    (hproductive : ∀ a ∈ g.reachable, a ∈ g.generating → ∃ w, w ≠ [] ∧ g.Generates a w) :
    (Space.ofGrammar g none none).forms.Finite := by
  obtain ⟨n, hn⟩ := (hfinite.image List.length).bddAbove
  refine ((finite_length_le n).insert [g.start]).subset fun f hf => ?_
  rcases Relation.ReflTransGen.cases_tail hf with rfl | ⟨u, -, hlead⟩
  · exact Set.mem_insert _ _
  · have hderives := derives_of_mem_forms hf
    have hviable := (Space.unbounded_ofGrammar g).viable_iff.1 (Space.viable_of_leads hlead)
    have hlong : ∀ s ∈ f, ∃ x, x ≠ [] ∧ g.Yields [s] x := by
      intro s hs
      rcases hviable s hs with hterminal | hgenerating
      · exact ⟨[s], List.cons_ne_nil s [], .terminal hterminal .nil⟩
      · obtain ⟨left, right, rfl⟩ := List.append_of_mem hs
        have hn := ((mem_generating_iff hg).1 hgenerating).1
        have hreachable := (mem_reachable_iff hg).2 ⟨hn, left, right, hderives⟩
        obtain ⟨w, hne, hw⟩ := hproductive s hreachable hgenerating
        exact ⟨w, hne, generates_iff_yields.1 hw⟩
    obtain ⟨w, hw, hle⟩ := exists_yields_length_le hlong
    have hword : g.InLanguage w := inLanguage_iff_yields.2 (.of_derives hderives hw)
    have hbound : w.length ≤ n := hn (Set.mem_image_of_mem _ hword)
    exact Set.mem_insert_of_mem _ (hle.trans hbound)

/-- For a finite language, the enumeration of all words comes to its end unless a nonterminal comes
back beside other symbols, and then it never does. None comes back so if each nonterminal in use
that derives words derives one that is not empty. -/
theorem ended_words_of_finite_language (hg : g.Built) (hfinite : {w | g.InLanguage w}.Finite) :
    (¬(Space.ofGrammar g none none).Swells →
      ∃ n, ∀ rounds ≥ n, (g.words none .never rounds).ended = true) ∧
    ((Space.ofGrammar g none none).Swells →
      ∀ rounds, (g.words none .never rounds).ended = false) ∧
    ((∀ a ∈ g.reachable, a ∈ g.generating → ∃ w, w ≠ [] ∧ g.Generates a w) →
      ¬(Space.ofGrammar g none none).Swells) := by
  refine ⟨fun hnot => ?_, ended_words_eq_false hg.admissible, fun hproductive => ?_⟩
  · exact Space.exists_ended_explore Space.lengthens_ofGrammar (finite_forms_iff_not_swells.2 hnot)
  · exact finite_forms_iff_not_swells.1
      (finite_forms_of_language hg.admissible hfinite hproductive)

/-- A grammar with finitely many words: two nonterminals lead to one another, but never beside other
symbols, and the recursion of the last one derives no word. -/
def circling : Grammar :=
  ⟨'S', .ofList [⟨'S', ['A', 'B']⟩, ⟨'S', ['a', 'C']⟩, ⟨'A', ['B']⟩, ⟨'A', ['a']⟩, ⟨'A', []⟩,
    ⟨'B', ['A']⟩, ⟨'B', ['b']⟩, ⟨'C', ['c', 'C']⟩]⟩

/-- The words of each nonterminal are within a length, and the last one has none. -/
lemma closed_circling :
    circling.Closed fun s w => w.length ≤ (if s = 'S' then 2 else 1) ∧ s ≠ 'C' := by
  refine ⟨fun s hs => ⟨?_, ?_⟩, fun p hp w hw => ?_⟩
  · split <;> simp
  · rintro rfl
    exact absurd hs (by decide)
  · simp only [circling, SortedSet.mem_ofList, List.mem_cons, List.not_mem_nil, or_false] at hp
    rcases hp with rfl | rfl | rfl | rfl | rfl | rfl | rfl | rfl
    · obtain ⟨x, y, rfl, hx, hy⟩ := hw
      have hx : x.length ≤ 1 := hx.1
      have hy : y.length ≤ 1 := (reads_singleton_iff.1 hy).1
      refine ⟨?_, by decide⟩
      rw [List.length_append, if_pos rfl]
      omega
    all_goals simp_all [Reads]

lemma finite_language_circling : {w | circling.InLanguage w}.Finite := by
  refine (finite_length_le 2).subset fun w hw => ?_
  exact (reads_singleton_iff.1 ((inLanguage_iff_yields.1 hw).reads closed_circling)).1

lemma productive_circling {a : Symbol} {x : Form} (hx : circling.Yields [a] x) :
    ∃ w, w ≠ [] ∧ circling.Yields [a] w := by
  have hA : circling.Yields ['A'] ['a'] :=
    .of_body (by simp [circling]) (.terminal (by decide) .nil)
  have hB : circling.Yields ['B'] ['b'] :=
    .of_body (by simp [circling]) (.terminal (by decide) .nil)
  have hS : circling.Yields ['S'] ['a', 'b'] :=
    .of_body (by simp [circling]) (hA.append hB)
  rcases hx.terminal_or_head List.mem_cons_self with ht | ⟨p, hp, rfl⟩
  · exact ⟨[a], by simp, .terminal ht .nil⟩
  · have hC : p.head ≠ 'C' := (reads_singleton_iff.1 (hx.reads closed_circling)).2
    simp only [circling, SortedSet.mem_ofList, List.mem_cons, List.not_mem_nil, or_false] at hp
    rcases hp with rfl | rfl | rfl | rfl | rfl | rfl | rfl | rfl
    · exact ⟨_, by simp, hS⟩
    · exact ⟨_, by simp, hS⟩
    · exact ⟨_, by simp, hA⟩
    · exact ⟨_, by simp, hA⟩
    · exact ⟨_, by simp, hA⟩
    · exact ⟨_, by simp, hB⟩
    · exact ⟨_, by simp, hB⟩
    · exact absurd rfl hC

theorem ended_words_circling :
    circling.Built ∧ {w | circling.InLanguage w}.Finite ∧
      ¬(Space.ofGrammar circling none none).Swells ∧
      ∃ n, ∀ rounds ≥ n, (circling.words none .never rounds).ended = true := by
  have hbuilt : circling.Built :=
    @Built.rules _ 'S' [('S', [['A', 'B'], ['a', 'C']]), ('A', [['B'], ['a'], []]),
      ('B', [['A'], ['b']]), ('C', [['c', 'C']])] rfl
  obtain ⟨hends, -, hnot⟩ := ended_words_of_finite_language hbuilt finite_language_circling
  have hnot : ¬(Space.ofGrammar circling none none).Swells := by
    refine hnot fun a _ ha => ?_
    obtain ⟨-, x, hx⟩ := (mem_generating_iff hbuilt.admissible).1 ha
    obtain ⟨w, hne, hw⟩ := productive_circling hx
    exact ⟨w, hne, generates_iff_yields.2 hw⟩
  exact ⟨hbuilt, finite_language_circling, hnot, hends hnot⟩

/-- A grammar whose only word is the empty one, and whose forms grow all the same. -/
def doubling : Grammar := ⟨'S', .ofList [⟨'S', ['S', 'S']⟩, ⟨'S', []⟩]⟩

theorem never_ended_words_doubling :
    doubling.Built ∧ {w | doubling.InLanguage w} = {[]} ∧
      ∀ rounds, (doubling.words none .never rounds).ended = false := by
  have hbuilt : doubling.Built := @Built.rules _ 'S' [('S', [['S', 'S'], []])] rfl
  have hnil : doubling.Yields ['S'] [] := .of_body (by simp [doubling]) .nil
  have hclosed : doubling.Closed fun s w => s = 'S' → w = [] := by
    refine ⟨fun s hs heq => ?_, fun p hp w hw => ?_⟩
    · rw [heq] at hs
      exact absurd hs (by decide)
    · simp only [doubling, SortedSet.mem_ofList, List.mem_cons, List.not_mem_nil, or_false] at hp
      rcases hp with rfl | rfl
      · obtain ⟨x, y, rfl, hx, hy⟩ := hw
        intro _
        rw [hx rfl, reads_singleton_iff.1 hy rfl, List.nil_append]
      · exact fun _ => hw
  have hswells : (Space.ofGrammar doubling none none).Swells := by
    have hgenerating : 'S' ∈ doubling.generating :=
      hnil.mem_generating 'S' List.mem_cons_self (by decide)
    have happlies : (Space.ofGrammar doubling none none).Applies ⟨'S', ['S', 'S']⟩ := by
      refine ⟨by decide +kernel, (Space.unbounded_ofGrammar doubling).viable_iff.2 ?_⟩
      intro s hs
      obtain rfl : s = 'S' := by simpa using hs
      exact .inr hgenerating
    exact ⟨_, happlies, Nat.le_refl 2, .refl, 'S', List.mem_cons_self, .refl⟩
  refine ⟨hbuilt, Set.ext fun w => ⟨fun hw => ?_, ?_⟩, fun rounds => ?_⟩
  · exact reads_singleton_iff.1 ((inLanguage_iff_yields.1 hw).reads hclosed) rfl
  · rintro rfl
    exact inLanguage_iff_yields.2 hnil
  · exact ended_words_eq_false hbuilt.admissible hswells rounds

end Grammar

end ContextFree
