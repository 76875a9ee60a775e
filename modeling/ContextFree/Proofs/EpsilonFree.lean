import ContextFree.Proofs.Built
import ContextFree.Proofs.Contraction
import ContextFree.Transform.Epsilon

/-!
# Without empty bodies

What `Grammar.eliminateEpsilon` makes of a grammar is described by `Grammar.EpsilonFree`: the
bodies that are not empty, their contractions, and an empty body for the start symbol if the
grammar yields the empty word. That start symbol occurs in no body then, so the empty word
never gets into anything else.

Every other nonterminal yields what it did before except for the empty word
(`EpsilonFree.yields_iff_of_ne_start`), and the new start symbol yields exactly what the old one
did (`EpsilonFree.yields_start_iff`). The main result, `sameWords_of_eliminateEpsilon`, says both
together with the shape of the result.
-/

namespace ContextFree.Grammar

variable {g h : Grammar} {a s : Symbol} {p q : Production} {u w : Form}

/-! ## The plan of the pass -/

lemma mem_shortenings :
    q ∈ g.shortenings ↔ q.body ≠ [] ∧ q.body ≠ [q.head] ∧ ∃ m : Marking,
      (⟨q.head, m.origin⟩ : Production) ∈ g.productions ∧
      m ∈ Marking.choices (fun s => decide (s ∈ g.nullable)) m.origin ∧
      m.any Mark.erased = true ∧ m.kept = q.body := by
  obtain ⟨a, body⟩ := q
  simp only [shortenings, List.mem_flatMap, mem_listing, List.mem_map, List.mem_filter,
    Marking.mem_erasures, Bool.and_eq_true, Bool.not_eq_true', List.isEmpty_eq_false_iff,
    bne_iff_ne, Production.mk.injEq]
  constructor
  · rintro ⟨p, hp, body', ⟨⟨m, hm, herased, rfl⟩, hne, hself⟩, rfl, rfl⟩
    have horigin := (Marking.of_mem_choices hm).1
    exact ⟨hne, hself, m, horigin.symm ▸ hp, by rwa [horigin], herased, rfl⟩
  · rintro ⟨hne, hself, m, hp, hm, herased, rfl⟩
    exact ⟨_, hp, _, ⟨⟨m, hm, herased, rfl⟩, hne, hself⟩, rfl, rfl⟩

lemma exists_marking_of_mem_shortenings (hq : q ∈ g.shortenings) :
    ∃ m : Marking, (⟨q.head, m.origin⟩ : Production) ∈ g.productions ∧
      (m.Erases fun s => s ∈ g.nullable) ∧ m.kept = q.body := by
  obtain ⟨-, -, m, hp, hm, -, hkept⟩ := mem_shortenings.1 hq
  refine ⟨m, hp, fun mark hmark herased => ?_, hkept⟩
  simpa using (Marking.of_mem_choices hm).2 mark hmark herased

/-- The start symbol of the result is the present one if that occurs in no body, or else one that
is not in use. -/
lemma of_epsilonStart_eq_ok (hs : g.epsilonStart = .ok s) :
    (s = g.start ∧ ∀ p ∈ g.productions, g.start ∉ p.body) ∨
      (s ∉ g.nonterminals ∧ s.isNonterminal = true) := by
  unfold epsilonStart at hs
  dsimp only at hs
  split at hs
  · right
    split at hs
    · split at hs
      · rename_i t ht
        cases hs
        obtain ⟨hn, -, hfresh⟩ := of_fresh?_eq_some ht
        exact ⟨hfresh, hn⟩
      · contradiction
    · rename_i hreserved
      cases hs
      exact ⟨hreserved, Symbol.isNonterminal_reserved⟩
  · rename_i hoccurs
    cases hs
    exact .inl ⟨rfl, by simpa using hoccurs⟩

/-- The grammar after the edits, for a given start symbol of the result. -/
def contractAt (g : Grammar) (restart : List Edit) (s : Symbol) : Grammar :=
  (g.shortenings.map Edit.add ++ restart ++ g.epsilonRemovals s).foldl Edit.apply g

/-- How the pass can come to a result. -/
lemma eliminateEpsilon_cases (hh : g.eliminateEpsilon.value = .ok h) :
    ((∀ a, a ∉ g.nullable) ∧ h = g) ∨
    (g.start ∉ g.nullable ∧ h = g.contractAt [] g.start) ∨
    (g.start ∈ g.nullable ∧ ∃ s, g.epsilonStart = .ok s ∧
      h = g.contractAt (g.epsilonRestart s) s) := by
  unfold eliminateEpsilon at hh
  dsimp only at hh
  split at hh
  · rename_i hnone
    rw [Logged.value_map, Stage.value_skip, Except.ok.injEq] at hh
    exact .inl ⟨SortedSet.isEmpty_iff.1 hnone, hh.symm⟩
  · right
    split at hh
    · rename_i hstart
      split at hh
      · contradiction
      · rename_i s hs
        rw [Logged.value_map, Stage.value_perform, Except.ok.injEq] at hh
        exact .inr ⟨hstart, s, hs, hh.symm⟩
    · rename_i hstart
      rw [Logged.value_map, Stage.value_perform, Except.ok.injEq] at hh
      exact .inl ⟨hstart, by rw [contractAt, List.append_nil, hh]⟩

lemma remove_mem_epsilonRemovals :
    Edit.remove p ∈ g.epsilonRemovals s ↔ p ∈ g.productions ∧ p.body = [] ∧ p.head ≠ s := by
  simp [epsilonRemovals]

lemma mem_epsilonRestart :
    (Edit.add q ∈ g.epsilonRestart s ∨ Edit.retain q ∈ g.epsilonRestart s) ↔
      q = ⟨s, []⟩ ∨ (s ≠ g.start ∧ q = ⟨s, [g.start]⟩) := by
  unfold epsilonRestart
  split <;> simp [*]

/-- The productions after the edits: nothing that is added is removed again. -/
lemma mem_contractAt {restart : List Edit} (hremove : ∀ q, Edit.remove q ∉ restart)
    (hhead : ∀ q, Edit.add q ∈ restart ∨ Edit.retain q ∈ restart → q.head = s) :
    q ∈ (g.contractAt restart s).productions ↔
      q ∈ g.shortenings ∨ (Edit.add q ∈ restart ∨ Edit.retain q ∈ restart) ∨
      (q ∈ g.productions ∧ (q.body = [] → q.head = s)) := by
  have hadd : Edit.add q ∉ g.epsilonRemovals s ∧ Edit.retain q ∉ g.epsilonRemovals s := by
    simp [epsilonRemovals]
  have hremovals : Edit.remove q ∈ g.shortenings.map Edit.add ++ restart ++ g.epsilonRemovals s ↔
      q ∈ g.productions ∧ q.body = [] ∧ q.head ≠ s := by
    simp [hremove q, remove_mem_epsilonRemovals]
  have hadds : Edit.add q ∈ g.shortenings.map Edit.add ++ restart ++ g.epsilonRemovals s ↔
      q ∈ g.shortenings ∨ Edit.add q ∈ restart := by
    simp [hadd.1]
  have hretains : Edit.retain q ∈ g.shortenings.map Edit.add ++ restart ++ g.epsilonRemovals s ↔
      Edit.retain q ∈ restart := by
    simp [hadd.2]
  rw [contractAt, Edit.mem_foldl_apply, hremovals, hadds, hretains]
  · constructor
    · rintro (((hq | hq) | hq) | ⟨hq, hnot⟩)
      · exact .inl hq
      · exact .inr (.inl (.inl hq))
      · exact .inr (.inl (.inr hq))
      · exact .inr (.inr ⟨hq, fun hbody => by_contra fun hne => hnot ⟨hq, hbody, hne⟩⟩)
    · rintro (hq | (hq | hq) | ⟨hq, hempty⟩)
      · exact .inl (.inl (.inl hq))
      · exact .inl (.inl (.inr hq))
      · exact .inl (.inr hq)
      · exact .inr ⟨hq, fun hnot => hnot.2.2 (hempty hnot.2.1)⟩
  · -- a removed body is empty and not on the start symbol
    rw [hremovals, hadds, hretains]
    rintro ⟨-, hbody, hne⟩
    refine ⟨?_, fun hq => hne (hhead q (.inr hq))⟩
    rintro (hq | hq)
    · exact (mem_shortenings.1 hq).1 hbody
    · exact hne (hhead q (.inl hq))

lemma start_contractAt (hrestart : ∀ t, Edit.restart t ∉ g.epsilonRemovals s)
    (restart : List Edit) :
    (g.contractAt restart s).start =
      (restart.foldl Edit.apply ((g.shortenings.map Edit.add).foldl Edit.apply g)).start := by
  rw [contractAt, List.foldl_append, Edit.start_foldl_apply hrestart, List.foldl_append]

/-! ## The result -/

/-- Only the start symbol may have an empty body, and if it does, it occurs in no body. -/
structure EmptyAtStart (g : Grammar) : Prop where
  head : ∀ p ∈ g.productions, p.body = [] → p.head = g.start
  absent : (⟨g.start, []⟩ : Production) ∈ g.productions → ∀ p ∈ g.productions, g.start ∉ p.body

lemma EmptyAtStart.occurs_start_eq_false (he : g.EmptyAtStart)
    (hempty : g.has g.start [] = true) : g.occurs g.start = false := by
  rw [← Bool.not_eq_true, occurs_iff]
  rintro ⟨p, hp, hmem⟩
  exact he.absent (has_iff.1 hempty) p hp hmem

/-- Where only the start symbol has an empty body, and stands in no other, nothing else vanishes. -/
lemma EmptyAtStart.of_yields_nil (he : g.EmptyAtStart) (hy : g.Yields u w)
    (hw : w = []) : ∀ s ∈ u, s = g.start ∧ (⟨g.start, []⟩ : Production) ∈ g.productions := by
  induction hy with
  | nil => simp
  | terminal => contradiction
  | @production p u x y hp _ _ ihx ihy =>
    obtain ⟨rfl, rfl⟩ := List.append_eq_nil_iff.1 hw
    intro s hs
    rcases List.mem_cons.1 hs with rfl | hs
    · cases hbody : p.body with
      | nil =>
        have hhead : p.head = g.start := he.head p hp hbody
        rw [← hhead, ← hbody]
        exact ⟨rfl, hp⟩
      | cons t rest =>
        -- the body would begin with the start symbol
        have hmem : t ∈ p.body := by simp [hbody]
        obtain ⟨rfl, hempty⟩ := ihx rfl t hmem
        exact absurd hmem (he.absent hempty p hp)
    · exact ihy rfl s hs

/-- What the pass makes of a grammar `g`: a grammar `h` with the bodies of `g` that are not empty
and their contractions. Its start symbol has an empty body if that of `g` is nullable. -/
structure EpsilonFree (g h : Grammar) : Prop where
  mem_iff : ∀ q, q ∈ h.productions ↔
    (q.body ≠ [] ∧ (q ∈ g.productions ∨ q ∈ g.shortenings)) ∨
    (g.start ∈ g.nullable ∧ q = ⟨h.start, []⟩) ∨
    (h.start ≠ g.start ∧ q = ⟨h.start, [g.start]⟩)
  start : h.start = g.start ∨
    (g.start ∈ g.nullable ∧ h.start ∉ g.nonterminals ∧ h.start.isNonterminal = true)
  absent : g.start ∈ g.nullable → ∀ p ∈ g.productions, h.start ∉ p.body

lemma mem_nullable_of_empty (hp : p ∈ g.productions) (hbody : p.body = []) :
    p.head ∈ g.nullable :=
  mem_nullable_iff.2 (.of_body hp (by rw [hbody]; exact .nil))

lemma epsilonFree_of_skip (hnone : ∀ a, a ∉ g.nullable) : g.EpsilonFree g where
  mem_iff q := by
    constructor
    · intro hq
      refine .inl ⟨fun hbody => ?_, .inl hq⟩
      exact hnone q.head (mem_nullable_of_empty hq hbody)
    · rintro (⟨-, hq | hq⟩ | ⟨hstart, -⟩ | ⟨hne, -⟩)
      · exact hq
      · -- a contraction leaves out a nullable symbol
        obtain ⟨-, -, m, -, hm, herased, -⟩ := mem_shortenings.1 hq
        obtain ⟨mark, hmark, he⟩ := List.any_eq_true.1 herased
        have hmem := (Marking.of_mem_choices hm).2 mark hmark he
        exact absurd (by simpa using hmem) (hnone mark.symbol)
      · exact absurd hstart (hnone _)
      · exact absurd rfl hne
  start := .inl rfl
  absent hstart := absurd hstart (hnone _)

lemma epsilonFree_of_not_nullable (hstart : g.start ∉ g.nullable) :
    g.EpsilonFree (g.contractAt [] g.start) := by
  have hs : (g.contractAt [] g.start).start = g.start := by
    rw [start_contractAt (by simp [epsilonRemovals]), List.foldl_nil, Edit.start_foldl_apply]
    simp
  refine ⟨fun q => ?_, .inl hs, fun hn => absurd hn hstart⟩
  rw [mem_contractAt (by simp) (by simp), hs]
  constructor
  · rintro (hq | hq | ⟨hq, hempty⟩)
    · exact .inl ⟨(mem_shortenings.1 hq).1, .inr hq⟩
    · simp at hq
    · refine .inl ⟨fun hbody => hstart ?_, .inl hq⟩
      rw [← hempty hbody]
      exact mem_nullable_of_empty hq hbody
  · rintro (⟨hbody, hq | hq⟩ | ⟨hn, -⟩ | ⟨hne, -⟩)
    · exact .inr (.inr ⟨hq, fun hempty => absurd hempty hbody⟩)
    · exact .inl hq
    · exact absurd hn hstart
    · exact absurd rfl hne

lemma start_contractAt_restart : (g.contractAt (g.epsilonRestart s) s).start = s := by
  have hadds : ((g.shortenings.map Edit.add).foldl Edit.apply g).start = g.start := by
    rw [Edit.start_foldl_apply]
    simp
  rw [start_contractAt (by simp [epsilonRemovals])]
  unfold epsilonRestart
  split
  · rename_i hs
    rw [Edit.start_foldl_apply (by simp), hadds, hs]
  · rfl

lemma epsilonFree_of_nullable (hstart : g.start ∈ g.nullable)
    (hs : g.epsilonStart = .ok s) : g.EpsilonFree (g.contractAt (g.epsilonRestart s) s) := by
  have hremove : ∀ q, Edit.remove q ∉ g.epsilonRestart s := by
    intro q
    unfold epsilonRestart
    split <;> simp
  have hhead : ∀ q, Edit.add q ∈ g.epsilonRestart s ∨ Edit.retain q ∈ g.epsilonRestart s →
      q.head = s := by
    intro q hq
    rcases mem_epsilonRestart.1 hq with rfl | ⟨-, rfl⟩ <;> rfl
  refine ⟨fun q => ?_, ?_, fun _ p hp hmem => ?_⟩
  · rw [mem_contractAt hremove hhead, mem_epsilonRestart, start_contractAt_restart]
    constructor
    · rintro (hq | (rfl | hq) | ⟨hq, hempty⟩)
      · exact .inl ⟨(mem_shortenings.1 hq).1, .inr hq⟩
      · exact .inr (.inl ⟨hstart, rfl⟩)
      · exact .inr (.inr hq)
      · by_cases hbody : q.body = []
        · obtain ⟨a, body⟩ := q
          obtain rfl : body = [] := hbody
          obtain rfl : a = s := hempty rfl
          exact .inr (.inl ⟨hstart, rfl⟩)
        · exact .inl ⟨hbody, .inl hq⟩
    · rintro (⟨hbody, hq | hq⟩ | ⟨-, rfl⟩ | hq)
      · exact .inr (.inr ⟨hq, fun hempty => absurd hempty hbody⟩)
      · exact .inl hq
      · exact .inr (.inl (.inl rfl))
      · exact .inr (.inl (.inr hq))
  · rw [start_contractAt_restart]
    rcases of_epsilonStart_eq_ok hs with ⟨rfl, -⟩ | hfresh
    · exact .inl rfl
    · exact .inr ⟨hstart, hfresh⟩
  · rw [start_contractAt_restart] at hmem
    rcases of_epsilonStart_eq_ok hs with ⟨rfl, habsent⟩ | ⟨hfresh, hn⟩
    · exact habsent p hp hmem
    · exact hfresh (mem_nonterminals.2 (.inr ⟨p, hp, .inr ⟨hmem, hn⟩⟩))

/-- The pass does what `EpsilonFree` says. -/
theorem epsilonFree_of_eliminateEpsilon (hh : g.eliminateEpsilon.value = .ok h) :
    g.EpsilonFree h := by
  rcases eliminateEpsilon_cases hh with ⟨hnone, rfl⟩ | ⟨hstart, rfl⟩ | ⟨hstart, s, hs, rfl⟩
  · exact epsilonFree_of_skip hnone
  · exact epsilonFree_of_not_nullable hstart
  · exact epsilonFree_of_nullable hstart hs

/-! ## Shape -/

namespace EpsilonFree

/-- Where a production of the result comes from. -/
lemma source (he : g.EpsilonFree h) (hq : q ∈ h.productions) :
    (q.body ≠ [] ∧ ∃ m : Marking, (⟨q.head, m.origin⟩ : Production) ∈ g.productions ∧
      (m.Erases fun s => s ∈ g.nullable) ∧ m.kept = q.body) ∨
    (g.start ∈ g.nullable ∧ q = ⟨h.start, []⟩) ∨
    (h.start ≠ g.start ∧ q = ⟨h.start, [g.start]⟩) := by
  rcases (he.mem_iff q).1 hq with ⟨hbody, hq | hq⟩ | hq
  · refine .inl ⟨hbody, Marking.whole q.body, ?_, ?_, Marking.kept_whole _⟩
    · rwa [Marking.origin_whole]
    · intro mark hmark herased
      obtain ⟨s, -, rfl⟩ := List.mem_map.1 hmark
      contradiction
  · exact .inl ⟨hbody, exists_marking_of_mem_shortenings hq⟩
  · exact .inr hq

/-- Only the start symbol has an empty body, and only if the empty word is yielded. -/
lemma of_empty (he : g.EpsilonFree h) (hq : q ∈ h.productions) (hbody : q.body = []) :
    q.head = h.start ∧ g.start ∈ g.nullable := by
  rcases he.source hq with ⟨hne, -⟩ | ⟨hstart, rfl⟩ | ⟨-, rfl⟩
  · exact absurd hbody hne
  · exact ⟨rfl, hstart⟩
  · contradiction

/-- The start symbol has an empty body exactly if the old one vanishes. -/
lemma mem_empty_iff (he : g.EpsilonFree h) :
    (⟨h.start, []⟩ : Production) ∈ h.productions ↔ g.start ∈ g.nullable := by
  constructor
  · intro hempty
    exact (he.of_empty hempty rfl).2
  · intro hstart
    exact (he.mem_iff _).2 (.inr (.inl ⟨hstart, rfl⟩))

/-- A start symbol with an empty body occurs in no body. -/
lemma start_absent (he : g.EpsilonFree h) (hstart : g.start ∈ g.nullable)
    (hq : q ∈ h.productions) : h.start ∉ q.body := by
  rcases he.source hq with ⟨-, m, hp, -, hkept⟩ | ⟨-, rfl⟩ | ⟨hne, rfl⟩
  · intro hmem
    rw [← hkept] at hmem
    exact he.absent hstart _ hp (m.kept_sublist.subset hmem)
  · exact List.not_mem_nil
  · simpa using hne

lemma emptyAtStart (he : g.EpsilonFree h) : h.EmptyAtStart where
  head _ hp hbody := (he.of_empty hp hbody).1
  absent hempty _ := he.start_absent (he.of_empty hempty rfl).2

/-- Bodies do not get longer, except that a single symbol may come in. -/
lemma length_le (he : g.EpsilonFree h) {n : Nat} (hn : 1 ≤ n)
    (hlength : ∀ p ∈ g.productions, p.body.length ≤ n) (hq : q ∈ h.productions) :
    q.body.length ≤ n := by
  rcases he.source hq with ⟨-, m, hp, -, hkept⟩ | ⟨-, rfl⟩ | ⟨-, rfl⟩
  · rw [← hkept]
    exact Nat.le_trans m.kept_sublist.length_le (hlength _ hp)
  · exact Nat.zero_le n
  · exact hn

lemma admissible (he : g.EpsilonFree h) (hg : g.Admissible) : h.Admissible := by
  have hstart : h.start.isNonterminal = true := by
    rcases he.start with heq | ⟨-, -, hn⟩
    · rw [heq]
      exact hg.start
    · exact hn
  refine ⟨hstart, fun q hq => ?_, fun q hq s hs => ?_⟩
  · rcases he.source hq with ⟨-, m, hp, -, -⟩ | ⟨-, rfl⟩ | ⟨-, rfl⟩
    · exact hg.head ⟨q.head, m.origin⟩ hp
    · exact hstart
    · exact hstart
  · rcases he.source hq with ⟨-, m, hp, -, hkept⟩ | ⟨-, rfl⟩ | ⟨-, rfl⟩
    · rw [← hkept] at hs
      exact hg.body _ hp s (m.kept_sublist.subset hs)
    · exact absurd hs List.not_mem_nil
    · rw [List.mem_singleton.1 hs, Symbol.isAdmissible, hg.start, Bool.true_or]

/-! ## Languages -/

lemma contracts (he : g.EpsilonFree h) (hcap : g.WithinCapacity) : g.Contracts h := by
  intro a m hp herases hne hself
  refine (he.mem_iff _).2 (.inl ⟨hne, ?_⟩)
  by_cases herased : m.any Mark.erased = true
  · refine .inr (mem_shortenings.2 ⟨hne, hself, m, hp, ?_, herased, rfl⟩)
    exact Marking.mem_choices (hcap _ hp) rfl fun mark hmark he =>
      decide_eq_true (herases mark hmark he)
  · left
    rwa [Marking.kept_eq_origin (by simpa using herased)]

/-- The symbols of the grammar are read as they are, the new start symbol as the old one. -/
lemma rename_eq (he : g.EpsilonFree h) (hp : p ∈ g.productions) (hs : s = p.head ∨ s ∈ p.body) :
    (if s = h.start then g.start else s) = s := by
  split
  · rename_i heq
    rcases he.start with hstart | ⟨hnull, hfresh, -⟩
    · rw [heq, hstart]
    · rcases hs with rfl | hs
      · exact absurd (mem_nonterminals.2 (.inr ⟨p, hp, .inl rfl⟩)) (heq ▸ hfresh)
      · exact absurd (heq ▸ hs) (he.absent hnull p hp)
  · rfl

lemma yields_of_yields (he : g.EpsilonFree h) (hg : g.Admissible) (hy : h.Yields u w) :
    Reads (fun s => g.Yields [if s = h.start then g.start else s]) u w := by
  refine hy.reads ⟨fun t ht => ?_, fun q hq x hx => ?_⟩
  · -- a terminal is not the start symbol
    have hne : t ≠ h.start := by
      rintro rfl
      rw [Symbol.isTerminal_eq_false (he.admissible hg).start] at ht
      contradiction
    rw [if_neg hne]
    exact .terminal ht .nil
  · rcases he.source hq with ⟨-, m, hp, herases, hkept⟩ | ⟨hstart, rfl⟩ | ⟨-, rfl⟩
    · rw [he.rename_eq hp (.inl rfl)]
      have hbody : g.Yields m.kept x := by
        rw [hkept]
        refine reads_yields_self_iff.1 (hx.mono fun s hs y hy => ?_)
        rw [← hkept] at hs
        rwa [he.rename_eq hp (.inr (m.kept_sublist.subset hs))] at hy
      refine .of_body hp (.of_derives (derives_kept ?_) hbody)
      exact fun mark hmark he => mem_nullable_iff.1 (herases mark hmark he)
    · obtain rfl : x = [] := hx
      rw [if_pos rfl]
      exact mem_nullable_iff.1 hstart
    · have hx := reads_singleton_iff.1 hx
      rw [if_pos rfl]
      simpa using hx

/-- The start symbols yield the same words. -/
theorem yields_start_iff (he : g.EpsilonFree h) (hg : g.Admissible) (hcap : g.WithinCapacity) :
    h.Yields [h.start] w ↔ g.Yields [g.start] w := by
  constructor
  · intro hy
    have hread := reads_singleton_iff.1 (he.yields_of_yields hg hy)
    rwa [if_pos rfl] at hread
  · intro hy
    by_cases hw : w = []
    · subst hw
      have hmem : (⟨h.start, []⟩ : Production) ∈ h.productions :=
        (he.mem_iff _).2 (.inr (.inl ⟨mem_nullable_iff.2 hy, rfl⟩))
      exact .of_body hmem .nil
    · have hold := hy.of_contracts (he.contracts hcap) hw
      by_cases heq : h.start = g.start
      · rwa [heq]
      · exact .of_body ((he.mem_iff _).2 (.inr (.inr ⟨heq, rfl⟩))) hold

/-- Any other symbol loses the empty word and nothing else. -/
theorem yields_iff_of_ne_start (he : g.EpsilonFree h) (hg : g.Admissible)
    (hcap : g.WithinCapacity) (ha : a ≠ h.start) :
    h.Yields [a] w ↔ g.Yields [a] w ∧ w ≠ [] := by
  constructor
  · intro hy
    have hread := reads_singleton_iff.1 (he.yields_of_yields hg hy)
    rw [if_neg ha] at hread
    refine ⟨hread, fun hw => ha ?_⟩
    -- only the start symbol of the result can vanish
    exact (he.emptyAtStart.of_yields_nil hy hw a (by simp)).1
  · rintro ⟨hy, hw⟩
    exact hy.of_contracts (he.contracts hcap) hw

end EpsilonFree

/-! ## Main result -/

/-- Eliminating empty bodies keeps the language, and takes the empty word, but no other, from every
nonterminal that is not the start symbol of the result. Only that start symbol may have an empty
body. It has one exactly if the grammar derives the empty word, and then occurs in no body. -/
theorem sameWords_of_eliminateEpsilon (hg : g.Built) (hcap : g.WithinCapacity)
    (hh : g.eliminateEpsilon.value = .ok h) :
    (∀ w, h.InLanguage w ↔ g.InLanguage w) ∧
    (∀ a ∈ g.nonterminals, a ≠ h.start → ∀ w, h.Generates a w ↔ g.Generates a w ∧ w ≠ []) ∧
    (∀ a, h.has a [] = true → a = h.start) ∧
    (h.has h.start [] = true ↔ g.InLanguage []) ∧
    (h.has h.start [] = true → h.occurs h.start = false) := by
  have hfree := epsilonFree_of_eliminateEpsilon hh
  refine ⟨fun w => ?_, fun a _ hne w => ?_, fun a hempty => ?_, ?_,
    hfree.emptyAtStart.occurs_start_eq_false⟩
  · rw [inLanguage_iff_yields, inLanguage_iff_yields]
    exact hfree.yields_start_iff hg.admissible hcap
  · rw [generates_iff_yields, generates_iff_yields]
    exact hfree.yields_iff_of_ne_start hg.admissible hcap hne
  · exact hfree.emptyAtStart.head _ (has_iff.1 hempty) rfl
  · rw [has_iff, hfree.mem_empty_iff, mem_nullable_iff, inLanguage_iff_yields]

/-- A grammar whose start symbol vanishes and stands in a body while the reserved nonterminal is in
use. One nonterminal has nothing but its empty body, and leaving it out would lead another one to
itself. -/
def shrinking : Grammar :=
  ⟨'S', .ofList [⟨'S', ['S', 'A', 'B']⟩, ⟨'S', ['c']⟩, ⟨'S', []⟩, ⟨'A', []⟩, ⟨'B', ['$']⟩,
    ⟨'B', ['b', 'A']⟩, ⟨'$', ['A', '$']⟩, ⟨'$', []⟩]⟩

/-- What is left of it. -/
def shrunk : Grammar :=
  ⟨'C', .ofList [⟨'C', []⟩, ⟨'C', ['S']⟩, ⟨'S', ['A']⟩, ⟨'S', ['A', 'B']⟩, ⟨'S', ['B']⟩,
    ⟨'S', ['S', 'A']⟩, ⟨'S', ['S', 'A', 'B']⟩, ⟨'S', ['S', 'B']⟩, ⟨'S', ['c']⟩, ⟨'B', ['$']⟩,
    ⟨'B', ['b']⟩, ⟨'B', ['b', 'A']⟩, ⟨'$', ['A']⟩, ⟨'$', ['A', '$']⟩]⟩

lemma built_shrinking : shrinking.Built :=
  @Built.rules _ 'S' [('S', [['S', 'A', 'B'], ['c'], []]), ('A', [[]]),
    ('B', [['$'], ['b', 'A']]), ('$', [['A', '$'], []])] rfl

lemma withinCapacity_shrinking : shrinking.WithinCapacity := by decide +kernel

lemma eliminateEpsilon_shrinking : shrinking.eliminateEpsilon.value = .ok shrunk := by
  decide +kernel

theorem sameWords_shrunk :
    shrinking.Built ∧ shrinking.WithinCapacity ∧
      shrinking.eliminateEpsilon.value = .ok shrunk ∧
      (∀ w, shrunk.InLanguage w ↔ shrinking.InLanguage w) ∧
      (∀ a ∈ shrinking.nonterminals, a ≠ shrunk.start →
        ∀ w, shrunk.Generates a w ↔ shrinking.Generates a w ∧ w ≠ []) ∧
      (∀ a, shrunk.has a [] = true → a = shrunk.start) ∧
      (shrunk.has shrunk.start [] = true ↔ shrinking.InLanguage []) ∧
      (shrunk.has shrunk.start [] = true → shrunk.occurs shrunk.start = false) :=
  ⟨built_shrinking, withinCapacity_shrinking, eliminateEpsilon_shrinking,
    sameWords_of_eliminateEpsilon built_shrinking withinCapacity_shrinking
      eliminateEpsilon_shrinking⟩

end ContextFree.Grammar
