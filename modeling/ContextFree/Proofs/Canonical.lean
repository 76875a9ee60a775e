import ContextFree.Proofs.AnyOrder
import ContextFree.Proofs.RuleTable.Made
import ContextFree.Proofs.Text.RoundTrip

/-!
# Comparing and writing tables

The rows of a table, and the bodies of a row, come in no particular order when they are listed
(`RuleTable.Lists`). What is found out by listing them does not depend on it.

* Two tables are compared by going through the rows of one of them: the rows, and the bodies of
  each, are counted and then looked up in the other table (`RuleTable.equal`). As no row is empty,
  every row of the one is a row of the other, and then nothing of the other is left out.
* A table is written with its heads and bodies sorted (`tableText`). The text is that of the grammar
  that the table holds, and different grammars have different texts, since each is read back from
  its own.

The main result is `equal_exact`.
-/

namespace ContextFree

open Closure

/-! ## Sorting -/

/-- Sorting brings elements into the order in which they ascend. -/
lemma Ordered.mergeSort_eq {α : Type} (order : Ordered α) {l m : List α} (hperm : l.Perm m)
    (hm : m.Pairwise fun a b => order.before a b = true) :
    l.mergeSort (fun a b => !order.before b a) = m := by
  have htotal : ∀ a b, (!order.before b a || !order.before a b) = true := by
    intro a b
    cases hab : order.before a b with
    | false => simp
    | true => simp [@not_before_of_before _ order _ _ hab]
  have htrans : ∀ a b c, (!order.before b a) = true → (!order.before c b) = true →
      (!order.before c a) = true := by
    intro a b c hab hbc
    rw [Bool.not_eq_true'] at hab hbc ⊢
    -- an element before the first one would have to stand on one side of the second
    cases hca : order.before c a with
    | false => rfl
    | true =>
      cases habb : order.before a b with
      | false =>
        rw [order.eq_of_not_before habb hab, hbc] at hca
        contradiction
      | true =>
        rw [order.before_trans hca habb] at hbc
        contradiction
  refine List.Perm.eq_of_pairwise (fun a b _ _ hab hba => ?_)
    (List.pairwise_mergeSort htrans htotal l) ?_ ((List.mergeSort_perm l _).trans hperm)
  · exact order.eq_of_not_before (by simpa using hba) (by simpa using hab)
  · exact hm.imp fun hab => by simp [@not_before_of_before _ order _ _ hab]

/-- The order of heads: the start symbol comes first, the others in alphabet order. -/
@[reducible] def startFirst (start : Symbol) : Ordered Symbol where
  before a b :=
    if a = start ∨ b = start then decide (a = start ∧ b ≠ start) else Ordered.before a b
  before_irrefl a := by
    by_cases ha : a = start
    · simp [ha]
    · simp [ha, Ordered.before_irrefl]
  before_trans := by
    intro a b c hab hbc
    by_cases ha : a = start <;> by_cases hb : b = start <;> by_cases hc : c = start <;>
      simp_all
    exact Ordered.before_trans hab hbc
  eq_of_not_before := by
    intro a b hab hba
    by_cases ha : a = start <;> by_cases hb : b = start <;> simp_all
    exact Ordered.eq_of_not_before hab hba

lemma before_startFirst {start a b : Symbol} :
    (startFirst start).before a b =
      if a = start ∨ b = start then decide (a = start ∧ b ≠ start) else Ordered.before a b :=
  rfl

/-- Symbols other than the start symbol stand in alphabet order. -/
lemma pairwise_startFirst {start : Symbol} {symbols : SortedSet Symbol} (hstart : start ∉ symbols) :
    symbols.toList.Pairwise fun a b => (startFirst start).before a b = true := by
  refine symbols.ascending.imp_of_mem fun {a b} ha hb hab => ?_
  have hne : ¬(a = start ∨ b = start) := by
    rintro (rfl | rfl)
    · exact hstart ha
    · exact hstart hb
  rw [before_startFirst, if_neg hne, hab]

namespace Grammar

variable {g h : Grammar} {rows rows' : List Visit} {a : Symbol}

lemma ascending_heads (g : Grammar) :
    g.heads.Pairwise fun a b => (startFirst g.start).before a b = true := by
  unfold heads
  split
  · refine List.pairwise_cons.2 ⟨fun b hb => ?_, pairwise_startFirst (by simp)⟩
    have hne : b ≠ g.start := (SortedSet.mem_erase.1 hb).2
    rw [before_startFirst, if_pos (.inl rfl)]
    exact decide_eq_true ⟨rfl, hne⟩
  · rename_i hstart
    exact pairwise_startFirst hstart

/-! ## Writing a table -/

/-- The bodies of a head, as its row lists them. -/
def rowOf (rows : List Visit) (a : Symbol) : List Form :=
  ((rows.find? fun row => row.1 == a).map Prod.snd).getD []

/-- The heads of a table in order. -/
def sortedHeads (start : Symbol) (rows : List Visit) : List Symbol :=
  (rows.map Prod.fst).mergeSort fun a b => !(startFirst start).before b a

/-- The line with the bodies of a head. -/
def tableLine (rows : List Visit) (a : Symbol) : List Char :=
  a :: " -> ".toList ++ Text.joinWith " | ".toList
    (((rowOf rows a).mergeSort fun u v => !Form.before v u).map Form.shown)

/-- The text of a start symbol and a table. -/
def tableText (start : Symbol) (rows : List Visit) : String :=
  String.ofList <| (("start: ".toList ++ [start]) ::
    (sortedHeads start rows).map (tableLine rows)).flatMap fun line => line ++ ['\n']

lemma IsOrder.perm_rowOf (hrows : g.IsOrder rows) (ha : a ∈ g.heads) :
    (rowOf rows a).Perm (g.bodies a) := by
  unfold rowOf
  cases hfind : rows.find? fun row => row.1 == a with
  | none =>
    obtain ⟨row, hrow, rfl⟩ := hrows.exists_visit (mem_headSet.2 (mem_heads.1 ha))
    exact absurd (List.find?_eq_none.1 hfind row hrow) (by simp)
  | some row =>
    have hhead : row.1 = a := by simpa using List.find?_some hfind
    rw [← hhead]
    exact hrows.bodies row (List.mem_of_find?_eq_some hfind)

lemma IsOrder.sortedHeads_eq (hrows : g.IsOrder rows) : sortedHeads g.start rows = g.heads :=
  (startFirst g.start).mergeSort_eq hrows.heads g.ascending_heads

lemma IsOrder.sorted_rowOf (hrows : g.IsOrder rows) (ha : a ∈ g.heads) :
    ((rowOf rows a).mergeSort fun u v => !Form.before v u) = g.bodies a :=
  Ordered.mergeSort_eq inferInstance (hrows.perm_rowOf ha) (g.ascending_bodies a)

/-- In whatever order a table is kept, it is written as the grammar is. -/
theorem IsOrder.tableText_eq (hrows : g.IsOrder rows) : tableText g.start rows = g.text := by
  have hlines : g.heads.map (tableLine rows) = g.heads.map g.ruleLine :=
    List.map_congr_left fun a ha => by rw [tableLine, hrows.sorted_rowOf ha, ruleLine]
  unfold tableText text lines startLine
  rw [hrows.sortedHeads_eq, hlines]

/-! ## Equality and texts -/

/-- Grammars are equal if they have the same start symbol and the same productions. -/
lemma eq_iff_has : g = h ↔ g.start = h.start ∧ ∀ a body, g.has a body = h.has a body := by
  constructor
  · rintro rfl
    exact ⟨rfl, fun _ _ => rfl⟩
  · rintro ⟨hstart, hhas⟩
    refine ext_productions hstart fun p => ?_
    rw [← has_iff, ← has_iff, hhas]

/-- Different grammars have different texts. -/
lemma Admissible.eq_of_text_eq (hg : g.Admissible) (hh : h.Admissible) (htext : g.text = h.text) :
    g = h := by
  have hread := parse_text_of_admissible hg
  rw [htext, parse_text_of_admissible hh] at hread
  exact (Except.ok.inj hread).symm

end Grammar

namespace RuleTable

variable {t u : RuleTable} {rows rows' : List Visit} {a : Symbol}

/-! ## Listing a table -/

/-- The rows of the table, and the bodies of each, every one of them once and in any order. -/
structure Lists (t : RuleTable) (rows : List Visit) : Prop where
  heads : (rows.map Prod.fst : Multiset Symbol) = t.rows.keys.val
  bodies : ∀ row ∈ rows, (row.2 : Multiset Form) = (t.row row.1).val

instance : Decidable (t.Lists rows) :=
  decidable_of_iff ((rows.map Prod.fst : Multiset Symbol) = t.rows.keys.val ∧
      ∀ row ∈ rows, (row.2 : Multiset Form) = (t.row row.1).val)
    ⟨fun h => ⟨h.1, h.2⟩, fun h => ⟨h.heads, h.bodies⟩⟩

lemma Lists.mem_heads (hrows : t.Lists rows) : a ∈ rows.map Prod.fst ↔ a ∈ t.rows := by
  rw [← Multiset.mem_coe, hrows.heads, Finset.mem_val, Finmap.mem_keys]

lemma Lists.mem_bodies (hrows : t.Lists rows) {row : Visit} (hrow : row ∈ rows) {body : Form} :
    body ∈ row.2 ↔ body ∈ t.row row.1 := by
  rw [← Multiset.mem_coe, hrows.bodies row hrow, Finset.mem_val]

lemma Lists.length_bodies (hrows : t.Lists rows) {row : Visit} (hrow : row ∈ rows) :
    row.2.length = (t.row row.1).card := by
  rw [← Multiset.coe_card, hrows.bodies row hrow, Finset.card_val]

lemma coe_eq_val {α : Type} {l : List α} {s : Finset α} (hnodup : l.Nodup)
    (hmem : ∀ a, a ∈ l ↔ a ∈ s) : (l : Multiset α) = s.val :=
  congrArg Finset.val (Finset.ext hmem : (⟨l, hnodup⟩ : Finset α) = s)

lemma coe_heads (t : RuleTable) : (t.heads : Multiset Symbol) = t.rows.keys.val :=
  coe_eq_val t.nodup_heads fun _ => RuleTable.mem_heads.trans Finmap.mem_keys.symm

lemma coe_bodies (t : RuleTable) (a : Symbol) : (t.bodies a : Multiset Form) = (t.row a).val :=
  coe_eq_val (SortedSet.ascending _).nodup fun _ => SortedSet.mem_ofFinset

/-- Every table can be listed, for instance in order. -/
theorem exists_lists (t : RuleTable) : ∃ rows, t.Lists rows := by
  refine ⟨t.heads.map fun a => (a, t.bodies a), ?_, fun row hrow => ?_⟩
  · rw [List.map_map]
    exact (congrArg _ (List.map_id t.heads)).trans t.coe_heads
  · obtain ⟨a, -, rfl⟩ := List.mem_map.1 hrow
    exact t.coe_bodies a

/-- A table without empty rows is listed as the grammar that it holds. -/
lemma FullRows.isOrder (ht : t.FullRows) (hrows : t.Lists rows) : t.grammar.IsOrder rows where
  heads := by
    rw [← ht.heads_eq]
    exact Multiset.coe_eq_coe.1 (hrows.heads.trans t.coe_heads.symm)
  bodies row hrow := by
    rw [← bodies_eq]
    exact Multiset.coe_eq_coe.1 ((hrows.bodies row hrow).trans (t.coe_bodies row.1).symm)

/-! ## Comparing tables -/

/-- Whether the table equals another one, found out by going through its rows: both have the same
start symbol and equally many rows, and for each row the other table has equally many bodies, all
those of the row among them. -/
def equal (t : RuleTable) (rows : List Visit) (u : RuleTable) : Bool :=
  t.start == u.start && t.rows.keys.card == u.rows.keys.card &&
    rows.all fun row => row.2.length == (u.row row.1).card && row.2.all (u.has row.1)

/-- Looking up the rows of the one table in the other is enough, if none of them is empty. -/
theorem FullRows.equal_iff (ht : t.FullRows) (hrows : t.Lists rows) :
    t.equal rows u = true ↔ t = u := by
  simp only [equal, has, Bool.and_eq_true, beq_iff_eq, List.all_eq_true, decide_eq_true_eq]
  constructor
  · rintro ⟨⟨hstart, hcount⟩, hall⟩
    have hrow : ∀ a ∈ t.rows, t.row a = u.row a := by
      intro a ha
      obtain ⟨row, hmem, rfl⟩ := List.mem_map.1 (hrows.mem_heads.2 ha)
      obtain ⟨hlength, hfound⟩ := hall row hmem
      refine Finset.eq_of_subset_of_card_le (fun body hbody => ?_) ?_
      · exact hfound body ((hrows.mem_bodies hmem).2 hbody)
      · rw [← hlength, hrows.length_bodies hmem]
    -- a row has a body, so the other table has that row too
    have hkeys : t.rows.keys = u.rows.keys := by
      refine Finset.eq_of_subset_of_card_le (fun a ha => ?_) hcount.ge
      rw [Finmap.mem_keys] at ha ⊢
      obtain ⟨body, hbody⟩ := ht a ha
      exact mem_rows_of_mem_row (hrow a ha ▸ hbody)
    refine ext_row hstart (fun a => ?_) hrow
    rw [← Finmap.mem_keys, hkeys, Finmap.mem_keys]
  · rintro rfl
    exact ⟨⟨rfl, rfl⟩, fun row hmem =>
      ⟨hrows.length_bodies hmem, fun body hbody => (hrows.mem_bodies hmem).1 hbody⟩⟩

/-- An empty row deceives the count: the other table has as many rows, and all bodies of this one
are found in it, but it has one more. -/
example : (⟨'S', List.toFinmap [⟨'S', {['b']}⟩, ⟨'A', ∅⟩]⟩ : RuleTable).equal
    [('S', [['b']]), ('A', [])] ⟨'S', List.toFinmap [⟨'S', {['b']}⟩, ⟨'B', {['b']}⟩]⟩ = true := by
  decide +kernel

lemma has_grammar (t : RuleTable) (a : Symbol) (body : Form) :
    t.grammar.has a body = t.has a body := by
  rw [Bool.eq_iff_iff, Grammar.has_iff, mem_grammar, has, decide_eq_true_eq]

/-- However two tables were made, and in whatever order they are listed: going through the rows of
the one tells whether they have the same start symbol and the same productions, which is when they
are written alike. So it does not matter which of them is gone through. -/
theorem equal_exact (ht : t.Made) (hu : u.Made) (hrows : t.Lists rows) (hrows' : u.Lists rows') :
    (t.equal rows u = true ↔
      t.start = u.start ∧ ∀ a body, t.has a body = u.has a body) ∧
    (t.equal rows u = true ↔
      Grammar.tableText t.start rows = Grammar.tableText u.start rows') ∧
    t.equal rows u = u.equal rows' t ∧
    (t.equal rows u = true ↔ t.grammar = u.grammar) ∧
    Grammar.tableText t.start rows = t.grammar.text ∧
    Grammar.tableText u.start rows' = u.grammar.text := by
  have hequal : t.equal rows u = true ↔ t.grammar = u.grammar := by
    rw [ht.fullRows.equal_iff hrows]
    exact ⟨congrArg grammar, ht.fullRows.eq_of_grammar_eq hu.fullRows⟩
  have htext := (ht.fullRows.isOrder hrows).tableText_eq
  have htext' := (hu.fullRows.isOrder hrows').tableText_eq
  rw [start_grammar] at htext htext'
  refine ⟨?_, ?_, ?_, hequal, htext, htext'⟩
  · rw [hequal, Grammar.eq_iff_has]
    simp only [start_grammar, has_grammar]
  · rw [hequal, htext, htext']
    exact ⟨congrArg Grammar.text, ht.grammar.admissible.eq_of_text_eq hu.grammar.admissible⟩
  · rw [Bool.eq_iff_iff, ht.fullRows.equal_iff hrows, hu.fullRows.equal_iff hrows', eq_comm]

/-- A table with a nonterminal that is not reachable. -/
def sprawling : RuleTable :=
  ⟨'S', List.toFinmap [⟨'S', {['a', 'S'], ['b']}⟩, ⟨'A', {[]}⟩]⟩

/-- Its rows and bodies, not in order. -/
def sprawlingRows : List Visit := [('A', [[]]), ('S', [['b'], ['a', 'S']])]

/-- What is left of it when that nonterminal is dropped. All of this is found in the table. -/
def trimmed : RuleTable := ⟨'S', List.toFinmap [⟨'S', {['a', 'S'], ['b']}⟩]⟩

/-- The rows and bodies of what is left. -/
def trimmedRows : List Visit := [('S', [['b'], ['a', 'S']])]

theorem equal_trimmed :
    trimmed.Made ∧ sprawling.Made ∧ trimmed.Lists trimmedRows ∧ sprawling.Lists sprawlingRows ∧
      (trimmed.equal trimmedRows sprawling = true ↔
        trimmed.start = sprawling.start ∧ ∀ a body, trimmed.has a body = sprawling.has a body) ∧
      (trimmed.equal trimmedRows sprawling = true ↔
        Grammar.tableText trimmed.start trimmedRows =
          Grammar.tableText sprawling.start sprawlingRows) ∧
      trimmed.equal trimmedRows sprawling = sprawling.equal sprawlingRows trimmed ∧
      (trimmed.equal trimmedRows sprawling = true ↔ trimmed.grammar = sprawling.grammar) ∧
      Grammar.tableText trimmed.start trimmedRows = trimmed.grammar.text ∧
      Grammar.tableText sprawling.start sprawlingRows = sprawling.grammar.text := by
  have hrules : ofRules 'S' [('A', [[], []]), ('S', [['b'], ['a', 'S']]), ('A', [[]])] =
      .ok sprawling := by decide +kernel
  have hsprawling : sprawling.Made := .rules hrules
  have hdrop : Transformation.dropUnreachable.onTable sprawling = .ok trimmed := by decide +kernel
  have htrimmed : trimmed.Made := .transformed hsprawling hdrop
  have hrows : trimmed.Lists trimmedRows := by decide +kernel
  have hrows' : sprawling.Lists sprawlingRows := by decide +kernel
  exact ⟨htrimmed, hsprawling, hrows, hrows', equal_exact htrimmed hsprawling hrows hrows'⟩

end RuleTable

end ContextFree
