import ContextFree.Edit
import ContextFree.Names
import Mathlib.Data.Finmap

/-!
# Rule tables

The productions of a grammar are kept in a table: a row for each nonterminal that has any, and in
it the set of its bodies. Neither the rows nor the bodies of a row stand in an order; whatever is
listed from a table is sorted first.

Adding a production opens a row where there is none, and removing one closes the row with its last
body. A row without bodies can be written down all the same, and it would count as a head: that
the tables which can be had do not hold any is an invariant of all that is done with them
(`RuleTable.FullRows`).
-/

namespace ContextFree

/-- The members of a finite set in order. -/
def SortedSet.ofFinset {α : Type} [Ordered α] [DecidableEq α] (s : Finset α) : SortedSet α :=
  Quotient.liftOn s.val SortedSet.ofList fun _ _ hperm =>
    SortedSet.ext fun _ => by simpa using List.Perm.mem_iff hperm

@[simp] theorem SortedSet.mem_ofFinset {α : Type} [Ordered α] [DecidableEq α] {s : Finset α}
    {a : α} : a ∈ SortedSet.ofFinset s ↔ a ∈ s := by
  obtain ⟨s, hs⟩ := s
  induction s using Quotient.inductionOn
  exact SortedSet.mem_ofList

/-- A start symbol and a table of rules. -/
structure RuleTable where
  /-- The symbol from which words are derived. -/
  start : Symbol
  /-- The rows with the bodies of the nonterminals. -/
  rows : Finmap fun _ : Symbol => Finset Form
deriving DecidableEq

namespace RuleTable

variable {t : RuleTable} {p q : Production} {a b : Symbol} {body : Form} {e : Edit}

/-! ## Looking things up -/

/-- The bodies in the row of a symbol. There are none if it has no row. -/
def row (t : RuleTable) (a : Symbol) : Finset Form := (t.rows.lookup a).getD ∅

/-- Whether the table has the production `a → body`. -/
def has (t : RuleTable) (a : Symbol) (body : Form) : Bool := decide (body ∈ t.row a)

lemma row_of_lookup {bodies : Finset Form} (hrow : t.rows.lookup a = some bodies) :
    t.row a = bodies := by
  rw [row, hrow, Option.getD_some]

lemma row_of_not_mem (ha : a ∉ t.rows) : t.row a = ∅ := by
  rw [row, Finmap.lookup_eq_none.2 ha, Option.getD_none]

lemma lookup_of_mem (ha : a ∈ t.rows) : t.rows.lookup a = some (t.row a) := by
  obtain ⟨bodies, hrow⟩ := Finmap.mem_iff.1 ha
  rw [row_of_lookup hrow, hrow]

/-- A symbol with a body has a row. -/
lemma mem_rows_of_mem_row (hbody : body ∈ t.row a) : a ∈ t.rows := by
  by_contra ha
  rw [row_of_not_mem ha] at hbody
  exact Finset.notMem_empty body hbody

/-! ## Changing a table -/

/-- The table without rows. -/
def empty (start : Symbol) : RuleTable := ⟨start, ∅⟩

/-- The table with a row for a symbol, without bodies if there was none. -/
def opened (t : RuleTable) (a : Symbol) : RuleTable :=
  if a ∈ t.rows then t else { t with rows := t.rows.insert a ∅ }

/-- Adds a production, and tells whether it is new. -/
def add (t : RuleTable) (p : Production) : RuleTable × Bool :=
  let t := t.opened p.head
  let bodies := t.row p.head
  if p.body ∈ bodies then (t, false)
  else ({ t with rows := t.rows.insert p.head (insert p.body bodies) }, true)

/-- Removes a production. A row without bodies left is removed as well. -/
def remove (t : RuleTable) (p : Production) : RuleTable :=
  match t.rows.lookup p.head with
  | none => t
  | some bodies =>
    let rest := bodies.erase p.body
    let rows := t.rows.insert p.head rest
    { t with rows := if rest.card = 0 then rows.erase p.head else rows }

/-- Copies a table row by row. -/
def clone (t : RuleTable) : RuleTable where
  start := t.start
  rows := t.rows.liftOn (fun rows => rows.entries.toFinmap) fun l m hperm =>
    Finmap.ext_lookup fun a => by
      rw [Finmap.dlookup_list_toFinmap, Finmap.dlookup_list_toFinmap]
      exact List.perm_dlookup a l.nodupKeys hperm

/-- The table after an edit. -/
def edit (t : RuleTable) : Edit → RuleTable
  | .add p | .retain p => (t.add p).1
  | .remove p => t.remove p
  | .restart s => { t with start := s }

/-- The table after edits that are carried out in order. -/
def editAll (t : RuleTable) (edits : List Edit) : RuleTable := edits.foldl edit t

@[simp] theorem editAll_nil : t.editAll [] = t := rfl

@[simp] theorem editAll_cons (edits : List Edit) :
    t.editAll (e :: edits) = (t.edit e).editAll edits := rfl

theorem editAll_append (edits edits' : List Edit) :
    t.editAll (edits ++ edits') = (t.editAll edits).editAll edits' := List.foldl_append

/-- A copy is the same table. -/
@[simp] theorem clone_eq (t : RuleTable) : t.clone = t := by
  obtain ⟨start, rows⟩ := t
  induction rows using Finmap.induction_on with
  | H l =>
    simp only [clone, Finmap.liftOn_toFinmap, mk.injEq, true_and]
    refine Finmap.ext_lookup fun a => ?_
    rw [Finmap.dlookup_list_toFinmap, Finmap.lookup_toFinmap]
    rfl

@[simp] theorem row_empty (s : Symbol) : (empty s).row a = ∅ := row_of_not_mem Finmap.notMem_empty

@[simp] theorem start_opened : (t.opened a).start = t.start := by
  unfold opened
  split <;> rfl

@[simp] theorem row_opened : (t.opened a).row b = t.row b := by
  unfold opened
  split
  · rfl
  · rename_i ha
    by_cases hb : b = a
    · rw [hb, row, Finmap.lookup_insert, Option.getD_some, row_of_not_mem ha]
    · rw [row, Finmap.lookup_insert_of_ne _ hb, row]

lemma mem_rows_opened : b ∈ (t.opened a).rows ↔ b = a ∨ b ∈ t.rows := by
  unfold opened
  split
  · rename_i ha
    exact ⟨.inr, fun hb => hb.elim (fun hba => hba ▸ ha) id⟩
  · exact Finmap.mem_insert

@[simp] theorem start_add : (t.add p).1.start = t.start := by
  rw [add]
  split_ifs <;> exact start_opened

/-- Adding a production adds its body to the row of its head. -/
theorem row_add :
    (t.add p).1.row a = if a = p.head then insert p.body (t.row a) else t.row a := by
  simp only [add, row_opened]
  split
  · rename_i hbody
    rw [row_opened]
    split
    · rename_i ha
      rw [ha, Finset.insert_eq_of_mem hbody]
    · rfl
  · split
    · rename_i ha
      rw [ha, row, Finmap.lookup_insert, Option.getD_some]
    · rename_i ha
      rw [row, Finmap.lookup_insert_of_ne _ ha, ← row, row_opened]

/-- Adding a production leaves a row for its head. -/
theorem mem_rows_add : a ∈ (t.add p).1.rows ↔ a = p.head ∨ a ∈ t.rows := by
  unfold add
  simp only
  split
  · exact mem_rows_opened
  · rw [Finmap.mem_insert, mem_rows_opened, or_self_left]

/-- A production is new if it was not there. -/
theorem snd_add : (t.add p).2 = !t.has p.head p.body := by
  simp only [add, row_opened, has]
  split
  · rename_i hbody
    simp [hbody]
  · rename_i hbody
    simp [hbody]

@[simp] theorem start_remove : (t.remove p).start = t.start := by
  unfold remove
  split <;> rfl

lemma remove_of_not_mem (hnot : p.head ∉ t.rows) : t.remove p = t := by
  rw [remove, Finmap.lookup_eq_none.2 hnot]

lemma lookup_remove_of_ne (ha : a ≠ p.head) : (t.remove p).rows.lookup a = t.rows.lookup a := by
  unfold remove
  split
  · rfl
  · simp only
    split
    · rw [Finmap.lookup_erase_ne ha, Finmap.lookup_insert_of_ne _ ha]
    · exact Finmap.lookup_insert_of_ne _ ha

/-- A removal closes a row that has no other body. -/
lemma lookup_remove_self (hmem : p.head ∈ t.rows) :
    (t.remove p).rows.lookup p.head =
      if (t.row p.head).erase p.body = ∅ then none else some ((t.row p.head).erase p.body) := by
  simp only [remove, lookup_of_mem hmem, Finset.card_eq_zero]
  split
  · exact Finmap.lookup_erase ..
  · exact Finmap.lookup_insert _

/-- Removing a production removes its body from the row of its head. -/
theorem row_remove :
    (t.remove p).row a = if a = p.head then (t.row a).erase p.body else t.row a := by
  by_cases ha : a = p.head
  · rw [if_pos ha, ha]
    by_cases hmem : p.head ∈ t.rows
    · rw [row, lookup_remove_self hmem]
      split
      · rename_i hnone
        rw [hnone, Option.getD_none]
      · rfl
    · rw [remove_of_not_mem hmem, row_of_not_mem hmem, Finset.erase_empty]
  · rw [if_neg ha, row, lookup_remove_of_ne ha, row]

/-! ## Listing a table -/

/-- The symbols that have rows, the start symbol first and the others in alphabet order. -/
def heads (t : RuleTable) : List Symbol :=
  let heads := SortedSet.ofFinset t.rows.keys
  if t.start ∈ heads then t.start :: (heads.erase t.start).toList else heads.toList

/-- The bodies of a symbol in lexicographic order. -/
def bodies (t : RuleTable) (a : Symbol) : List Form := (SortedSet.ofFinset (t.row a)).toList

/-- The productions row by row, in the order in which they are visited. -/
def listing (t : RuleTable) : List Production :=
  t.heads.flatMap fun a => (t.bodies a).map (Production.mk a)

/-- The productions of the table. -/
def productions (t : RuleTable) : Finset Production :=
  t.rows.keys.biUnion fun a => (t.row a).image (Production.mk a)

@[simp] theorem mem_productions : p ∈ t.productions ↔ p.body ∈ t.row p.head := by
  simp only [productions, Finset.mem_biUnion, Finmap.mem_keys, Finset.mem_image]
  constructor
  · rintro ⟨a, -, body, hbody, rfl⟩
    exact hbody
  · exact fun hbody => ⟨p.head, mem_rows_of_mem_row hbody, p.body, hbody, rfl⟩

/-- The nonterminals in use: the start symbol, those that have rows, and those in bodies. -/
def nonterminals (t : RuleTable) : SortedSet Symbol :=
  .ofFinset (insert t.start (t.rows.keys ∪
    t.productions.biUnion fun p => (p.body.filter Symbol.isNonterminal).toFinset))

/-- The only body of a symbol, if it has exactly one. -/
def soleBody? (t : RuleTable) (a : Symbol) : Option Form :=
  match t.bodies a with
  | [body] => some body
  | _ => none

/-- The names before any is taken: a nonterminal stands for its only body. -/
def names (t : RuleTable) : Names where
  established := t.heads.filterMap fun a => (t.soleBody? a).map (Production.mk a)
  given := []
  used := t.nonterminals.toList

/-- The grammar that the table holds. -/
def grammar (t : RuleTable) : Grammar := ⟨t.start, .ofFinset t.productions⟩

@[simp] theorem start_grammar : t.grammar.start = t.start := rfl

@[simp] theorem mem_grammar : p ∈ t.grammar.productions ↔ p.body ∈ t.row p.head := by
  rw [grammar, SortedSet.mem_ofFinset, mem_productions]

end RuleTable

end ContextFree
