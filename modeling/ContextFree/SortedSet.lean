/-!
# Sets kept in order

A finite set is stored as the list of its members in strictly ascending order. The order is
part of the type, so two sets with the same members are the same value (`SortedSet.ext`):
equality of sets is equality of lists, and every listing of a set is canonical.

Everything about a set is said through membership: one lemma per operation tells which
elements the result holds.
-/

namespace ContextFree

/-- A strict order under which any two different elements are comparable. -/
class Ordered (α : Type) where
  /-- Whether the first element stands before the second. -/
  before : α → α → Bool
  /-- No element stands before itself. -/
  before_irrefl : ∀ a, before a a = false
  /-- The order is transitive. -/
  before_trans : ∀ {a b c}, before a b = true → before b c = true → before a c = true
  /-- Elements that stand before each other in neither direction are equal. -/
  eq_of_not_before : ∀ {a b}, before a b = false → before b a = false → a = b

namespace Ordered

variable {α : Type} [Ordered α]

/-- Of two elements at most one stands before the other. -/
theorem not_before_of_before {a b : α} (h : before a b = true) : before b a = false := by
  cases h' : before b a with
  | false => rfl
  | true => simpa [before_irrefl] using before_trans h h'

end Ordered

open Ordered

variable {α : Type} [Ordered α]

/-- A list in strictly ascending order. -/
def Ascending (l : List α) : Prop := l.Pairwise fun a b => before a b = true

/-- Inserts an element at its place in an ascending list, unless it is there already. -/
def insertAscending (a : α) : List α → List α
  | [] => [a]
  | b :: rest =>
    if before b a then b :: insertAscending a rest
    else if before a b then a :: b :: rest
    else b :: rest

theorem mem_insertAscending {a x : α} {l : List α} :
    x ∈ insertAscending a l ↔ x = a ∨ x ∈ l := by
  induction l with
  | nil => simp [insertAscending]
  | cons b rest ih =>
    rw [insertAscending]
    split
    · simp only [List.mem_cons, ih]
      exact or_left_comm
    · split
      · simp
      · -- neither stands before the other, so the element is the head of the list
        rename_i h h'
        have hab : a = b := eq_of_not_before (by simpa using h') (by simpa using h)
        simp [hab]

theorem Ascending.insertAscending {l : List α} (a : α) (h : Ascending l) :
    Ascending (insertAscending a l) := by
  induction l with
  | nil => simp [ContextFree.insertAscending, Ascending]
  | cons b rest ih =>
    have hb : ∀ x ∈ rest, before b x = true := (List.pairwise_cons.1 h).1
    rw [ContextFree.insertAscending]
    split
    · rename_i hba
      refine List.Pairwise.cons (fun x hx => ?_) (ih (List.pairwise_cons.1 h).2)
      rcases mem_insertAscending.1 hx with rfl | hx
      · exact hba
      · exact hb x hx
    · split
      · rename_i _ hab
        refine List.Pairwise.cons (fun x hx => ?_) h
        rcases List.mem_cons.1 hx with rfl | hx
        · exact hab
        · exact before_trans hab (hb x hx)
      · exact h

/-- Ascending lists with the same members are equal. -/
theorem Ascending.eq_of_mem_iff {l m : List α} (hl : Ascending l) (hm : Ascending m)
    (h : ∀ x, x ∈ l ↔ x ∈ m) : l = m := by
  induction l generalizing m with
  | nil =>
    cases m with
    | nil => rfl
    | cons b m => exact absurd ((h b).2 (by simp)) (by simp)
  | cons a l ih =>
    cases m with
    | nil => exact absurd ((h a).1 (by simp)) (by simp)
    | cons b m =>
      have ha := List.pairwise_cons.1 hl
      have hb := List.pairwise_cons.1 hm
      -- the heads are both the least element
      have hab : a = b := by
        rcases List.mem_cons.1 ((h a).1 (by simp)) with hab | ham
        · exact hab
        · rcases List.mem_cons.1 ((h b).2 (by simp)) with hba | hbl
          · exact hba.symm
          · have := not_before_of_before (ha.1 b hbl)
            simp [hb.1 a ham] at this
      subst hab
      have hne : ∀ {l : List α}, (∀ x ∈ l, before a x = true) → a ∉ l := fun hl hmem => by
        simpa [before_irrefl] using hl a hmem
      rw [ih ha.2 hb.2 fun x => ?_]
      constructor <;> intro hx
      · rcases List.mem_cons.1 ((h x).1 (List.mem_cons_of_mem _ hx)) with rfl | hx'
        · exact absurd hx (hne ha.1)
        · exact hx'
      · rcases List.mem_cons.1 ((h x).2 (List.mem_cons_of_mem _ hx)) with rfl | hx'
        · exact absurd hx (hne hb.1)
        · exact hx'

theorem Ascending.nodup {l : List α} (h : Ascending l) : l.Nodup := by
  refine List.Pairwise.imp (fun {a b} hab hne => ?_) h
  rw [hne, before_irrefl] at hab
  contradiction

/-- A finite set, listed in ascending order. -/
structure SortedSet (α : Type) [Ordered α] where
  /-- The members in ascending order. -/
  toList : List α
  /-- The order is strict, so no member is listed twice. -/
  ascending : Ascending toList

namespace SortedSet

instance : Membership α (SortedSet α) where
  mem s a := a ∈ s.toList

instance [DecidableEq α] (a : α) (s : SortedSet α) : Decidable (a ∈ s) :=
  inferInstanceAs (Decidable (a ∈ s.toList))

@[simp] theorem mem_toList {a : α} {s : SortedSet α} : a ∈ s.toList ↔ a ∈ s := Iff.rfl

/-- A set is determined by its members. -/
@[ext] theorem ext {s t : SortedSet α} (h : ∀ a, a ∈ s ↔ a ∈ t) : s = t := by
  cases s with
  | mk l hl =>
    cases t with
    | mk m hm =>
      have : l = m := hl.eq_of_mem_iff hm h
      subst this
      rfl

instance [DecidableEq α] : DecidableEq (SortedSet α) := fun s t =>
  if h : s.toList = t.toList then
    isTrue (by cases s; cases t; cases h; rfl)
  else
    isFalse fun hst => h (by rw [hst])

/-- The set without members. -/
def empty : SortedSet α := ⟨[], List.Pairwise.nil⟩

instance : Inhabited (SortedSet α) := ⟨empty⟩

@[simp] theorem not_mem_empty {a : α} : ¬a ∈ (empty : SortedSet α) := List.not_mem_nil

/-- Whether the set has no members. -/
def isEmpty (s : SortedSet α) : Bool := s.toList.isEmpty

theorem isEmpty_iff {s : SortedSet α} : s.isEmpty = true ↔ ∀ a, ¬a ∈ s := by
  rw [isEmpty, List.isEmpty_iff, List.eq_nil_iff_forall_not_mem]
  rfl

/-- The set with one element more. -/
def insert (s : SortedSet α) (a : α) : SortedSet α :=
  ⟨insertAscending a s.toList, s.ascending.insertAscending a⟩

@[simp] theorem mem_insert {s : SortedSet α} {a x : α} : x ∈ s.insert a ↔ x = a ∨ x ∈ s :=
  mem_insertAscending

/-- The members that pass a test. -/
def filter (s : SortedSet α) (keep : α → Bool) : SortedSet α :=
  ⟨s.toList.filter keep, s.ascending.filter keep⟩

@[simp] theorem mem_filter {s : SortedSet α} {keep : α → Bool} {x : α} :
    x ∈ s.filter keep ↔ x ∈ s ∧ keep x = true :=
  List.mem_filter

/-- The set without a given element. -/
def erase [DecidableEq α] (s : SortedSet α) (a : α) : SortedSet α :=
  s.filter fun x => !decide (x = a)

@[simp] theorem mem_erase [DecidableEq α] {s : SortedSet α} {a x : α} :
    x ∈ s.erase a ↔ x ∈ s ∧ x ≠ a := by
  simp [erase]

/-- The set of the elements of a list, in whatever order and multiplicity they come. -/
def ofList [DecidableEq α] (l : List α) : SortedSet α :=
  l.eraseDups.foldr (fun a s => s.insert a) empty

@[simp] theorem mem_ofList [DecidableEq α] {l : List α} {x : α} : x ∈ ofList l ↔ x ∈ l := by
  have h : ∀ m : List α, x ∈ m.foldr (fun a s => s.insert a) empty ↔ x ∈ m := fun m => by
    induction m with
    | nil => simp
    | cons a m ih => rw [List.foldr_cons, mem_insert, ih, List.mem_cons]
  rw [ofList, h, List.mem_eraseDups]

end SortedSet

end ContextFree
