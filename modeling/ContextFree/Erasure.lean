import ContextFree.Closure

/-!
# Erasing symbols

A symbol that derives the empty word may be left out of a body. A marking says of every symbol
of a body whether it is kept or left out, and `choices` lists the markings that are considered.

To replay an omission with the productions of the grammar, every nullable nonterminal is given
one production that starts its way to the empty word (`Grammar.erasers`): a body whose symbols
all have theirs from an earlier round. The productions of later rounds come first in the table,
so that `vanish`, the forms a symbol passes on its way to nothing, follows the table downwards
and ends.
-/

namespace ContextFree

/-! ## Markings -/

/-- A symbol of a body, kept or left out. -/
structure Mark where
  /-- The symbol. -/
  symbol : Symbol
  /-- Whether it is left out. -/
  erased : Bool
deriving DecidableEq

/-- A body with some of its symbols left out. -/
abbrev Marking := List Mark

namespace Marking

/-- The body that is marked. -/
def origin (m : Marking) : Form := m.map Mark.symbol

/-- What is left of the body. -/
def kept (m : Marking) : Form := (m.filter fun mark => !mark.erased).map Mark.symbol

/-- The marking that keeps a whole body. -/
def whole (body : Form) : Marking := body.map fun s => ⟨s, false⟩

@[simp] theorem origin_whole (body : Form) : origin (whole body) = body := by
  simp [origin, whole, Function.comp_def]

@[simp] theorem kept_whole (body : Form) : kept (whole body) = body := by
  induction body with
  | nil => rfl
  | cons s body ih =>
    simp only [kept, whole, List.map_cons, List.filter_cons] at ih ⊢
    simp [ih]

/-- All markings of a body that leave out erasable symbols only. Read as binary numbers, the
first symbol being the lowest digit, they come in ascending order; the first keeps all. -/
def enumerate (erasable : Symbol → Bool) : Form → List Marking
  | [] => [[]]
  | s :: body =>
    (enumerate erasable body).flatMap fun m =>
      if erasable s then [⟨s, false⟩ :: m, ⟨s, true⟩ :: m] else [⟨s, false⟩ :: m]

/-- A marking of a body is listed if and only if it leaves out erasable symbols only. -/
theorem mem_enumerate {erasable : Symbol → Bool} {body : Form} {m : Marking} :
    m ∈ enumerate erasable body ↔
      origin m = body ∧ ∀ mark ∈ m, mark.erased = true → erasable mark.symbol = true := by
  induction body generalizing m with
  | nil => cases m <;> simp [enumerate, origin]
  | cons s body ih =>
    simp only [enumerate, List.mem_flatMap, ih]
    constructor
    · rintro ⟨r, ⟨hr, herased⟩, hm⟩
      split at hm
      · rename_i hs
        simp only [List.mem_cons, List.not_mem_nil, or_false] at hm
        rcases hm with rfl | rfl <;> grind [origin]
      · simp only [List.mem_cons, List.not_mem_nil, or_false] at hm
        subst hm
        grind [origin]
    · rintro ⟨hm, herased⟩
      cases m with
      | nil => simp [origin] at hm
      | cons mark r =>
        simp only [origin, List.map_cons, List.cons.injEq] at hm
        refine ⟨r, ⟨hm.2, fun x hx => herased x (List.mem_cons_of_mem _ hx)⟩, ?_⟩
        have hmark := herased mark (by simp)
        obtain ⟨t, erased⟩ := mark
        obtain rfl : t = s := hm.1
        cases erased <;> split <;> simp_all

/-- The largest number of erasable symbols in a body whose markings are considered: a marking
is numbered by a mask of 64 bits of which the highest is the sign. -/
def capacity : Nat := 62

/-- The markings of a body that are considered. A body beyond the capacity is only kept whole. -/
def choices (erasable : Symbol → Bool) (body : Form) : List Marking :=
  if body.countP erasable ≤ capacity then enumerate erasable body else [whole body]

/-- The forms left of a body when at least one erasable symbol is left out, each where it is
first met. -/
def erasures (erasable : Symbol → Bool) (body : Form) : List Form :=
  (((choices erasable body).filter fun m => m.any Mark.erased).map kept).eraseDups

theorem mem_erasures {erasable : Symbol → Bool} {body form : Form} :
    form ∈ erasures erasable body ↔
      ∃ m ∈ choices erasable body, m.any Mark.erased = true ∧ kept m = form := by
  simp only [erasures, List.mem_eraseDups, List.mem_map, List.mem_filter, and_assoc]

end Marking

/-! ## The way to the empty word -/

namespace Grammar

/-- For every nullable nonterminal a production whose body can be erased by later entries of the
table, the lexicographically first of those known one round before. -/
def erasers (g : Grammar) : List Production :=
  Closure.saturate
    (fun table a =>
      ((g.bodies a).find? fun body => body.all fun s => table.any fun p => p.head == s).map
        (Production.mk a))
    [] g.heads

end Grammar

/-- The forms a symbol passes on its way to the empty form, the symbol itself not included. The
symbols of a body vanish from right to left. -/
def vanish : List Production → Symbol → List Form
  | [], _ => []
  | p :: table, s =>
    if s = p.head then
      p.body :: p.body.foldr (fun t forms => forms.map (t :: ·) ++ vanish table t) []
    else vanish table s

/-- The forms a body passes while its marked symbols vanish, from right to left, the body itself
not included. -/
def Marking.passed (table : List Production) : Marking → List Form
  | [] => []
  | mark :: m =>
    (passed table m).map (mark.symbol :: ·) ++
      if mark.erased then (vanish table mark.symbol).map (· ++ kept m) else []

end ContextFree
