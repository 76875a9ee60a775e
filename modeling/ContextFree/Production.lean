import ContextFree.Form

/-!
# Productions

A production `A → body` replaces a nonterminal by a form. Productions are listed by head in
alphabet order, and the bodies of one head lexicographically.
-/

namespace ContextFree

/-- A rule that replaces its head by its body. -/
structure Production where
  /-- The nonterminal that is replaced. -/
  head : Symbol
  /-- What it is replaced by. -/
  body : Form
deriving DecidableEq

namespace Production

/-- The characters that show a production, as in `A -> aB`. -/
def shown (p : Production) : List Char := p.head :: " -> ".toList ++ Form.shown p.body

/-- The text that shows a production. -/
def text (p : Production) : String := String.ofList p.shown

/-- The order of productions: by head, then by body. -/
def before (p q : Production) : Bool :=
  if p.head = q.head then Form.before p.body q.body else decide (p.head.rank < q.head.rank)

theorem before_irrefl (p : Production) : before p p = false := by
  simp [before, Form.before_irrefl]

theorem before_trans {p q r : Production} (h : before p q = true) (h' : before q r = true) :
    before p r = true := by
  simp only [before] at h h' ⊢
  split at h <;> split at h'
  · rename_i hpq hqr
    rw [if_pos (hpq.trans hqr)]
    exact Form.before_trans h h'
  · rename_i hpq hqr
    rw [if_neg (hpq ▸ hqr), hpq]
    exact h'
  · rename_i hpq hqr
    rw [if_neg (hqr ▸ hpq), ← hqr]
    exact h
  · simp only [decide_eq_true_eq] at h h'
    have hlt : p.head.rank < r.head.rank := Nat.lt_trans h h'
    rw [if_neg fun hpr => by rw [hpr] at hlt; exact Nat.lt_irrefl _ hlt]
    exact decide_eq_true hlt

theorem eq_of_not_before {p q : Production} (h : before p q = false) (h' : before q p = false) :
    p = q := by
  simp only [before] at h h'
  by_cases hpq : p.head = q.head
  · rw [if_pos hpq] at h
    rw [if_pos hpq.symm] at h'
    have hbody := Form.eq_of_not_before h h'
    cases p
    cases q
    simp_all
  · rw [if_neg hpq, decide_eq_false_iff_not] at h
    rw [if_neg (Ne.symm hpq), decide_eq_false_iff_not] at h'
    exact absurd (Symbol.rank_inj (by omega)) hpq

instance : Ordered Production where
  before := before
  before_irrefl := before_irrefl
  before_trans := before_trans
  eq_of_not_before := eq_of_not_before

/-- The nonterminal a production leads to, if its body is that nonterminal and nothing else. -/
def unit? (p : Production) : Option Symbol :=
  match p.body with
  | [s] => if s.isNonterminal then some s else none
  | _ => none

theorem unit?_eq_some_iff {p : Production} {s : Symbol} :
    p.unit? = some s ↔ p.body = [s] ∧ s.isNonterminal = true := by
  unfold unit?
  split
  · rename_i t ht
    rw [ht]
    by_cases h : t.isNonterminal = true <;> simp [h] <;> grind
  · rename_i h
    simp only [reduceCtorEq, false_iff, not_and]
    exact fun hs => absurd hs (h s)

end Production

end ContextFree
