import ContextFree.Symbol

/-!
# Forms

A form is a finite sequence of symbols: the body of a production, a sentential form or a word.
Forms are listed in lexicographic order of character codes. Where a form is shown, the empty
one is written `ε`.
-/

namespace ContextFree

/-- A sequence of symbols. -/
abbrev Form := List Symbol

namespace Form

/-- How the empty form is written. -/
def epsilon : Symbol := 'ε'

/-- The characters that show a form. -/
def shown (form : Form) : List Char := if form.isEmpty then [epsilon] else form

/-- The text that shows a form. -/
def text (form : Form) : String := String.ofList (shown form)

@[simp] theorem shown_nil : shown [] = [epsilon] := rfl

@[simp] theorem shown_cons (s : Symbol) (form : Form) : shown (s :: form) = s :: form := rfl

/-- The lexicographic order by character codes. -/
def before : Form → Form → Bool
  | _, [] => false
  | [], _ :: _ => true
  | s :: u, t :: v => decide (s.toNat < t.toNat) || (s == t && before u v)

theorem before_irrefl (u : Form) : before u u = false := by
  induction u with
  | nil => rfl
  | cons s u ih => simp [before, ih]

theorem before_trans {u v w : Form} (h : before u v = true) (h' : before v w = true) :
    before u w = true := by
  induction u generalizing v w with
  | nil =>
    cases w with
    | nil => cases v <;> simp [before] at h'
    | cons t w => rfl
  | cons s u ih =>
    cases v with
    | nil => simp [before] at h
    | cons r v =>
      cases w with
      | nil => simp [before] at h'
      | cons t w =>
        simp only [before, Bool.or_eq_true, decide_eq_true_eq, Bool.and_eq_true, beq_iff_eq]
          at h h' ⊢
        rcases h with h | ⟨rfl, h⟩ <;> rcases h' with h' | ⟨rfl, h'⟩
        · exact .inl (by omega)
        · exact .inl h
        · exact .inl h'
        · exact .inr ⟨rfl, ih h h'⟩

theorem eq_of_not_before {u v : Form} (h : before u v = false) (h' : before v u = false) :
    u = v := by
  induction u generalizing v with
  | nil =>
    cases v with
    | nil => rfl
    | cons t v => simp [before] at h
  | cons s u ih =>
    cases v with
    | nil => simp [before] at h'
    | cons t v =>
      simp only [before, Bool.or_eq_false_iff, decide_eq_false_iff_not] at h h'
      have hst : s = t := Char.toNat_inj.1 (by omega)
      subst hst
      rw [ih (by simpa using h.2) (by simpa using h'.2)]

instance : Ordered Form where
  before := before
  before_irrefl := before_irrefl
  before_trans := before_trans
  eq_of_not_before := eq_of_not_before

/-- Forms are hashed symbol by symbol. -/
instance : Hashable Form where
  hash form := form.foldl (fun code s => mixHash code s.val.toUInt64) 7

/-- Words are compared by their number of symbols first, then lexicographically. -/
def shortlex (u v : Form) : Bool :=
  decide (u.length < v.length) || (u.length == v.length && !before v u)

/-- Lists words by length and then lexicographically. -/
def sortShortlex (words : List Form) : List Form := words.mergeSort shortlex

theorem shortlex_iff {u v : Form} :
    shortlex u v = true ↔ u.length < v.length ∨ (u.length = v.length ∧ before v u = false) := by
  simp [shortlex]

theorem shortlex_trans {u v w : Form} (h : shortlex u v = true) (h' : shortlex v w = true) :
    shortlex u w = true := by
  rw [shortlex_iff] at h h' ⊢
  rcases h with h | ⟨hlength, h⟩ <;> rcases h' with h' | ⟨hlength', h'⟩
  · exact .inl (by omega)
  · exact .inl (by omega)
  · exact .inl (by omega)
  · refine .inr ⟨hlength.trans hlength', ?_⟩
    -- a word before the first one would have to stand on one side of the second
    cases hwu : before w u with
    | false => rfl
    | true =>
      cases huv : before u v with
      | false => rwa [← eq_of_not_before huv h, hwu] at h'
      | true => rwa [before_trans hwu huv] at h'

theorem shortlex_total (u v : Form) : (shortlex u v || shortlex v u) = true := by
  rw [Bool.or_eq_true, shortlex_iff, shortlex_iff]
  rcases Nat.lt_trichotomy u.length v.length with h | h | h
  · exact .inl (.inl h)
  · cases hvu : before v u with
    | false => exact .inl (.inr ⟨h, rfl⟩)
    | true =>
      have huv : Ordered.before u v = false := Ordered.not_before_of_before hvu
      exact .inr (.inr ⟨h.symm, huv⟩)
  · exact .inr (.inl h)

@[simp] theorem mem_sortShortlex {words : List Form} {w : Form} :
    w ∈ sortShortlex words ↔ w ∈ words := List.mem_mergeSort

theorem pairwise_shortlex_sortShortlex (words : List Form) :
    (sortShortlex words).Pairwise fun u v => shortlex u v = true := by
  have htrans : ∀ u v w : Form, shortlex u v = true → shortlex v w = true →
      shortlex u w = true := fun _ _ _ => shortlex_trans
  exact List.pairwise_mergeSort htrans shortlex_total words

/-- On different words the order is strict. -/
theorem shortlex_strict {u v : Form} (h : shortlex u v = true) (hne : u ≠ v) :
    u.length < v.length ∨ (u.length = v.length ∧ before u v = true) := by
  rcases shortlex_iff.1 h with hlt | ⟨hlength, hvu⟩
  · exact .inl hlt
  · refine .inr ⟨hlength, ?_⟩
    cases huv : before u v with
    | true => rfl
    | false => exact absurd (eq_of_not_before huv hvu) hne

/-- Different words stand in strict order. -/
theorem pairwise_sortShortlex {words : List Form} (h : words.Nodup) :
    (sortShortlex words).Pairwise fun u v =>
      u.length < v.length ∨ (u.length = v.length ∧ before u v = true) := by
  have hdistinct : (sortShortlex words).Nodup := (List.mergeSort_perm words shortlex).nodup_iff.2 h
  exact ((pairwise_shortlex_sortShortlex words).and hdistinct).imp
    fun huv => shortlex_strict huv.1 huv.2

/-- Splits a form around the leftmost occurrence of a symbol. -/
def splitAt? (s : Symbol) : Form → Option (Form × Form)
  | [] => none
  | t :: rest =>
    if t = s then some ([], rest)
    else (splitAt? s rest).map fun (left, right) => (t :: left, right)

/-- The parts around the occurrence put the form together again. -/
theorem eq_of_splitAt? {s : Symbol} {form left right : Form}
    (h : splitAt? s form = some (left, right)) : form = left ++ s :: right := by
  induction form generalizing left with
  | nil => simp [splitAt?] at h
  | cons t rest ih =>
    rw [splitAt?] at h
    split at h
    · rename_i hts
      simp only [Option.some.injEq, Prod.mk.injEq] at h
      simp [← h.1, ← h.2, hts]
    · simp only [Option.map_eq_some_iff, Prod.mk.injEq, Prod.exists] at h
      obtain ⟨l, r, hlr, rfl, rfl⟩ := h
      simp [ih hlr]

end Form

end ContextFree
