import ContextFree.Erasure
import ContextFree.Proofs.Closures

/-!
# Contracted bodies

A body is contracted when symbols that yield the empty word are left out of it. Leaving them out
loses no word but the empty one: a body yields a word exactly where the symbols that
contribute nothing to it are left out.

A grammar with all contractions of another one (`Grammar.Contracts`) therefore yields every
word of it that is not empty, even without empty bodies and without the contractions that lead
a nonterminal to itself.
-/

namespace ContextFree

namespace Marking

variable {erasable : Symbol → Bool} {body : Form} {m : Marking}

@[simp] lemma origin_nil : origin [] = [] := rfl

@[simp] lemma kept_nil : kept [] = [] := rfl

@[simp] lemma origin_cons (mark : Mark) (m : Marking) :
    origin (mark :: m) = mark.symbol :: origin m := rfl

lemma kept_cons_of_erased {mark : Mark} (h : mark.erased = true) (m : Marking) :
    kept (mark :: m) = kept m := by
  simp [kept, h]

lemma kept_cons_of_not_erased {mark : Mark} (h : mark.erased = false) (m : Marking) :
    kept (mark :: m) = mark.symbol :: kept m := by
  simp [kept, h]

/-- All symbols that the marking leaves out have the property. -/
def Erases (P : Symbol → Prop) (m : Marking) : Prop :=
  ∀ mark ∈ m, mark.erased = true → P mark.symbol

lemma erases_cons_iff {P : Symbol → Prop} {mark : Mark} :
    Erases P (mark :: m) ↔ (mark.erased = true → P mark.symbol) ∧ Erases P m :=
  List.forall_mem_cons

/-- What is kept is a part of the body, in the same order. -/
lemma kept_sublist (m : Marking) : (kept m).Sublist (origin m) :=
  List.filter_sublist.map Mark.symbol

/-- Where nothing is left out, the whole body is kept. -/
lemma kept_eq_origin (h : m.any Mark.erased = false) : kept m = origin m := by
  have hfilter : m.filter (fun mark => !mark.erased) = m := by
    rw [List.filter_eq_self]
    intro mark hmark
    have := (List.any_eq_false.1 h) mark hmark
    simpa using this
  rw [kept, hfilter, origin]

/-- Beyond the capacity or not, a considered marking is one of the body and leaves out nothing but
erasable symbols. -/
lemma of_mem_choices (hm : m ∈ choices erasable body) :
    origin m = body ∧ m.Erases fun s => erasable s = true := by
  unfold choices at hm
  split at hm
  · exact mem_enumerate.1 hm
  · rw [List.mem_singleton.1 hm]
    refine ⟨origin_whole body, fun mark hmark herased => ?_⟩
    obtain ⟨s, -, rfl⟩ := List.mem_map.1 hmark
    contradiction

/-- Within the capacity, all markings are considered. -/
lemma mem_choices (hcap : body.countP erasable ≤ capacity) (horigin : origin m = body)
    (herases : m.Erases fun s => erasable s = true) : m ∈ choices erasable body := by
  rw [choices, if_pos hcap]
  exact mem_enumerate.2 ⟨horigin, herases⟩

end Marking

namespace Grammar

variable {g h : Grammar} {s : Symbol} {u w : Form}

/-- Symbols that yield the empty word may be left out. -/
lemma derives_kept {m : Marking} (hm : m.Erases fun s => g.Yields [s] []) :
    g.Derives m.origin m.kept := by
  induction m with
  | nil => exact .refl _
  | cons mark m ih =>
    obtain ⟨hmark, hm⟩ := Marking.erases_cons_iff.1 hm
    rw [Marking.origin_cons]
    by_cases he : mark.erased = true
    · rw [Marking.kept_cons_of_erased he]
      exact (hmark he).derives.append (ih hm)
    · rw [Marking.kept_cons_of_not_erased (by simpa using he)]
      exact (ih hm).append_left [mark.symbol]

/-- The symbols that are read as the empty word can be marked, and the others make up the whole
word. -/
lemma Reads.exists_marking {L : Symbol → Form → Prop} (hr : Reads L u w) :
    ∃ m : Marking, m.origin = u ∧ (m.Erases fun s => L s []) ∧
      Reads (fun s x => L s x ∧ x ≠ []) m.kept w := by
  induction u generalizing w with
  | nil => exact ⟨[], rfl, by simp [Marking.Erases], hr⟩
  | cons s u ih =>
    obtain ⟨x, y, rfl, hx, hy⟩ := hr
    obtain ⟨m, rfl, herases, hkept⟩ := ih hy
    by_cases hempty : x = []
    · subst hempty
      refine ⟨⟨s, true⟩ :: m, rfl, Marking.erases_cons_iff.2 ⟨fun _ => hx, herases⟩, ?_⟩
      rw [Marking.kept_cons_of_erased rfl]
      exact hkept
    · refine ⟨⟨s, false⟩ :: m, rfl, Marking.erases_cons_iff.2 ⟨by simp, herases⟩, ?_⟩
      rw [Marking.kept_cons_of_not_erased rfl]
      exact ⟨x, y, rfl, ⟨hx, hempty⟩, hkept⟩

/-- No body has more nullable symbols than its markings can be numbered for. -/
def WithinCapacity (g : Grammar) : Prop :=
  ∀ p ∈ g.productions, p.body.countP (fun s => decide (s ∈ g.nullable)) ≤ Marking.capacity

instance (g : Grammar) : Decidable g.WithinCapacity :=
  inferInstanceAs (Decidable (∀ p ∈ g.productions.toList,
    p.body.countP (fun s => decide (s ∈ g.nullable)) ≤ Marking.capacity))

/-- The second grammar has all contractions of the bodies of the first one, except for those that
are empty or lead a nonterminal to itself. -/
def Contracts (g h : Grammar) : Prop :=
  ∀ (a : Symbol) (m : Marking), (⟨a, m.origin⟩ : Production) ∈ g.productions →
    (m.Erases fun s => s ∈ g.nullable) → m.kept ≠ [] → m.kept ≠ [a] →
    (⟨a, m.kept⟩ : Production) ∈ h.productions

/-- With all contractions, a grammar yields every word that is not empty. -/
theorem Yields.of_contracts (hc : g.Contracts h) (hy : g.Yields [s] w) (hw : w ≠ []) :
    h.Yields [s] w := by
  have hclosed : g.Closed fun s x => g.Yields [s] x ∧ (x ≠ [] → h.Yields [s] x) := by
    refine ⟨fun s hs => ⟨.terminal hs .nil, fun _ => .terminal hs .nil⟩, fun p hp x hx => ?_⟩
    refine ⟨.of_body hp (reads_yields_self_iff.1 (hx.mono fun s _ y hy => hy.1)), fun hne => ?_⟩
    obtain ⟨m, horigin, herases, hkept⟩ := hx.exists_marking
    have hkept : h.Yields m.kept x :=
      reads_yields_self_iff.1 (hkept.mono fun s _ y hy => hy.1.2 hy.2)
    by_cases hself : m.kept = [p.head]
    · rwa [hself] at hkept
    · -- the contraction is a production, unless it were empty
      have hne' : m.kept ≠ [] := by
        intro hnil
        rw [hnil, yields_nil_iff] at hkept
        exact hne hkept
      have hmem := hc p.head m (horigin ▸ hp)
        (fun mark hmark he => mem_nullable_iff.2 (herases mark hmark he).1) hne' hself
      exact .of_body hmem hkept
  exact ((reads_singleton_iff.1 (hy.reads hclosed)).2 hw)

end Grammar

end ContextFree
