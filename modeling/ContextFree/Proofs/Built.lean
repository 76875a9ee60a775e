import ContextFree.Grammar.Build
import ContextFree.Grammar.Reader
import Mathlib.Tactic.Common

/-!
# Grammars that are built

A grammar comes from a table of rules or from a text. Both ways check every symbol, so what is
built is well-formed (`Grammar.Built.admissible`): this is all that the theory of the
transformations and of the searches asks of a grammar. Conversely, every well-formed grammar can be
built (`Grammar.Admissible.built`).
-/

namespace ContextFree

/-! ## From tables -/

/-- The head is a nonterminal, and every symbol of the body is admissible. -/
def Production.Admissible (p : Production) : Prop :=
  p.head.isNonterminal = true ∧ ∀ s ∈ p.body, s.isAdmissible = true

namespace Grammar

lemma admissible_of_checkRules {rules : List (Symbol × List Form)} {ps : List Production}
    (hps : checkRules rules = .ok ps) : ∀ p ∈ ps, p.Admissible := by
  induction rules generalizing ps with
  | nil =>
    rw [checkRules, Except.ok.injEq] at hps
    simp [← hps]
  | cons rule rules ih =>
    obtain ⟨a, bodies⟩ := rule
    rw [checkRules] at hps
    split at hps
    · rename_i ha
      split at hps
      · contradiction
      · rename_i hnone
        cases hrest : checkRules rules with
        | error e =>
          rw [hrest] at hps
          contradiction
        | ok qs =>
          rw [hrest] at hps
          obtain rfl : bodies.map (Production.mk a) ++ qs = ps := Except.ok.inj hps
          intro p hp
          rcases List.mem_append.1 hp with hp | hp
          · obtain ⟨body, hbody, rfl⟩ := List.mem_map.1 hp
            -- no body has a symbol to complain about
            have hfind := List.findSome?_eq_none_iff.1 hnone body hbody
            rw [Option.map_eq_none_iff, List.find?_eq_none] at hfind
            exact ⟨ha, fun s hs => by simpa using hfind s hs⟩
          · exact ih hrest p hp
    · contradiction

/-- Rules in which every symbol is as it should be pass the check. -/
lemma checkRules_of_admissible {rules : List (Symbol × List Form)}
    (hrules : ∀ rule ∈ rules, ∀ body ∈ rule.2, (⟨rule.1, body⟩ : Production).Admissible)
    (hheads : ∀ rule ∈ rules, rule.1.isNonterminal = true) :
    checkRules rules = .ok (rules.flatMap fun rule => rule.2.map (Production.mk rule.1)) := by
  induction rules with
  | nil => rfl
  | cons rule rules ih =>
    obtain ⟨a, bodies⟩ := rule
    obtain ⟨hrule, hrules⟩ := List.forall_mem_cons.1 hrules
    obtain ⟨hhead, hheads⟩ := List.forall_mem_cons.1 hheads
    have hnone : (bodies.findSome? fun body =>
        (body.find? fun s => !s.isAdmissible).map fun s => (s, body)) = none := by
      rw [List.findSome?_eq_none_iff]
      intro body hbody
      rw [Option.map_eq_none_iff, List.find?_eq_none]
      intro s hs
      simp [(hrule body hbody).2 s hs]
    rw [checkRules, if_pos hhead, hnone, ih hrules hheads]
    rfl

end Grammar

/-! ## From texts -/

namespace Declaration

/-- A list is read element by element. -/
lemma mapM_eq_some_iff {α β : Type} {f : α → Option β} {l : List α} {bs : List β} :
    l.mapM f = some bs ↔ (∀ a ∈ l, (f a).isSome) ∧ l.filterMap f = bs := by
  induction l generalizing bs with
  | nil =>
    rw [List.mapM_nil, List.filterMap_nil]
    simp
  | cons a l ih =>
    rw [List.mapM_cons, List.forall_mem_cons]
    constructor
    · intro hbs
      obtain ⟨b, hb, hrest⟩ := Option.bind_eq_some_iff.1 hbs
      obtain ⟨bs', hbs', heq⟩ := Option.bind_eq_some_iff.1 hrest
      obtain rfl : b :: bs' = bs := Option.some.inj heq
      obtain ⟨hall, hfilter⟩ := ih.1 hbs'
      rw [List.filterMap_cons_some hb, hfilter]
      exact ⟨⟨Option.isSome_of_eq_some hb, hall⟩, rfl⟩
    · rintro ⟨⟨ha, hall⟩, rfl⟩
      obtain ⟨b, hb⟩ := Option.isSome_iff_exists.1 ha
      rw [hb, ih.2 ⟨hall, rfl⟩, List.filterMap_cons_some hb]
      rfl

lemma mapM_eq_none_iff {α β : Type} {f : α → Option β} {l : List α} :
    l.mapM f = none ↔ ¬∀ a ∈ l, (f a).isSome := by
  rw [Option.eq_none_iff_forall_ne_some]
  constructor
  · exact fun hnone hall => hnone _ (mapM_eq_some_iff.2 ⟨hall, rfl⟩)
  · exact fun hall bs hbs => hall (mapM_eq_some_iff.1 hbs).1

/-- What a list of optional results has in common with each of them. -/
lemma forall_of_mapM_eq_some {α β : Type} {f : α → Option β} {P : β → Prop}
    (hf : ∀ a b, f a = some b → P b) {l : List α} {bs : List β} (hl : l.mapM f = some bs) :
    ∀ b ∈ bs, P b := by
  obtain ⟨-, rfl⟩ := mapM_eq_some_iff.1 hl
  intro b hb
  obtain ⟨a, -, ha⟩ := List.mem_filterMap.1 hb
  exact hf a b ha

/-- What is declared is well-formed. -/
def Admissible : Declaration → Prop
  | .start s => s.isNonterminal = true
  | .rule a bodies => ∀ body ∈ bodies, (⟨a, body⟩ : Production).Admissible

lemma admissible_of_body? {alternative : List Char} {body : Form}
    (hbody : body? alternative = some body) : ∀ s ∈ body, s.isAdmissible = true := by
  unfold body? at hbody
  split at hbody
  · rename_i hall
    rw [Option.some.injEq] at hbody
    subst hbody
    intro s hs
    -- marks are dropped, and all else is admissible
    obtain ⟨hs, hmark⟩ := List.mem_filter.1 hs
    rw [Bool.and_eq_true, List.all_eq_true] at hall
    rw [Bool.not_eq_true'] at hmark
    simpa [hmark] using hall.2 s hs
  · contradiction

lemma admissible_of_start? {line : List Char} {d : Declaration} (hd : start? line = some d) :
    d.Admissible := by
  unfold start? at hd
  split at hd
  · split at hd
    · rename_i hs
      obtain rfl := Option.some.inj hd
      exact hs
    · contradiction
  · contradiction

lemma admissible_of_rule? {line : List Char} {d : Declaration} (hd : rule? line = some d) :
    d.Admissible := by
  cases line with
  | nil => contradiction
  | cons a rest =>
    rw [rule?] at hd
    split at hd
    · rename_i ha
      obtain ⟨alternatives, -, hd⟩ := Option.bind_eq_some_iff.1 hd
      obtain ⟨bodies, hbodies, hd⟩ := Option.bind_eq_some_iff.1 hd
      obtain rfl := Option.some.inj hd
      intro body hbody
      exact ⟨ha, forall_of_mapM_eq_some (fun _ _ => admissible_of_body?) hbodies body hbody⟩
    · contradiction

lemma admissible_of_ofLine? {line : List Char} {d : Declaration} (hd : ofLine? line = some d) :
    d.Admissible := by
  rcases Option.or_eq_some_iff.1 hd with hd | ⟨-, hd⟩
  · exact admissible_of_start? hd
  · exact admissible_of_rule? hd

end Declaration

namespace Grammar

variable {g : Grammar}

/-- Well-formed declarations make a well-formed grammar. -/
lemma admissible_of_ofDeclarations {declarations : List Declaration}
    (hdecl : ∀ d ∈ declarations, d.Admissible) (hg : ofDeclarations declarations = .ok g) :
    g.Admissible := by
  unfold ofDeclarations at hg
  split at hg
  · contradiction
  · rename_i start hstart
    obtain rfl := Except.ok.inj hg
    have hproductions : ∀ p ∈ declaredProductions declarations, p.Admissible := by
      intro p hp
      obtain ⟨d, hd, hp⟩ := List.mem_flatMap.1 hp
      cases d with
      | start s => exact absurd hp List.not_mem_nil
      | rule a bodies =>
        obtain ⟨body, hbody, rfl⟩ := List.mem_map.1 hp
        exact hdecl _ hd body hbody
    refine ⟨?_, fun p hp => (hproductions p (SortedSet.mem_ofList.1 hp)).1,
      fun p hp => (hproductions p (SortedSet.mem_ofList.1 hp)).2⟩
    have hmem : start ∈ declaredStarts declarations := by simp [hstart]
    obtain ⟨d, hd, hs⟩ := List.mem_filterMap.1 hmem
    cases d with
    | start s =>
      obtain rfl := Option.some.inj hs
      exact hdecl _ hd
    | rule a bodies => contradiction
  · contradiction

/-! ## Built grammars -/

/-- The grammar was made from a table of rules or read from a text. -/
inductive Built (g : Grammar) : Prop
  | rules {start : Symbol} {rules : List (Symbol × List Form)} (h : ofRules start rules = .ok g)
  | text {text : String} (h : parse text = .ok g)

/-- A grammar that is built is well-formed. -/
theorem Built.admissible (hg : g.Built) : g.Admissible := by
  cases hg with
  | @rules start rules h =>
    unfold ofRules at h
    split at h
    · rename_i hstart
      cases hps : checkRules rules with
      | error e =>
        rw [hps] at h
        contradiction
      | ok ps =>
        rw [hps] at h
        obtain rfl := Except.ok.inj h
        have hproductions := admissible_of_checkRules hps
        exact ⟨hstart, fun p hp => (hproductions p (SortedSet.mem_ofList.1 hp)).1,
          fun p hp => (hproductions p (SortedSet.mem_ofList.1 hp)).2⟩
    · contradiction
  | @text text h =>
    unfold parse at h
    split at h
    · contradiction
    · split at h
      · contradiction
      · rename_i declarations hlines
        have hdecl := Declaration.forall_of_mapM_eq_some
          (fun _ _ => Declaration.admissible_of_ofLine?) hlines
        exact admissible_of_ofDeclarations hdecl h

/-- Every well-formed grammar can be built. -/
theorem Admissible.built (hg : g.Admissible) : g.Built := by
  have hps : ∀ p ∈ g.productions.toList, p.Admissible := fun p hp => ⟨hg.head p hp, hg.body p hp⟩
  -- one rule for each production
  refine @Built.rules _ g.start (g.productions.toList.map fun p => (p.head, [p.body])) ?_
  have hcheck := @checkRules_of_admissible (g.productions.toList.map fun p => (p.head, [p.body]))
    (by simpa using hps) (by simpa using fun p hp => (hps p hp).1)
  rw [ofRules, if_pos hg.start, hcheck]
  refine congrArg Except.ok (ext_productions rfl fun p => ?_)
  simp

end Grammar

end ContextFree
