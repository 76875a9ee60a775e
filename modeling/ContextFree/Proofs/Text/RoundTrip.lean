import ContextFree.Grammar.Printer
import ContextFree.Proofs.Text.Reading
import ContextFree.Proofs.Transformed

/-!
# Reading what is written

The text of a well-formed grammar is read as that grammar (`parse_text_of_admissible`): each of its
lines is tidy and of the format, the first declares the start symbol, and the others give the
nonterminals their bodies. Bodies may hold characters that also occur in the format, such as those
of the arrow, because an arrow is looked for in front of the alternatives only.
-/

namespace ContextFree.Grammar

open Declaration

variable {g : Grammar} {a : Symbol}

/-! ## Bodies -/

/-- A body is shown by elements only, at least one of them. -/
lemma isElement_of_mem_shown {body : Form} (hbody : ∀ s ∈ body, s.isAdmissible = true) :
    ∀ c ∈ body.shown, isElement c = true := by
  cases body with
  | nil =>
    rw [Form.shown_nil, List.forall_mem_singleton]
    decide +kernel
  | cons s body =>
    rw [Form.shown_cons]
    intro c hc
    rw [isElement, hbody c hc, Bool.true_or]

lemma shown_ne_nil (body : Form) : body.shown ≠ [] := by
  cases body with
  | nil => exact List.cons_ne_nil _ _
  | cons s body => exact List.cons_ne_nil _ _

lemma alternative_shown {body : Form} (hbody : ∀ s ∈ body, s.isAdmissible = true) :
    Declaration.Alternative (' ' :: body.shown) := by
  have hshown := isElement_of_mem_shown hbody
  obtain ⟨c, hc⟩ := List.exists_mem_of_ne_nil _ (shown_ne_nil body)
  refine ⟨?_, c, List.mem_cons_of_mem _ hc, hshown c hc⟩
  rw [List.forall_mem_cons]
  exact ⟨.inl rfl, fun c hc => .inr (hshown c hc)⟩

/-- A shown body denotes the body again. -/
lemma denoted_shown {body : Form} (hbody : ∀ s ∈ body, s.isAdmissible = true) :
    denoted (' ' :: body.shown) = body := by
  rw [denoted, List.filter_cons_of_neg (by decide)]
  cases body with
  | nil => rfl
  | cons s body =>
    rw [Form.shown_cons]
    refine List.filter_eq_self.2 fun c hc => ?_
    have hgap : isGap c = false := isGap_eq_false (isBlank_of_isAdmissible (hbody c hc))
    rw [hgap, isMark_of_isAdmissible (hbody c hc)]
    rfl

/-! ## Lines -/

lemma declares_startLine (hg : g.Admissible) : Declares g.startLine (.start g.start) :=
  ⟨hg.start, [' '], [], by decide, by decide, rfl⟩

/-- The bodies of a line with their bars are alternatives. -/
lemma exists_alternatives_shown {body : Form} {bodies : List Form}
    (hbodies : ∀ b ∈ body :: bodies, ∀ s ∈ b, s.isAdmissible = true) :
    ∃ alternatives, alternatives ≠ [] ∧
      (∀ alternative ∈ alternatives, Declaration.Alternative alternative) ∧
      Text.joinWith ['|'] alternatives =
        ' ' :: Text.joinWith " | ".toList ((body :: bodies).map Form.shown) ∧
      alternatives.map denoted = body :: bodies := by
  obtain ⟨hbody, hbodies⟩ := List.forall_mem_cons.1 hbodies
  have hparts : List.Forall₂ Pattern.TakesFurther
      (bodies.map fun b => " | ".toList ++ b.shown) bodies := by
    rw [List.forall₂_map_left_iff, List.forall₂_same]
    intro b hb
    exact ⟨[' '], ' ' :: b.shown, by decide, alternative_shown (hbodies b hb), rfl,
      denoted_shown (hbodies b hb)⟩
  obtain ⟨alternatives, hne, hall, hjoin, hdenoted⟩ :=
    Pattern.exists_alternatives hparts (alternative_shown hbody) Pattern.gap_nil
  rw [denoted_shown hbody] at hdenoted
  refine ⟨alternatives, hne, hall, ?_, hdenoted⟩
  rw [hjoin, List.map_cons, Text.joinWith_cons, List.append_nil, List.cons_append,
    List.flatMap_map, List.flatMap_def]

lemma declares_ruleLine (hg : g.Admissible) (ha : a ∈ g.heads) :
    Declares (g.ruleLine a) (.rule a (g.bodies a)) := by
  obtain ⟨p, hp, rfl⟩ := mem_heads.1 ha
  have hadmissible : ∀ b ∈ g.bodies p.head, ∀ s ∈ b, s.isAdmissible = true := fun b hb =>
    hg.body _ (mem_bodies.1 hb)
  have hne : g.bodies p.head ≠ [] := List.ne_nil_of_mem (mem_bodies.2 hp)
  obtain ⟨body, bodies, hbodies⟩ := List.exists_cons_of_ne_nil hne
  rw [hbodies] at hadmissible
  obtain ⟨alternatives, hne, hall, hjoin, hdenoted⟩ := exists_alternatives_shown hadmissible
  rw [ruleLine, hbodies]
  refine ⟨alternatives, ⟨hg.head p hp, hne, hall, [' '], "->".toList, by decide, .inl rfl, ?_⟩,
    hdenoted⟩
  rw [hjoin]
  rfl

/-- What the lines of a grammar declare. -/
lemma filterMap_lines (hg : g.Admissible) :
    g.lines.filterMap ofLine? =
      .start g.start :: g.heads.map fun a => .rule a (g.bodies a) := by
  rw [lines, List.filterMap_cons_some (ofLine?_eq_some_iff.2 (declares_startLine hg)),
    List.filterMap_map]
  have hread : ∀ a ∈ g.heads, (ofLine? ∘ g.ruleLine) a = some (.rule a (g.bodies a)) :=
    fun a ha => ofLine?_eq_some_iff.2 (declares_ruleLine hg ha)
  rw [List.filterMap_congr hread, List.filterMap_eq_map']

lemma exists_declares_of_mem_lines (hg : g.Admissible) {line : List Char} (hline : line ∈ g.lines) :
    ∃ d, Declares line d := by
  rcases List.mem_cons.1 hline with rfl | hline
  · exact ⟨_, declares_startLine hg⟩
  · obtain ⟨a, ha, rfl⟩ := List.mem_map.1 hline
    exact ⟨_, declares_ruleLine hg ha⟩

/-- A line begins with a letter or a nonterminal. -/
lemma isBlank_head_of_mem_lines (hg : g.Admissible) {line : List Char} (hline : line ∈ g.lines) :
    ∀ c ∈ line.head?, Text.isBlank c = false := by
  rcases List.mem_cons.1 hline with rfl | hline
  · intro c hc
    obtain rfl : 's' = c := Option.some.inj hc
    rfl
  · obtain ⟨a, ha, rfl⟩ := List.mem_map.1 hline
    obtain ⟨p, hp, rfl⟩ := mem_heads.1 ha
    intro c hc
    obtain rfl : p.head = c := Option.some.inj hc
    exact isBlank_of_isAdmissible (isAdmissible_of_isNonterminal (hg.head p hp))

/-- A line ends with a symbol or with a mark. -/
lemma isBlank_last_of_mem_lines (hg : g.Admissible) {line : List Char} (hline : line ∈ g.lines) :
    ∀ c ∈ line.getLast?, Text.isBlank c = false := by
  rcases List.mem_cons.1 hline with rfl | hline
  · intro c hc
    have hlast : g.startLine.getLast? = some g.start := List.getLast?_concat
    rw [hlast, Option.mem_some_iff] at hc
    rw [← hc]
    exact isBlank_of_isAdmissible (isAdmissible_of_isNonterminal hg.start)
  · obtain ⟨a, ha, rfl⟩ := List.mem_map.1 hline
    obtain ⟨p, hp, rfl⟩ := mem_heads.1 ha
    have hshown : ∀ part ∈ (g.bodies p.head).map Form.shown, part ≠ [] :=
      List.forall_mem_map.2 fun body _ => shown_ne_nil body
    have hne : (g.bodies p.head).map Form.shown ≠ [] :=
      List.ne_nil_of_mem (List.mem_map_of_mem (mem_bodies.2 hp))
    intro c hc
    rw [ruleLine, List.getLast?_append_of_ne_nil _ (Text.joinWith_ne_nil _ hshown hne)] at hc
    obtain ⟨part, hpart, hc⟩ := Text.mem_getLast?_joinWith hshown hc
    obtain ⟨body, hbody, rfl⟩ := List.mem_map.1 hpart
    have hbody : ∀ s ∈ body, s.isAdmissible = true := hg.body _ (mem_bodies.1 hbody)
    exact isBlank_of_isElement (isElement_of_mem_shown hbody c (List.mem_of_getLast? hc))

lemma tidy_of_mem_lines (hg : g.Admissible) {line : List Char} (hline : line ∈ g.lines) :
    Tidy line := by
  obtain ⟨d, hd⟩ := exists_declares_of_mem_lines hg hline
  refine ⟨?_, Pattern.not_mem_of_declares (by decide +kernel) hd,
    Pattern.not_mem_of_declares (by decide +kernel) hd, isBlank_head_of_mem_lines hg hline,
    isBlank_last_of_mem_lines hg hline⟩
  rintro rfl
  have hread : ofLine? [] = some d := ofLine?_eq_some_iff.2 hd
  contradiction

/-! ## The text -/

/-- The lines of a grammar are the relevant lines of its text. -/
lemma relevantLines_text (hg : g.Admissible) : relevantLines g.text.toList = g.lines := by
  rw [text, String.toList_ofList]
  exact relevantLines_unlines fun line => tidy_of_mem_lines hg

lemma declaredStarts_filterMap_lines (hg : g.Admissible) :
    declaredStarts (g.lines.filterMap ofLine?) = [g.start] := by
  have hrules :
      (g.heads.map fun a => Declaration.rule a (g.bodies a)).filterMap declared? = [] := by
    rw [List.filterMap_map]
    exact List.filterMap_eq_nil_iff.2 fun _ _ => rfl
  rw [filterMap_lines hg, declaredStarts_eq, List.filterMap_cons, hrules]
  rfl

lemma mem_declaredProductions_filterMap_lines (hg : g.Admissible) {p : Production} :
    p ∈ declaredProductions (g.lines.filterMap ofLine?) ↔ p ∈ g.productions := by
  rw [filterMap_lines hg, declaredProductions, List.flatMap_cons, List.nil_append,
    List.flatMap_map, List.mem_flatMap]
  constructor
  · rintro ⟨a, -, hp⟩
    obtain ⟨body, hbody, rfl⟩ := List.mem_map.1 hp
    exact mem_bodies.1 hbody
  · intro hp
    exact ⟨p.head, mem_heads.2 ⟨p, hp, rfl⟩, List.mem_map.2 ⟨p.body, mem_bodies.2 hp, rfl⟩⟩

theorem parse_text_of_admissible (hg : g.Admissible) : parse g.text = .ok g := by
  rw [parse_eq_ok_iff, relevantLines_text hg, ofDeclarations_eq_ok_iff]
  refine ⟨List.cons_ne_nil _ _, fun line hline => ?_, declaredStarts_filterMap_lines hg, ?_⟩
  · obtain ⟨d, hd⟩ := exists_declares_of_mem_lines hg hline
    exact Option.isSome_of_eq_some (ofLine?_eq_some_iff.2 hd)
  · ext p
    rw [SortedSet.mem_ofList, mem_declaredProductions_filterMap_lines hg]

/-- Whatever was built or transformed is read back from its text. -/
theorem parse_text (hg : g.Made) : parse g.text = .ok g :=
  parse_text_of_admissible hg.admissible

theorem parse_text_untangled :
    arrows.Made ∧ parse arrows.text = .ok arrows ∧
      untangled.Made ∧ parse untangled.text = .ok untangled := by
  have harrows : arrows.Made := .built (@Built.text _ annotated (by decide +kernel))
  have huntangled : untangled.Made :=
    .transformed (.built built_tangled) (t := .normalize) normalize_tangled
  exact ⟨harrows, parse_text harrows, huntangled, parse_text huntangled⟩

end ContextFree.Grammar
