import ContextFree.Proofs.Text.Pattern

/-!
# What is read

A text is read if its relevant lines are of the format and exactly one of them declares the start
symbol (`Grammar.Accepted`). The grammar that is read has the declared start symbol and the bodies
that the alternatives of its rule lines denote, in whatever order the lines come. It makes no
difference whether the lines are read one by one or the whole text is matched at once.

The main result is `parse_exact`.
-/

namespace ContextFree.Grammar

open Declaration

variable {line : List Char} {lines lines' : List (List Char)} {declarations : List Declaration}
  {g : Grammar}

/-! ## Start symbols and productions of lines -/

/-- The start symbol that a declaration declares. -/
def declared? : Declaration → Option Symbol
  | .start s => some s
  | .rule _ _ => none

lemma declaredStarts_eq (declarations : List Declaration) :
    declaredStarts declarations = declarations.filterMap declared? := rfl

/-- Only a start line declares a start symbol. -/
lemma bind_declared?_eq_some_iff {s : Symbol} :
    (ofLine? line).bind declared? = some s ↔ StartLine line s := by
  rw [Option.bind_eq_some_iff]
  constructor
  · rintro ⟨d, hd, hs⟩
    cases d with
    | start s' =>
      obtain rfl := Option.some.inj hs
      exact ofLine?_eq_some_iff.1 hd
    | rule a bodies => contradiction
  · exact fun hline => ⟨.start s, ofLine?_eq_some_iff.2 hline, rfl⟩

lemma bind_declared?_eq_none_iff :
    (ofLine? line).bind declared? = none ↔ ∀ s, ¬StartLine line s := by
  rw [Option.eq_none_iff_forall_ne_some]
  exact forall_congr' fun s => not_congr bind_declared?_eq_some_iff

/-- The lines declare a single start symbol if exactly one of them is a start line. -/
lemma declaredStarts_eq_singleton_iff {s : Symbol} :
    declaredStarts (lines.filterMap ofLine?) = [s] ↔
      ∃ before line after, lines = before ++ line :: after ∧ StartLine line s ∧
        ∀ other ∈ before ++ after, ∀ s', ¬StartLine other s' := by
  rw [declaredStarts_eq, List.filterMap_filterMap, List.filterMap_eq_cons_iff]
  simp only [List.filterMap_eq_nil_iff, bind_declared?_eq_some_iff, bind_declared?_eq_none_iff,
    List.forall_mem_append]
  constructor
  · rintro ⟨before, line, after, hlines, hbefore, hline, hafter⟩
    exact ⟨before, line, after, hlines, hline, hbefore, hafter⟩
  · rintro ⟨before, line, after, hlines, hline, hbefore, hafter⟩
    exact ⟨before, line, after, hlines, hbefore, hline, hafter⟩

/-- A production is declared by a rule line with its head and an alternative for its body. -/
lemma mem_declaredProductions_iff {a : Symbol} {body : Form} :
    ⟨a, body⟩ ∈ declaredProductions (lines.filterMap ofLine?) ↔
      ∃ line ∈ lines, ∃ alternatives, RuleLine line a alternatives ∧
        ∃ alternative ∈ alternatives, denoted alternative = body := by
  constructor
  · intro hp
    obtain ⟨d, hd, hp⟩ := List.mem_flatMap.1 hp
    obtain ⟨line, hline, hread⟩ := List.mem_filterMap.1 hd
    cases d with
    | start s => exact absurd hp List.not_mem_nil
    | rule a' bodies =>
      obtain ⟨body', hbody, heq⟩ := List.mem_map.1 hp
      obtain ⟨rfl, rfl⟩ := Production.mk.inj heq
      obtain ⟨alternatives, hrule, rfl⟩ := ofLine?_eq_some_iff.1 hread
      exact ⟨line, hline, alternatives, hrule, List.mem_map.1 hbody⟩
  · rintro ⟨line, hline, alternatives, hrule, halternative⟩
    have hread : ofLine? line = some (.rule a (alternatives.map denoted)) :=
      ofLine?_eq_some_iff.2 ⟨alternatives, hrule, rfl⟩
    refine List.mem_flatMap.2 ⟨_, List.mem_filterMap.2 ⟨line, hline, hread⟩, ?_⟩
    exact List.mem_map.2 ⟨body, List.mem_map.2 halternative, rfl⟩

lemma ofDeclarations_eq_ok_iff :
    ofDeclarations declarations = .ok g ↔ declaredStarts declarations = [g.start] ∧
      g.productions = .ofList (declaredProductions declarations) := by
  unfold ofDeclarations
  split
  · rename_i hstarts
    simp [hstarts]
  · rename_i start hstarts
    rw [Except.ok.injEq, hstarts]
    cases g
    simp [eq_comm]
  · rename_i hnil hone
    simp only [reduceCtorEq, false_iff, not_and]
    exact fun hstarts => absurd hstarts (hone _)

/-! ## Reading lines -/

variable {text text' : String}

lemma parse_of_eq_nil (hlines : relevantLines text.toList = []) : parse text = .error .empty := by
  rw [parse, hlines]

/-- If lines are left, they are read one by one. -/
lemma parse_of_ne_nil (hlines : relevantLines text.toList ≠ []) :
    parse text =
      match (relevantLines text.toList).mapM ofLine? with
      | none => .error .malformed
      | some declarations => ofDeclarations declarations := by
  unfold parse
  split
  · contradiction
  · rfl

lemma parse_eq_ok_iff :
    parse text = .ok g ↔ relevantLines text.toList ≠ [] ∧
      (∀ line ∈ relevantLines text.toList, (ofLine? line).isSome) ∧
      ofDeclarations ((relevantLines text.toList).filterMap ofLine?) = .ok g := by
  by_cases hlines : relevantLines text.toList = []
  · simp [parse_of_eq_nil hlines, hlines]
  · rw [parse_of_ne_nil hlines]
    cases hread : (relevantLines text.toList).mapM ofLine? with
    | none =>
      simp only [reduceCtorEq, false_iff, not_and]
      intro _ hall
      rw [mapM_eq_some_iff.2 ⟨hall, rfl⟩] at hread
      contradiction
    | some declarations =>
      obtain ⟨hall, rfl⟩ := mapM_eq_some_iff.1 hread
      exact ⟨fun hg => ⟨hlines, hall, hg⟩, fun hg => hg.2.2⟩

/-- Reads a grammar text by matching the relevant lines all at once. -/
def parseWhole (text : String) : Except ReadError Grammar :=
  match relevantLines text.toList with
  | [] => .error .empty
  | lines =>
    match Pattern.grammarText (unlines lines) with
    | none => .error .malformed
    | some (declarations, _) => ofDeclarations declarations

/-- Reading line by line and matching the whole text give the same grammar or the same error. -/
theorem parse_eq_parseWhole (text : String) : parse text = parseWhole text := by
  unfold parse parseWhole
  cases hlines : relevantLines text.toList with
  | nil => rfl
  | cons line lines =>
    have htidy : ∀ other ∈ line :: lines, Tidy other := fun other hother =>
      tidy_of_mem_relevantLines (hlines ▸ hother)
    dsimp only
    rw [Pattern.grammarText_unlines (List.cons_ne_nil line lines) htidy]
    cases (line :: lines).mapM ofLine? with
    | none => rfl
    | some declarations => rfl

/-! ## The order of the lines -/

/-- Declarations make the same grammar, or give the same error, in every order. -/
lemma ofDeclarations_perm {declarations' : List Declaration}
    (hperm : declarations.Perm declarations') :
    ofDeclarations declarations = ofDeclarations declarations' := by
  have hstarts : (declaredStarts declarations).Perm (declaredStarts declarations') :=
    hperm.filterMap _
  have hproductions : SortedSet.ofList (declaredProductions declarations) =
      SortedSet.ofList (declaredProductions declarations') := by
    ext p
    rw [SortedSet.mem_ofList, SortedSet.mem_ofList, declaredProductions, declaredProductions,
      (hperm.flatMap_right _).mem_iff]
  unfold ofDeclarations
  rw [hproductions]
  cases hleft : declaredStarts declarations with
  | nil =>
    rw [hleft, List.nil_perm] at hstarts
    rw [hstarts]
  | cons s others =>
    cases others with
    | nil =>
      rw [hleft, List.singleton_perm] at hstarts
      rw [hstarts]
    | cons s' others =>
      rw [hleft] at hstarts
      match hright : declaredStarts declarations' with
      | [] => exact absurd hstarts.length_eq (by simp [hright])
      | [t] => exact absurd hstarts.length_eq (by simp [hright])
      | _ :: _ :: _ => rfl

/-- A text with the same relevant lines in another order is read in the same way. -/
theorem parse_eq_of_perm
    (hperm : (relevantLines text.toList).Perm (relevantLines text'.toList)) :
    parse text = parse text' := by
  by_cases hlines : relevantLines text.toList = []
  · have hlines' : relevantLines text'.toList = [] := by rwa [hlines, List.nil_perm] at hperm
    rw [parse_of_eq_nil hlines, parse_of_eq_nil hlines']
  · have hlines' : relevantLines text'.toList ≠ [] := by
      intro hnil
      rw [hnil, List.perm_nil] at hperm
      exact hlines hperm
    rw [parse_of_ne_nil hlines, parse_of_ne_nil hlines']
    by_cases hall : ∀ line ∈ relevantLines text.toList, (ofLine? line).isSome
    · have hall' : ∀ line ∈ relevantLines text'.toList, (ofLine? line).isSome :=
        fun line hline => hall line (hperm.mem_iff.2 hline)
      rw [mapM_eq_some_iff.2 ⟨hall, rfl⟩, mapM_eq_some_iff.2 ⟨hall', rfl⟩]
      exact ofDeclarations_perm (hperm.filterMap ofLine?)
    · have hall' : ¬∀ line ∈ relevantLines text'.toList, (ofLine? line).isSome :=
        fun hall' => hall fun line hline => hall' line (hperm.mem_iff.1 hline)
      rw [mapM_eq_none_iff.2 hall, mapM_eq_none_iff.2 hall']

/-! ## What is accepted and what it means -/

/-- The lines are of the format, and exactly one of them declares the start symbol. -/
structure Accepted (lines : List (List Char)) : Prop where
  nonempty : lines ≠ []
  format : ∀ line ∈ lines,
    (∃ s, StartLine line s) ∨ ∃ a alternatives, RuleLine line a alternatives
  start : ∃ before line after, lines = before ++ line :: after ∧ (∃ s, StartLine line s) ∧
    ∀ other ∈ before ++ after, ∀ s, ¬StartLine other s

lemma isSome_ofLine?_iff :
    (ofLine? line).isSome ↔
      (∃ s, StartLine line s) ∨ ∃ a alternatives, RuleLine line a alternatives := by
  rw [Option.isSome_iff_exists]
  constructor
  · rintro ⟨d, hd⟩
    cases d with
    | start s => exact .inl ⟨s, ofLine?_eq_some_iff.1 hd⟩
    | rule a bodies =>
      obtain ⟨alternatives, hrule, -⟩ := ofLine?_eq_some_iff.1 hd
      exact .inr ⟨a, alternatives, hrule⟩
  · rintro (⟨s, hline⟩ | ⟨a, alternatives, hline⟩)
    · exact ⟨.start s, ofLine?_eq_some_iff.2 hline⟩
    · exact ⟨.rule a (alternatives.map denoted), ofLine?_eq_some_iff.2 ⟨alternatives, hline, rfl⟩⟩

/-- What the grammar has is what the lines say. -/
structure Says (lines : List (List Char)) (g : Grammar) : Prop where
  start : ∃ line ∈ lines, StartLine line g.start
  has_iff : ∀ a body, g.has a body = true ↔ ∃ line ∈ lines, ∃ alternatives,
    RuleLine line a alternatives ∧ ∃ alternative ∈ alternatives, denoted alternative = body

theorem exists_parse_iff : (∃ g, parse text = .ok g) ↔ Accepted (relevantLines text.toList) := by
  constructor
  · rintro ⟨g, hg⟩
    obtain ⟨hne, hall, hg⟩ := parse_eq_ok_iff.1 hg
    obtain ⟨before, line, after, hlines, hline, hothers⟩ :=
      declaredStarts_eq_singleton_iff.1 (ofDeclarations_eq_ok_iff.1 hg).1
    exact ⟨hne, fun line hline => isSome_ofLine?_iff.1 (hall line hline),
      before, line, after, hlines, ⟨g.start, hline⟩, hothers⟩
  · rintro ⟨hne, hformat, before, line, after, hlines, ⟨s, hline⟩, hothers⟩
    have hstart := declaredStarts_eq_singleton_iff.2 ⟨before, line, after, hlines, hline, hothers⟩
    have hread : ∀ line ∈ relevantLines text.toList, (ofLine? line).isSome := fun line hline =>
      isSome_ofLine?_iff.2 (hformat line hline)
    exact ⟨⟨s, _⟩, parse_eq_ok_iff.2 ⟨hne, hread, ofDeclarations_eq_ok_iff.2 ⟨hstart, rfl⟩⟩⟩

theorem says_of_parse (hg : parse text = .ok g) : Says (relevantLines text.toList) g := by
  obtain ⟨-, -, hg⟩ := parse_eq_ok_iff.1 hg
  obtain ⟨hstart, hproductions⟩ := ofDeclarations_eq_ok_iff.1 hg
  obtain ⟨before, line, after, hlines, hline, -⟩ := declaredStarts_eq_singleton_iff.1 hstart
  refine ⟨⟨line, by simp [hlines], hline⟩, fun a body => ?_⟩
  rw [has_iff, hproductions, SortedSet.mem_ofList, mem_declaredProductions_iff]

/-- Reading is exact: the text is read, line by line or all at once, if and only if its relevant
lines are accepted, the grammar that is read is the one that the lines say, and the order of the
lines does not matter. -/
theorem parse_exact (text : String) :
    parse text = parseWhole text ∧
      ((∃ g, parse text = .ok g) ↔ Accepted (relevantLines text.toList)) ∧
      (∀ g, parse text = .ok g → Says (relevantLines text.toList) g) ∧
      ∀ text' : String, (relevantLines text.toList).Perm (relevantLines text'.toList) →
        parse text' = parse text :=
  ⟨parse_eq_parseWhole text, exists_parse_iff, fun _ => says_of_parse,
    fun _ hperm => (parse_eq_of_perm hperm).symm⟩

/-- A text with comments, both arrows, marks and bodies that look like declarations. -/
def annotated : String := "# arrows\n S -> a->S | _\r\n\tstart: S # here\n\nS→ε b _|start:\n"

/-- The same lines in another order. -/
def shuffled : String := "start: S\nS→ε b _|start:\nS -> a->S | _"

/-- The grammar that both say. -/
def arrows : Grammar :=
  ⟨'S', .ofList [⟨'S', []⟩, ⟨'S', "a->S".toList⟩, ⟨'S', ['b']⟩, ⟨'S', "start:".toList⟩]⟩

theorem parse_annotated :
    parse annotated = .ok arrows ∧ parseWhole annotated = .ok arrows ∧
      parse shuffled = .ok arrows ∧ Accepted (relevantLines annotated.toList) ∧
      Says (relevantLines annotated.toList) arrows := by
  have hread : parse annotated = .ok arrows := by decide +kernel
  have hperm : (relevantLines annotated.toList).Perm (relevantLines shuffled.toList) := by
    decide +kernel
  obtain ⟨hwhole, haccepted, hsays, horder⟩ := parse_exact annotated
  exact ⟨hread, hwhole ▸ hread, (horder shuffled hperm).trans hread, haccepted.1 ⟨arrows, hread⟩,
    hsays arrows hread⟩

end ContextFree.Grammar
