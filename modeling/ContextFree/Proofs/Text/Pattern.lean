import ContextFree.Proofs.Text.Format
import Mathlib.Data.List.Forall2

/-!
# The format as a pattern over the whole text

The format of grammar texts can also be given as a pattern that is matched against the whole
text at once, from left to right: a choice takes the first pattern that matches, a repetition
takes as much as it can, and nothing that was taken is given back. Gaps are skipped before every
element, so it is not obvious that no pattern runs over the end of a line, or that a repetition
does not take what belongs to the next element.

The main result, `grammarText_unlines`, says that matching the text of tidy lines is the same as
reading the lines one by one. It rests on the format of lines: what the pattern of a declaration
takes is a line of the format (`declares_of_declaration`), and it takes every such line
(`declaration_of_declares`).
-/

namespace ContextFree

open Declaration

/-- A pattern takes what it matches from the beginning of a text and leaves the rest. -/
abbrev Pattern (α : Type) := StateT (List Char) Option α

namespace Pattern

variable {α β : Type} {text rest gap : List Char}

/-! ## Patterns -/

/-- One character of a kind, after gaps. -/
def one (kind : Char → Bool) : Pattern Char := fun text =>
  match text.dropWhile isGap with
  | [] => none
  | c :: rest => if kind c then some (c, rest) else none

/-- A word in one piece, after gaps. -/
def word (w : List Char) : Pattern Unit := fun text =>
  (dropPrefix? w (text.dropWhile isGap)).map fun rest => ((), rest)

/-- What a pattern takes again and again until it does not match, or takes nothing. -/
def repeated (p : Pattern α) (text : List Char) : List α × List Char :=
  match p text with
  | none => ([], text)
  | some (a, rest) =>
    if rest.length < text.length then (a :: (repeated p rest).1, (repeated p rest).2)
    else ([], text)
termination_by text.length

/-- A pattern as often as it matches. -/
def zeroOrMore (p : Pattern α) : Pattern (List α) := fun text => some (repeated p text)

/-- A pattern as often as it matches, but at least once. -/
def oneOrMore (p : Pattern α) : Pattern (List α) := do
  let a ← p
  let as ← zeroOrMore p
  return a :: as

/-- The end of the text, after gaps. -/
def endOfText : Pattern Unit := fun text =>
  if (text.dropWhile isGap).isEmpty then some ((), []) else none

/-! ## The pattern of a grammar text -/

/-- A symbol, or a mark, which stands for none. -/
def element : Pattern (Option Symbol) :=
  some <$> one Symbol.isTerminal <|> some <$> one Symbol.isNonterminal <|>
    (fun _ => none) <$> one isMark

/-- A body. -/
def expression : Pattern Form := do
  let elements ← oneOrMore element
  return elements.filterMap id

/-- A further body after a bar. -/
def furtherExpression : Pattern Form := do
  word ['|']
  expression

/-- The line that declares the start symbol. -/
def startDeclaration : Pattern Declaration := do
  word "start:".toList
  let s ← one Symbol.isNonterminal
  word ['\n']
  return .start s

/-- The line that gives bodies to a nonterminal. -/
def productionRule : Pattern Declaration := do
  let a ← one Symbol.isNonterminal
  word "→".toList <|> word "->".toList
  let body ← expression
  let bodies ← zeroOrMore furtherExpression
  word ['\n']
  return .rule a (body :: bodies)

/-- A line of either kind. -/
def declaration : Pattern Declaration := startDeclaration <|> productionRule

/-- A whole grammar text. -/
def grammarText : Pattern (List Declaration) := do
  let declarations ← oneOrMore declaration
  endOfText
  return declarations

/-! ## How patterns are put together -/

lemma bind_eq_some_iff {p : Pattern α} {next : α → Pattern β} {b : β} :
    (p >>= next) text = some (b, rest) ↔
      ∃ a middle, p text = some (a, middle) ∧ next a middle = some (b, rest) := by
  show (p text).bind (fun r => next r.1 r.2) = some (b, rest) ↔ _
  rw [Option.bind_eq_some_iff, Prod.exists]

lemma pure_eq_some_iff {a b : α} :
    (pure a : Pattern α) text = some (b, rest) ↔ a = b ∧ text = rest := by
  show some (a, text) = some (b, rest) ↔ _
  rw [Option.some.injEq, Prod.mk.injEq]

lemma map_apply (f : α → β) (p : Pattern α) (text : List Char) :
    (f <$> p) text = (p text).map fun r => (f r.1, r.2) := by
  show (p text).bind (fun r => some (f r.1, r.2)) = _
  rw [Option.map_eq_bind]
  rfl

lemma orElse_apply (p q : Pattern α) (text : List Char) :
    (p <|> q) text = (p text).or (q text) := by
  show (p text <|> q text) = _
  cases p text <;> rfl

lemma repeated_of_none {p : Pattern α} (hp : p text = none) : repeated p text = ([], text) := by
  rw [repeated, hp]

lemma repeated_of_some {p : Pattern α} {a : α} (hp : p text = some (a, rest))
    (hlt : rest.length < text.length) :
    repeated p text = (a :: (repeated p rest).1, (repeated p rest).2) := by
  rw [repeated, hp]
  exact if_pos hlt

/-- What is taken by a repetition falls into what is taken each time. -/
lemma exists_of_repeated {p : Pattern α} {R : List Char → α → Prop}
    (hp : ∀ text a rest, p text = some (a, rest) → ∃ taken, text = taken ++ rest ∧ R taken a)
    (text : List Char) :
    ∃ parts, text = parts.flatten ++ (repeated p text).2 ∧
      List.Forall₂ R parts (repeated p text).1 := by
  fun_induction repeated p text with
  | case1 text hnone => exact ⟨[], rfl, .nil⟩
  | case2 text a rest hsome hlt ih =>
    obtain ⟨taken, htext, htaken⟩ := hp text a rest hsome
    obtain ⟨parts, hrest, hparts⟩ := ih
    refine ⟨taken :: parts, ?_, .cons htaken hparts⟩
    rw [List.flatten_cons, List.append_assoc, ← hrest, ← htext]
  | case3 text a rest hsome hlt => exact ⟨[], rfl, .nil⟩

/-! ## Elements -/

lemma gap_nil : Gap [] := by decide

/-- A text is a gap, or something comes after a gap. -/
lemma gap_or_append (text : List Char) :
    Gap text ∨ ∃ gap c rest, Gap gap ∧ isGap c = false ∧ text = gap ++ c :: rest := by
  induction text with
  | nil => exact .inl gap_nil
  | cons c text ih =>
    cases hc : isGap c with
    | false => exact .inr ⟨[], c, text, gap_nil, hc, rfl⟩
    | true =>
      rcases ih with hgap | ⟨gap, d, rest, hgap, hd, rfl⟩
      · exact .inl (List.forall_mem_cons.2 ⟨hc, hgap⟩)
      · exact .inr ⟨c :: gap, d, rest, List.forall_mem_cons.2 ⟨hc, hgap⟩, hd, rfl⟩

lemma one_of_gap (kind : Char → Bool) (htext : Gap text) : one kind text = none := by
  rw [one, List.dropWhile_eq_nil_iff.2 htext]

lemma one_append (kind : Char → Bool) {c : Char} (hgap : Gap gap) (hc : isGap c = false) :
    one kind (gap ++ c :: rest) = if kind c then some (c, rest) else none := by
  rw [one, dropWhile_gap_append hgap hc]

lemma one_eq_some_iff {kind : Char → Bool} {c : Char}
    (hkind : ∀ c, kind c = true → isGap c = false) :
    one kind text = some (c, rest) ↔
      kind c = true ∧ ∃ gap, Gap gap ∧ text = gap ++ c :: rest := by
  constructor
  · intro hone
    rcases gap_or_append text with hgap | ⟨gap, d, rest', hgap, hd, rfl⟩
    · rw [one_of_gap kind hgap] at hone
      contradiction
    · rw [one_append kind hgap hd] at hone
      obtain ⟨hc, heq⟩ := Option.ite_none_right_eq_some.1 hone
      obtain ⟨rfl, rfl⟩ := Prod.mk.inj (Option.some.inj heq)
      exact ⟨hc, gap, hgap, rfl⟩
  · rintro ⟨hc, gap, hgap, rfl⟩
    rw [one_append kind hgap (hkind c hc), if_pos hc]

/-- A word that does not begin with a gap is found after gaps only. -/
lemma word_eq_some_iff {w : List Char} {u : Unit} (hw : w.head?.any (fun c => !isGap c) = true) :
    word w text = some (u, rest) ↔ ∃ gap, Gap gap ∧ text = gap ++ w ++ rest := by
  rw [word, Option.map_eq_some_iff]
  constructor
  · rintro ⟨rest', hdrop, heq⟩
    obtain rfl : rest' = rest := (Prod.mk.inj heq).2
    refine ⟨text.takeWhile isGap, fun x hx => List.mem_takeWhile_imp hx, ?_⟩
    rw [List.append_assoc, ← dropPrefix?_eq_some_iff.1 hdrop, List.takeWhile_append_dropWhile]
  · rintro ⟨gap, hgap, rfl⟩
    refine ⟨rest, ?_, rfl⟩
    cases w with
    | nil => contradiction
    | cons c w =>
      have hc : isGap c = false := by simpa using hw
      rw [List.append_assoc, List.cons_append, dropWhile_gap_append hgap hc]
      exact dropPrefix?_eq_some_iff.2 rfl

/-- A word is not found where something else begins. -/
lemma word_of_ne {w : List Char} {c : Char} (hw : w.head?.any (· != c) = true) (hgap : Gap gap)
    (hc : isGap c = false) : word w (gap ++ c :: rest) = none := by
  cases w with
  | nil => contradiction
  | cons d w =>
    have hne : d ≠ c := by simpa using hw
    rw [word, dropWhile_gap_append hgap hc, dropPrefix?, if_neg hne, Option.map_none]

lemma isGap_of_isNonterminal {s : Symbol} (hs : s.isNonterminal = true) : isGap s = false :=
  isGap_eq_false (isBlank_of_isAdmissible (isAdmissible_of_isNonterminal hs))

/-- The symbol that an element stands for. -/
def symbolOf (c : Char) : Option Symbol := if isMark c then none else some c

/-- Of the three kinds of elements, at most one matches. -/
lemma element_append {c : Char} (hgap : Gap gap) (hc : isGap c = false) :
    element (gap ++ c :: rest) = if isElement c then some (symbolOf c, rest) else none := by
  rw [element, orElse_apply, orElse_apply, map_apply, map_apply, map_apply,
    one_append _ hgap hc, one_append _ hgap hc, one_append _ hgap hc]
  by_cases hmark : isMark c = true
  · have hadmissible : Symbol.isAdmissible c = false := by
      rw [← Bool.not_eq_true]
      intro hadmissible
      rw [isMark_of_isAdmissible hadmissible] at hmark
      contradiction
    obtain ⟨hn, ht⟩ := Bool.or_eq_false_iff.1 hadmissible
    simp [hn, ht, hmark, isElement, symbolOf]
  · by_cases ht : Symbol.isTerminal c = true
    · simp [ht, hmark, isElement, symbolOf, Symbol.isAdmissible]
    · by_cases hn : Symbol.isNonterminal c = true
      · simp [ht, hn, hmark, isElement, symbolOf, Symbol.isAdmissible]
      · simp [ht, hn, hmark, isElement, Symbol.isAdmissible]

lemma element_eq_some_iff {e : Option Symbol} :
    element text = some (e, rest) ↔ ∃ c, e = symbolOf c ∧ isElement c = true ∧
      ∃ gap, Gap gap ∧ text = gap ++ c :: rest := by
  constructor
  · intro he
    rcases gap_or_append text with hgap | ⟨gap, c, rest', hgap, hc, rfl⟩
    · rw [element, orElse_apply, orElse_apply, map_apply, map_apply, map_apply,
        one_of_gap _ hgap, one_of_gap _ hgap, one_of_gap _ hgap] at he
      contradiction
    · rw [element_append hgap hc] at he
      obtain ⟨hc, heq⟩ := Option.ite_none_right_eq_some.1 he
      obtain ⟨rfl, rfl⟩ := Prod.mk.inj (Option.some.inj heq)
      exact ⟨c, rfl, hc, gap, hgap, rfl⟩
  · rintro ⟨c, rfl, hc, gap, hgap, rfl⟩
    rw [element_append hgap (isGap_of_isElement hc), if_pos hc]

/-! ## Bodies -/

variable {alternative : List Char}

lemma denoted_append (u v : List Char) : denoted (u ++ v) = denoted u ++ denoted v :=
  List.filter_append _ _

lemma denoted_gap (hgap : Gap gap) : denoted gap = [] := by
  refine List.filter_eq_nil_iff.2 fun c hc => ?_
  simp [hgap c hc]

lemma denoted_cons_element {c : Char} (hc : isElement c = true) (rest : List Char) :
    denoted (c :: rest) = (symbolOf c).toList ++ denoted rest := by
  have hgap := isGap_of_isElement hc
  unfold symbolOf
  by_cases hmark : isMark c = true
  · simp [denoted, hgap, hmark]
  · simp [denoted, hgap, hmark]

/-- The gap and the element that are taken at a time. -/
def TakesElement (taken : List Char) (e : Option Symbol) : Prop :=
  ∃ gap c, Gap gap ∧ isElement c = true ∧ taken = gap ++ [c] ∧ e = symbolOf c

lemma takesElement_of_element (text : List Char) (e : Option Symbol) (rest : List Char)
    (he : element text = some (e, rest)) :
    ∃ taken, text = taken ++ rest ∧ TakesElement taken e := by
  obtain ⟨c, rfl, hc, gap, hgap, rfl⟩ := element_eq_some_iff.1 he
  exact ⟨gap ++ [c], by simp, gap, c, hgap, hc, rfl, rfl⟩

/-- A sequence of elements with their gaps has the symbols of the elements. -/
lemma of_takesElement {parts : List (List Char)} {es : List (Option Symbol)}
    (hparts : List.Forall₂ TakesElement parts es) :
    (∀ c ∈ parts.flatten, isGap c = true ∨ isElement c = true) ∧
      denoted parts.flatten = es.filterMap id := by
  induction hparts with
  | nil => exact ⟨by simp, rfl⟩
  | @cons taken e parts es htaken _ ih =>
    obtain ⟨gap, c, hgap, hc, rfl, rfl⟩ := htaken
    obtain ⟨hall, hdenoted⟩ := ih
    constructor
    · intro x hx
      rw [List.flatten_cons, List.mem_append, List.mem_append, List.mem_singleton] at hx
      rcases hx with (hx | rfl) | hx
      · exact .inl (hgap x hx)
      · exact .inr hc
      · exact hall x hx
    · rw [List.flatten_cons, List.append_assoc, denoted_append, denoted_gap hgap, List.nil_append,
        List.singleton_append, denoted_cons_element hc, hdenoted]
      cases hsymbol : symbolOf c <;> simp

/-- What a body pattern takes is an alternative. -/
lemma alternative_of_expression {body : Form} (hbody : expression text = some (body, rest)) :
    ∃ alternative, text = alternative ++ rest ∧ Alternative alternative ∧
      denoted alternative = body := by
  obtain ⟨es, _, hes, hpure⟩ := bind_eq_some_iff.1 hbody
  obtain ⟨rfl, rfl⟩ := pure_eq_some_iff.1 hpure
  obtain ⟨e, middle, he, hes⟩ := bind_eq_some_iff.1 hes
  obtain ⟨es', _, hes', hpure⟩ := bind_eq_some_iff.1 hes
  obtain ⟨rfl, rfl⟩ := pure_eq_some_iff.1 hpure
  obtain ⟨rfl, rfl⟩ := Prod.mk.inj (Option.some.inj hes')
  obtain ⟨first, rfl, hfirst⟩ := takesElement_of_element _ _ _ he
  obtain ⟨parts, hmiddle, hparts⟩ := exists_of_repeated takesElement_of_element middle
  obtain ⟨hall, hdenoted⟩ := of_takesElement (hparts.cons hfirst)
  obtain ⟨gap, c, -, hc, hfirst', -⟩ := hfirst
  refine ⟨(first :: parts).flatten, ?_, ⟨hall, c, ?_, hc⟩, hdenoted⟩
  · rw [List.flatten_cons, List.append_assoc, ← hmiddle]
  · rw [List.flatten_cons, hfirst']
    simp

/-! ## What the pattern of a declaration takes -/

/-- The gap, the bar and the alternative that are taken at a time. -/
def TakesFurther (taken : List Char) (body : Form) : Prop :=
  ∃ gap alternative, Gap gap ∧ Alternative alternative ∧ taken = gap ++ '|' :: alternative ∧
    denoted alternative = body

lemma takesFurther_of_furtherExpression (text : List Char) (body : Form) (rest : List Char)
    (hbody : furtherExpression text = some (body, rest)) :
    ∃ taken, text = taken ++ rest ∧ TakesFurther taken body := by
  obtain ⟨_, middle, hbar, hexpression⟩ := bind_eq_some_iff.1 hbody
  obtain ⟨gap, hgap, rfl⟩ := (word_eq_some_iff (by decide)).1 hbar
  obtain ⟨alternative, rfl, halternative, hdenoted⟩ := alternative_of_expression hexpression
  exact ⟨gap ++ '|' :: alternative, by simp, gap, alternative, hgap, halternative, rfl, hdenoted⟩

lemma alternative_append_gap (halternative : Alternative alternative) (hgap : Gap gap) :
    Alternative (alternative ++ gap) := by
  obtain ⟨hall, c, hc, helement⟩ := halternative
  refine ⟨fun x hx => ?_, c, List.mem_append_left gap hc, helement⟩
  rcases List.mem_append.1 hx with hx | hx
  · exact hall x hx
  · exact .inl (hgap x hx)

lemma denoted_append_gap (hgap : Gap gap) : denoted (alternative ++ gap) = denoted alternative := by
  rw [denoted_append, denoted_gap hgap, List.append_nil]

/-- A gap before a bar or before the end of the line belongs to the alternative before it. -/
lemma exists_alternatives {parts : List (List Char)} {bodies : List Form}
    (hparts : List.Forall₂ TakesFurther parts bodies) (halternative : Alternative alternative)
    (hgap : Gap gap) :
    ∃ alternatives, alternatives ≠ [] ∧ (∀ other ∈ alternatives, Declaration.Alternative other) ∧
      Text.joinWith ['|'] alternatives = alternative ++ parts.flatten ++ gap ∧
      alternatives.map denoted = denoted alternative :: bodies := by
  induction hparts generalizing alternative with
  | nil =>
    refine ⟨[alternative ++ gap], by simp, ?_, by simp [Text.joinWith], ?_⟩
    · simpa using alternative_append_gap halternative hgap
    · rw [List.map_singleton, denoted_append_gap hgap]
  | @cons taken body parts bodies htaken _ ih =>
    obtain ⟨gap', next, hgap', hnext, rfl, rfl⟩ := htaken
    obtain ⟨alternatives, hne, hall, hjoin, hdenoted⟩ := ih hnext
    refine ⟨(alternative ++ gap') :: alternatives, by simp, ?_, ?_, ?_⟩
    · exact List.forall_mem_cons.2 ⟨alternative_append_gap halternative hgap', hall⟩
    · rw [Text.joinWith_eq, List.intercalate_cons_of_ne_nil hne, ← Text.joinWith_eq, hjoin]
      simp
    · rw [List.map_cons, denoted_append_gap hgap', hdenoted]

lemma startLine_of_startDeclaration {d : Declaration}
    (hd : startDeclaration text = some (d, rest)) :
    ∃ gap line, Gap gap ∧ text = gap ++ line ++ '\n' :: rest ∧ Declares line d := by
  obtain ⟨_, text₁, hword, hd⟩ := bind_eq_some_iff.1 hd
  obtain ⟨s, text₂, hone, hd⟩ := bind_eq_some_iff.1 hd
  obtain ⟨_, text₃, hbreak, hd⟩ := bind_eq_some_iff.1 hd
  obtain ⟨rfl, rfl⟩ := pure_eq_some_iff.1 hd
  obtain ⟨gap, hgap, rfl⟩ := (word_eq_some_iff (by decide)).1 hword
  obtain ⟨hs, gap', hgap', rfl⟩ := (one_eq_some_iff fun _ => isGap_of_isNonterminal).1 hone
  obtain ⟨gap'', hgap'', rfl⟩ := (word_eq_some_iff (by decide)).1 hbreak
  refine ⟨gap, "start:".toList ++ gap' ++ s :: gap'', hgap, ?_, hs, gap', gap'', hgap', hgap'', rfl⟩
  simp only [List.append_assoc, List.cons_append, List.nil_append]

/-- The arrow is in one piece, written in either way. -/
lemma arrow_of_word {u : Unit}
    (harrow : (word "→".toList <|> word "->".toList) text = some (u, rest)) :
    ∃ gap arrow, Gap gap ∧ (arrow = "->".toList ∨ arrow = "→".toList) ∧
      text = gap ++ arrow ++ rest := by
  rw [orElse_apply, Option.or_eq_some_iff] at harrow
  rcases harrow with harrow | ⟨-, harrow⟩
  · obtain ⟨gap, hgap, htext⟩ := (word_eq_some_iff (by decide)).1 harrow
    exact ⟨gap, _, hgap, .inr rfl, htext⟩
  · obtain ⟨gap, hgap, htext⟩ := (word_eq_some_iff (by decide)).1 harrow
    exact ⟨gap, _, hgap, .inl rfl, htext⟩

lemma ruleLine_of_productionRule {d : Declaration}
    (hd : productionRule text = some (d, rest)) :
    ∃ gap line, Gap gap ∧ text = gap ++ line ++ '\n' :: rest ∧ Declares line d := by
  obtain ⟨a, text₁, hone, hd⟩ := bind_eq_some_iff.1 hd
  obtain ⟨_, text₂, hword, hd⟩ := bind_eq_some_iff.1 hd
  obtain ⟨body, text₃, hbody, hd⟩ := bind_eq_some_iff.1 hd
  obtain ⟨bodies, text₄, hbodies, hd⟩ := bind_eq_some_iff.1 hd
  obtain ⟨_, text₅, hbreak, hd⟩ := bind_eq_some_iff.1 hd
  obtain ⟨rfl, rfl⟩ := pure_eq_some_iff.1 hd
  obtain ⟨ha, gap, hgap, rfl⟩ := (one_eq_some_iff fun _ => isGap_of_isNonterminal).1 hone
  obtain ⟨gap', arrow, hgap', harrow, rfl⟩ := arrow_of_word hword
  obtain ⟨alternative, rfl, halternative, rfl⟩ := alternative_of_expression hbody
  obtain ⟨parts, htext₃, hparts⟩ := exists_of_repeated takesFurther_of_furtherExpression text₃
  obtain ⟨rfl, rfl⟩ := Prod.mk.inj (Option.some.inj hbodies)
  obtain ⟨gap'', hgap'', hrest⟩ := (word_eq_some_iff (by decide)).1 hbreak
  obtain ⟨alternatives, hne, hall, hjoin, hdenoted⟩ :=
    exists_alternatives hparts halternative hgap''
  refine ⟨gap, a :: (gap' ++ arrow ++ Text.joinWith ['|'] alternatives), hgap, ?_,
    alternatives, ⟨ha, hne, hall, gap', arrow, hgap', harrow, rfl⟩, hdenoted⟩
  rw [hjoin, htext₃, hrest]
  simp only [List.append_assoc, List.cons_append, List.nil_append]

/-- The pattern of a declaration takes a line of the format, with gaps before it and a line break
after it. -/
theorem declares_of_declaration {d : Declaration} (hd : declaration text = some (d, rest)) :
    ∃ gap line, Gap gap ∧ text = gap ++ line ++ '\n' :: rest ∧ Declares line d := by
  rw [declaration, orElse_apply, Option.or_eq_some_iff] at hd
  rcases hd with hd | ⟨-, hd⟩
  · exact startLine_of_startDeclaration hd
  · exact ruleLine_of_productionRule hd

/-! ## Lines that are taken -/

/-- The text begins with a character that ends an alternative. -/
def Closes (text : List Char) : Prop :=
  ∃ c rest, text = c :: rest ∧ isGap c = false ∧ isElement c = false

lemma element_of_closes (hgap : Gap gap) (hrest : Closes rest) : element (gap ++ rest) = none := by
  obtain ⟨c, rest, rfl, hc, helement⟩ := hrest
  rw [element_append hgap hc, helement]
  rfl

/-- Elements are taken up to the end of the alternative; gaps at its end are left. -/
lemma exists_repeated_element
    (halternative : ∀ c ∈ alternative, isGap c = true ∨ isElement c = true)
    (hrest : Closes rest) (hgap : Gap gap) :
    ∃ gap', Gap gap' ∧ repeated element (gap ++ alternative ++ rest) =
      ((alternative.filter isElement).map symbolOf, gap' ++ rest) := by
  induction alternative generalizing gap with
  | nil =>
    refine ⟨gap, hgap, ?_⟩
    rw [List.append_nil, repeated_of_none (element_of_closes hgap hrest)]
    rfl
  | cons c alternative ih =>
    obtain ⟨hc, halternative⟩ := List.forall_mem_cons.1 halternative
    by_cases helement : isElement c = true
    · obtain ⟨gap', hgap', hrepeated⟩ := ih halternative gap_nil
      have htaken : element (gap ++ c :: alternative ++ rest) =
          some (symbolOf c, alternative ++ rest) :=
        element_eq_some_iff.2 ⟨c, rfl, helement, gap, hgap, by simp⟩
      refine ⟨gap', hgap', ?_⟩
      rw [repeated_of_some htaken (by simp; omega), List.filter_cons_of_pos helement, List.map_cons]
      rw [List.nil_append] at hrepeated
      rw [hrepeated]
    · -- a gap is skipped together with the gaps before it
      have hgapc : Gap (gap ++ [c]) := by
        intro x hx
        rcases List.mem_append.1 hx with hx | hx
        · exact hgap x hx
        · rw [List.mem_singleton.1 hx]
          exact hc.resolve_right helement
      obtain ⟨gap', hgap', hrepeated⟩ := ih halternative hgapc
      refine ⟨gap', hgap', ?_⟩
      rw [List.filter_cons_of_neg helement, ← hrepeated, ← List.append_cons]

lemma filterMap_symbolOf (halternative : ∀ c ∈ alternative, isGap c = true ∨ isElement c = true) :
    ((alternative.filter isElement).map symbolOf).filterMap id = denoted alternative := by
  induction alternative with
  | nil => rfl
  | cons c alternative ih =>
    obtain ⟨hc, halternative⟩ := List.forall_mem_cons.1 halternative
    by_cases helement : isElement c = true
    · rw [denoted_cons_element helement, List.filter_cons_of_pos helement, ← ih halternative]
      cases hsymbol : symbolOf c <;> simp [hsymbol]
    · have hgap : isGap c = true := hc.resolve_right helement
      rw [List.filter_cons_of_neg helement, ih halternative, denoted, denoted,
        List.filter_cons_of_neg (by simp [hgap])]

/-- A repetition that takes something can be required to take something. -/
lemma oneOrMore_of_repeated {p : Pattern α} {as : List α} (has : as ≠ [])
    (hrepeated : repeated p text = (as, rest)) : oneOrMore p text = some (as, rest) := by
  rw [repeated] at hrepeated
  split at hrepeated
  · exact absurd (Prod.mk.inj hrepeated).1.symm has
  · rename_i a middle ha
    split at hrepeated
    · obtain ⟨rfl, rfl⟩ := Prod.mk.inj hrepeated
      refine bind_eq_some_iff.2 ⟨a, middle, ha, bind_eq_some_iff.2 ⟨_, _, rfl, ?_⟩⟩
      exact pure_eq_some_iff.2 ⟨rfl, rfl⟩
    · exact absurd (Prod.mk.inj hrepeated).1.symm has

lemma repeated_of_oneOrMore {p : Pattern α} {as : List α}
    (hp : ∀ text a rest, p text = some (a, rest) → rest.length < text.length)
    (hsome : oneOrMore p text = some (as, rest)) : repeated p text = (as, rest) := by
  obtain ⟨a, middle, ha, hsome⟩ := bind_eq_some_iff.1 hsome
  obtain ⟨as', rest', has', hpure⟩ := bind_eq_some_iff.1 hsome
  obtain ⟨rfl, rfl⟩ := pure_eq_some_iff.1 hpure
  obtain ⟨rfl, rfl⟩ := Prod.mk.inj (Option.some.inj has')
  exact repeated_of_some ha (hp text a middle ha)

lemma exists_expression (halternative : Alternative alternative) (hrest : Closes rest) :
    ∃ gap, Gap gap ∧
      expression (alternative ++ rest) = some (denoted alternative, gap ++ rest) := by
  obtain ⟨hall, c, hc, helement⟩ := halternative
  obtain ⟨gap, hgap, hrepeated⟩ := exists_repeated_element hall hrest gap_nil
  have hne : (alternative.filter isElement).map symbolOf ≠ [] := by
    rw [Ne, List.map_eq_nil_iff]
    exact List.ne_nil_of_mem (List.mem_filter.2 ⟨hc, helement⟩)
  refine ⟨gap, hgap, bind_eq_some_iff.2 ⟨_, _, oneOrMore_of_repeated hne hrepeated, ?_⟩⟩
  exact pure_eq_some_iff.2 ⟨filterMap_symbolOf hall, rfl⟩

/-- After an alternative come a bar or the end of the line. -/
lemma closes_flatMap (alternatives : List (List Char)) (rest : List Char) :
    Closes (alternatives.flatMap (['|'] ++ ·) ++ '\n' :: rest) := by
  cases alternatives with
  | nil => exact ⟨'\n', rest, rfl, by decide, by decide +kernel⟩
  | cons alternative alternatives => exact ⟨'|', _, rfl, by decide, by decide +kernel⟩

/-- Further alternatives are taken up to the end of the line. -/
lemma exists_repeated_furtherExpression {alternatives : List (List Char)}
    (hall : ∀ other ∈ alternatives, Declaration.Alternative other) (hgap : Gap gap) :
    ∃ gap', Gap gap' ∧
      repeated furtherExpression (gap ++ (alternatives.flatMap (['|'] ++ ·) ++ '\n' :: rest)) =
        (alternatives.map denoted, gap' ++ '\n' :: rest) := by
  induction alternatives generalizing gap with
  | nil =>
    refine ⟨gap, hgap, repeated_of_none ?_⟩
    rw [Option.eq_none_iff_forall_ne_some]
    rintro ⟨body, rest'⟩ hbody
    obtain ⟨_, _, hbar, -⟩ := bind_eq_some_iff.1 hbody
    rw [List.flatMap_nil, List.nil_append, word_of_ne (by decide) hgap (by decide)] at hbar
    contradiction
  | cons alternative alternatives ih =>
    obtain ⟨halternative, hall⟩ := List.forall_mem_cons.1 hall
    obtain ⟨gap₁, hgap₁, hexpression⟩ :=
      exists_expression halternative (closes_flatMap alternatives rest)
    obtain ⟨gap₂, hgap₂, hrepeated⟩ := ih hall hgap₁
    have htaken : furtherExpression
        (gap ++ ((alternative :: alternatives).flatMap (['|'] ++ ·) ++ '\n' :: rest)) =
        some (denoted alternative,
          gap₁ ++ (alternatives.flatMap (['|'] ++ ·) ++ '\n' :: rest)) := by
      refine bind_eq_some_iff.2
        ⟨(), _, (word_eq_some_iff (by decide)).2 ⟨gap, hgap, ?_⟩, hexpression⟩
      simp only [List.flatMap_cons, List.append_assoc]
    -- what is left is part of what stands after the bar
    obtain ⟨taken, htext, -⟩ := alternative_of_expression hexpression
    have hlength := congrArg List.length htext
    refine ⟨gap₂, hgap₂, ?_⟩
    rw [repeated_of_some htaken, hrepeated, List.map_cons]
    rw [List.flatMap_cons]
    simp only [List.length_append, List.length_singleton] at hlength ⊢
    omega

lemma startDeclaration_of_startLine {line : List Char} {s : Symbol} (hline : StartLine line s) :
    startDeclaration (line ++ '\n' :: rest) = some (.start s, rest) := by
  obtain ⟨hs, gap, gap', hgap, hgap', rfl⟩ := hline
  refine bind_eq_some_iff.2 ⟨(), gap ++ s :: (gap' ++ '\n' :: rest),
    (word_eq_some_iff (by decide)).2 ⟨[], gap_nil, by simp⟩, ?_⟩
  refine bind_eq_some_iff.2 ⟨s, gap' ++ '\n' :: rest,
    (one_eq_some_iff fun _ => isGap_of_isNonterminal).2 ⟨hs, gap, hgap, rfl⟩, ?_⟩
  refine bind_eq_some_iff.2 ⟨(), rest, (word_eq_some_iff (by decide)).2 ⟨gap', hgap', by simp⟩, ?_⟩
  exact pure_eq_some_iff.2 ⟨rfl, rfl⟩

lemma word_of_arrow {arrow : List Char} (hgap : Gap gap)
    (harrow : arrow = "->".toList ∨ arrow = "→".toList) :
    (word "→".toList <|> word "->".toList) (gap ++ arrow ++ rest) = some ((), rest) := by
  rw [orElse_apply, Option.or_eq_some_iff]
  rcases harrow with rfl | rfl
  · refine .inr ⟨?_, (word_eq_some_iff (by decide)).2 ⟨gap, hgap, rfl⟩⟩
    rw [List.append_assoc]
    exact word_of_ne (by decide) hgap (by decide)
  · exact .inl ((word_eq_some_iff (by decide)).2 ⟨gap, hgap, rfl⟩)

lemma productionRule_of_ruleLine {line : List Char} {a : Symbol} {alternatives : List (List Char)}
    (hline : RuleLine line a alternatives) :
    productionRule (line ++ '\n' :: rest) = some (.rule a (alternatives.map denoted), rest) := by
  obtain ⟨ha, hne, hall, gap, arrow, hgap, harrow, rfl⟩ := hline
  cases alternatives with
  | nil => contradiction
  | cons alternative alternatives =>
    obtain ⟨halternative, hall⟩ := List.forall_mem_cons.1 hall
    obtain ⟨gap₁, hgap₁, hexpression⟩ :=
      exists_expression halternative (closes_flatMap alternatives rest)
    obtain ⟨gap₂, hgap₂, hrepeated⟩ := exists_repeated_furtherExpression hall hgap₁
    have htext : a :: (gap ++ arrow ++ Text.joinWith ['|'] (alternative :: alternatives)) ++
        '\n' :: rest = a :: (gap ++ arrow ++
          (alternative ++ (alternatives.flatMap (['|'] ++ ·) ++ '\n' :: rest))) := by
      rw [Text.joinWith_cons]
      simp only [List.append_assoc, List.cons_append]
    rw [htext]
    refine bind_eq_some_iff.2 ⟨a, _,
      (one_eq_some_iff fun _ => isGap_of_isNonterminal).2 ⟨ha, [], gap_nil, rfl⟩, ?_⟩
    refine bind_eq_some_iff.2 ⟨(), _, word_of_arrow hgap harrow, ?_⟩
    refine bind_eq_some_iff.2 ⟨_, _, hexpression, ?_⟩
    refine bind_eq_some_iff.2 ⟨_, _, congrArg some hrepeated, ?_⟩
    refine bind_eq_some_iff.2 ⟨(), rest,
      (word_eq_some_iff (by decide)).2 ⟨gap₂, hgap₂, by simp⟩, ?_⟩
    exact pure_eq_some_iff.2 ⟨rfl, rfl⟩

/-- Every line of the format is taken by the pattern of a declaration, as what it declares. -/
theorem declaration_of_declares {line : List Char} {d : Declaration} (hline : Declares line d) :
    declaration (line ++ '\n' :: rest) = some (d, rest) := by
  rw [declaration, orElse_apply, Option.or_eq_some_iff]
  cases d with
  | start s => exact .inl (startDeclaration_of_startLine hline)
  | rule a bodies =>
    obtain ⟨alternatives, hrule, rfl⟩ := hline
    refine .inr ⟨?_, productionRule_of_ruleLine hrule⟩
    -- a rule does not begin with the first letter of `start:`
    rw [Option.eq_none_iff_forall_ne_some]
    rintro ⟨d, rest'⟩ hd
    obtain ⟨_, _, hword, -⟩ := bind_eq_some_iff.1 hd
    obtain ⟨gap, arrow, -, -, rfl⟩ := hrule.text
    have hne : 's' ≠ a := by
      rintro rfl
      exact absurd hrule.head (by decide +kernel)
    have hnone : word "start:".toList
        (a :: (gap ++ arrow ++ Text.joinWith ['|'] alternatives) ++ '\n' :: rest) = none :=
      word_of_ne (w := "start:".toList) (c := a) (bne_iff_ne.2 hne) gap_nil
        (isGap_of_isNonterminal hrule.head)
    rw [hnone] at hword
    contradiction

/-! ## Line by line -/

variable {line : List Char} {d : Declaration}

lemma isElement_of_isNonterminal {s : Symbol} (hs : s.isNonterminal = true) :
    isElement s = true := by
  rw [isElement, isAdmissible_of_isNonterminal hs, Bool.true_or]

/-- The characters that a line of the format may have. -/
def isFormatting (c : Char) : Bool := isGap c || isElement c || c == '|' || c == '→'

lemma isFormatting_of_isGap {c : Char} (hc : isGap c = true) : isFormatting c = true := by
  simp [isFormatting, hc]

lemma isFormatting_of_isElement {c : Char} (hc : isElement c = true) : isFormatting c = true := by
  simp [isFormatting, hc]

lemma isFormatting_of_declares (hline : Declares line d) : ∀ c ∈ line, isFormatting c = true := by
  cases d with
  | start s =>
    obtain ⟨hs, gap, gap', hgap, hgap', rfl⟩ := hline
    rw [List.forall_mem_append, List.forall_mem_append, List.forall_mem_cons]
    refine ⟨⟨List.all_eq_true.1 (by decide +kernel), fun c hc => ?_⟩, ?_, fun c hc => ?_⟩
    · exact isFormatting_of_isGap (hgap c hc)
    · exact isFormatting_of_isElement (isElement_of_isNonterminal hs)
    · exact isFormatting_of_isGap (hgap' c hc)
  | rule a bodies =>
    obtain ⟨alternatives, ⟨ha, -, hall, gap, arrow, hgap, harrow, rfl⟩, -⟩ := hline
    rw [List.forall_mem_cons, List.forall_mem_append, List.forall_mem_append]
    refine ⟨?_, ⟨fun c hc => ?_, ?_⟩, fun c hc => ?_⟩
    · exact isFormatting_of_isElement (isElement_of_isNonterminal ha)
    · exact isFormatting_of_isGap (hgap c hc)
    · rcases harrow with rfl | rfl
      · exact List.all_eq_true.1 (by decide +kernel)
      · exact List.all_eq_true.1 (by decide +kernel)
    · rcases Text.mem_joinWith hc with rfl | ⟨alternative, halternative, hc⟩
      · decide +kernel
      · rcases (hall alternative halternative).elements c hc with hgap | helement
        · exact isFormatting_of_isGap hgap
        · exact isFormatting_of_isElement helement

/-- No line of the format runs over a line break or has a comment. -/
lemma not_mem_of_declares {c : Char} (hc : isFormatting c = false) (hline : Declares line d) :
    c ∉ line := by
  intro hmem
  rw [isFormatting_of_declares hline c hmem] at hc
  contradiction

lemma gap_eq_nil (hhead : ∀ c ∈ (gap ++ line).head?, Text.isBlank c = false) (hgap : Gap gap) :
    gap = [] := by
  cases gap with
  | nil => rfl
  | cons c gap =>
    have hblank := isBlank_of_isGap (hgap c (by simp))
    rw [hhead c rfl] at hblank
    contradiction

/-- In front of a tidy line, the pattern of a declaration takes what reading the line gives. -/
theorem declaration_append (hline : Grammar.Tidy line) (rest : List Char) :
    declaration (line ++ '\n' :: rest) = (ofLine? line).map fun d => (d, rest) := by
  cases hread : ofLine? line with
  | some d => exact declaration_of_declares (ofLine?_eq_some_iff.1 hread)
  | none =>
    rw [Option.map_none, Option.eq_none_iff_forall_ne_some]
    rintro ⟨d, rest'⟩ hd
    obtain ⟨gap, line', hgap, htext, hdeclares⟩ := declares_of_declaration hd
    have hunbroken : '\n' ∉ gap ++ line' := by
      rw [List.mem_append, not_or]
      refine ⟨fun hmem => ?_, not_mem_of_declares (by decide +kernel) hdeclares⟩
      exact absurd (hgap _ hmem) (by decide)
    obtain rfl := Text.eq_of_append_cons_eq hline.unbroken hunbroken htext
    rw [gap_eq_nil hline.head hgap, List.nil_append, ofLine?_eq_some_iff.2 hdeclares] at hread
    contradiction

lemma length_lt_of_declaration (text : List Char) (d : Declaration) (rest : List Char)
    (hd : declaration text = some (d, rest)) : rest.length < text.length := by
  obtain ⟨gap, line, -, rfl, -⟩ := declares_of_declaration hd
  simp only [List.length_append, List.length_cons]
  omega

/-- At a tidy line the text is not at its end. -/
lemma endOfText_append (hline : Grammar.Tidy line) : endOfText (line ++ '\n' :: rest) = none := by
  obtain ⟨c, line, rfl⟩ := List.exists_cons_of_ne_nil hline.ne_nil
  have hc : isGap c = false := isGap_eq_false (hline.head c rfl)
  rw [endOfText, List.cons_append, List.dropWhile_cons_of_neg (by simp [hc])]
  rfl

/-- The lines of a text are taken one after the other, until one is not of the format. -/
lemma exists_repeated_declaration {lines : List (List Char)}
    (hlines : ∀ line ∈ lines, Grammar.Tidy line) :
    ∃ before after declarations, lines = before ++ after ∧
      before.mapM ofLine? = some declarations ∧ (∀ line ∈ after.head?, ofLine? line = none) ∧
      repeated declaration (Grammar.unlines lines) = (declarations, Grammar.unlines after) := by
  induction lines with
  | nil => exact ⟨[], [], [], rfl, rfl, by simp, repeated_of_none rfl⟩
  | cons line lines ih =>
    obtain ⟨hline, hlines⟩ := List.forall_mem_cons.1 hlines
    have htaken := declaration_append hline (Grammar.unlines lines)
    cases hread : ofLine? line with
    | none =>
      rw [hread, Option.map_none, ← Grammar.unlines_cons] at htaken
      exact ⟨[], line :: lines, [], rfl, rfl, by simpa using hread, repeated_of_none htaken⟩
    | some d =>
      rw [hread, Option.map_some, ← Grammar.unlines_cons] at htaken
      obtain ⟨before, after, declarations, rfl, hbefore, hafter, hrepeated⟩ := ih hlines
      refine ⟨line :: before, after, d :: declarations, rfl, ?_, hafter, ?_⟩
      · rw [List.mapM_cons, hread, hbefore]
        rfl
      · rw [repeated_of_some htaken, hrepeated]
        rw [Grammar.unlines_cons]
        simp only [List.length_append, List.length_cons]
        omega

/-- Matching the whole text of some lines is the same as reading them one by one. -/
theorem grammarText_unlines {lines : List (List Char)} (hne : lines ≠ [])
    (hlines : ∀ line ∈ lines, Grammar.Tidy line) :
    grammarText (Grammar.unlines lines) = (lines.mapM ofLine?).map fun ds => (ds, []) := by
  obtain ⟨before, after, declarations, rfl, hbefore, hafter, hrepeated⟩ :=
    exists_repeated_declaration hlines
  cases after with
  | nil =>
    rw [List.append_nil] at hne hrepeated ⊢
    have hdeclarations : declarations ≠ [] := by
      rintro rfl
      obtain ⟨hall, hempty⟩ := mapM_eq_some_iff.1 hbefore
      obtain ⟨line, hline⟩ := List.exists_mem_of_ne_nil before hne
      obtain ⟨d, hd⟩ := Option.isSome_iff_exists.1 (hall line hline)
      exact List.not_mem_nil (hempty ▸ List.mem_filterMap.2 ⟨line, hline, hd⟩)
    rw [hbefore, Option.map_some]
    refine bind_eq_some_iff.2 ⟨_, _, oneOrMore_of_repeated hdeclarations hrepeated, ?_⟩
    exact bind_eq_some_iff.2 ⟨(), [], rfl, pure_eq_some_iff.2 ⟨rfl, rfl⟩⟩
  | cons line after =>
    have hline := hlines line (by simp)
    have hnone : (before ++ line :: after).mapM ofLine? = none := by
      refine mapM_eq_none_iff.2 fun hall => ?_
      have hsome := hall line (by simp)
      rw [hafter line rfl] at hsome
      contradiction
    rw [hnone, Option.map_none, Option.eq_none_iff_forall_ne_some]
    rintro ⟨ds, rest⟩ hds
    obtain ⟨ds', rest', hmore, hds⟩ := bind_eq_some_iff.1 hds
    obtain ⟨_, _, hend, -⟩ := bind_eq_some_iff.1 hds
    rw [repeated_of_oneOrMore length_lt_of_declaration hmore] at hrepeated
    rw [(Prod.mk.inj hrepeated).2, Grammar.unlines_cons, endOfText_append hline] at hend
    contradiction

end Pattern

end ContextFree
