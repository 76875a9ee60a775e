import ContextFree.Proofs.Built
import ContextFree.Proofs.Text.Lines

/-!
# The format of lines

What a line may look like is said without reading it: a start line is `start:` and a nonterminal
(`Declaration.StartLine`), a rule line a nonterminal, an arrow and alternatives with bars between
them (`Declaration.RuleLine`), with gaps between these elements.

The main result is `ofLine?_eq_some_iff`: exactly the lines of this format are read, and they are
read as what they declare.
-/

namespace ContextFree

/-! ## Characters with a role of their own -/

namespace Declaration

lemma mem_alphabet_of_isAdmissible {s : Symbol} (hs : s.isAdmissible = true) :
    s ∈ Symbol.alphabet := by
  rw [Symbol.isAdmissible, Bool.or_eq_true, Symbol.isNonterminal_iff, Symbol.isTerminal_iff] at hs
  exact List.mem_append.2 hs

/-- No symbol is blank or a mark. -/
lemma plain_of_isAdmissible {s : Symbol} (hs : s.isAdmissible = true) :
    Text.isBlank s = false ∧ isMark s = false := by
  have hall : Symbol.alphabet.all (fun s => !Text.isBlank s && !isMark s) = true := by
    decide +kernel
  simpa using List.all_eq_true.1 hall s (mem_alphabet_of_isAdmissible hs)

lemma isBlank_of_isAdmissible {s : Symbol} (hs : s.isAdmissible = true) :
    Text.isBlank s = false :=
  (plain_of_isAdmissible hs).1

lemma isMark_of_isAdmissible {s : Symbol} (hs : s.isAdmissible = true) : isMark s = false :=
  (plain_of_isAdmissible hs).2

lemma isAdmissible_of_isNonterminal {s : Symbol} (hs : s.isNonterminal = true) :
    s.isAdmissible = true := by
  rw [Symbol.isAdmissible, hs, Bool.true_or]

lemma isBlank_of_isGap {c : Char} (hc : isGap c = true) : Text.isBlank c = true := by
  simp only [isGap, Bool.or_eq_true, beq_iff_eq] at hc
  rcases hc with (rfl | rfl) | rfl <;> rfl

lemma isGap_eq_false {c : Char} (hc : Text.isBlank c = false) : isGap c = false := by
  rw [← Bool.not_eq_true]
  intro hgap
  rw [isBlank_of_isGap hgap] at hc
  contradiction

lemma isBlank_of_isMark {c : Char} (hc : isMark c = true) : Text.isBlank c = false := by
  simp only [isMark, Bool.or_eq_true, beq_iff_eq] at hc
  rcases hc with rfl | rfl <;> rfl

/-! ## The format -/

/-- Spaces, tabs and carriage returns, or nothing. -/
def Gap (text : List Char) : Prop := ∀ c ∈ text, isGap c = true

instance (text : List Char) : Decidable (Gap text) :=
  decidable_of_iff (text.all isGap = true) List.all_eq_true

/-- A symbol, or a mark for nothing. -/
def isElement (c : Char) : Bool := Symbol.isAdmissible c || isMark c

/-- Symbols and marks, at least one of them, with gaps anywhere. -/
structure Alternative (text : List Char) : Prop where
  elements : ∀ c ∈ text, isGap c = true ∨ isElement c = true
  element : ∃ c ∈ text, isElement c = true

/-- The body of an alternative: gaps and marks are deleted. -/
def denoted (alternative : List Char) : Form :=
  alternative.filter fun c => !(isGap c || isMark c)

/-- The line is `start:` and a nonterminal. -/
structure StartLine (line : List Char) (s : Symbol) : Prop where
  symbol : s.isNonterminal = true
  text : ∃ gap gap', Gap gap ∧ Gap gap' ∧ line = "start:".toList ++ gap ++ s :: gap'

/-- The line is a nonterminal, an arrow in one piece and alternatives with bars between them. -/
structure RuleLine (line : List Char) (a : Symbol) (alternatives : List (List Char)) : Prop where
  head : a.isNonterminal = true
  nonempty : alternatives ≠ []
  alternative : ∀ alternative ∈ alternatives, Alternative alternative
  text : ∃ gap arrow, Gap gap ∧ (arrow = "->".toList ∨ arrow = "→".toList) ∧
    line = a :: (gap ++ arrow ++ Text.joinWith ['|'] alternatives)

/-- What the line declares. -/
def Declares (line : List Char) : Declaration → Prop
  | .start s => StartLine line s
  | .rule a bodies => ∃ alternatives, RuleLine line a alternatives ∧
      alternatives.map denoted = bodies

/-! ## Gaps -/

variable {line text gap rest alternative : List Char} {s a c : Symbol} {d : Declaration}

lemma isBlank_of_isElement (hc : isElement c = true) : Text.isBlank c = false := by
  rcases Bool.or_eq_true_iff.1 hc with hc | hc
  · exact isBlank_of_isAdmissible hc
  · exact isBlank_of_isMark hc

lemma isGap_of_isElement (hc : isElement c = true) : isGap c = false :=
  isGap_eq_false (isBlank_of_isElement hc)

/-- Before anything else, gaps are dropped. -/
lemma dropWhile_gap_append (hgap : Gap gap) (hc : isGap c = false) (rest : List Char) :
    (gap ++ c :: rest).dropWhile isGap = c :: rest := by
  rw [List.dropWhile_append_of_pos hgap, List.dropWhile_cons_of_neg (by simp [hc])]

lemma compact_append (text text' : List Char) :
    compact (text ++ text') = compact text ++ compact text' :=
  List.filter_append _ _

lemma compact_eq_nil_iff : compact text = [] ↔ Gap text := by
  simp [compact, Gap, List.filter_eq_nil_iff]

lemma compact_cons_of_not_gap (hc : isGap c = false) : compact (c :: text) = c :: compact text :=
  List.filter_cons_of_pos (by simp [hc])

/-- Around a single element there are only gaps. -/
lemma compact_eq_singleton_iff (hs : isGap s = false) :
    compact text = [s] ↔ ∃ gap gap', Gap gap ∧ Gap gap' ∧ text = gap ++ s :: gap' := by
  constructor
  · intro htext
    have hmem : s ∈ compact text := by simp [htext]
    obtain ⟨gap, gap', rfl⟩ := List.append_of_mem (List.mem_filter.1 hmem).1
    rw [compact_append, compact_cons_of_not_gap hs] at htext
    have hlength := congrArg List.length htext
    simp only [List.length_append, List.length_cons, List.length_nil] at hlength
    have hgap : compact gap = [] := List.eq_nil_of_length_eq_zero (by omega)
    have hgap' : compact gap' = [] := List.eq_nil_of_length_eq_zero (by omega)
    exact ⟨gap, gap', compact_eq_nil_iff.1 hgap, compact_eq_nil_iff.1 hgap', rfl⟩
  · rintro ⟨gap, gap', hgap, hgap', rfl⟩
    rw [compact_append, compact_cons_of_not_gap hs, compact_eq_nil_iff.2 hgap,
      compact_eq_nil_iff.2 hgap', List.nil_append]

/-! ## Reading a line -/

lemma dropPrefix?_eq_some_iff {word : List Char} :
    dropPrefix? word text = some rest ↔ text = word ++ rest := by
  fun_induction dropPrefix? word text with
  | case1 text => simp
  | case2 => simp
  | case3 d word text ih => simp [ih]
  | case4 c word d text hne => simp [Ne.symm hne]

theorem start?_eq_some_iff : start? line = some d ↔ ∃ s, d = .start s ∧ StartLine line s := by
  unfold start?
  constructor
  · intro hd
    split at hd
    · rename_i s hs
      obtain ⟨hn, hd⟩ := Option.ite_none_right_eq_some.1 hd
      obtain ⟨rest, hrest, hcompact⟩ := Option.map_eq_some_iff.1 hs
      have hgap := isGap_eq_false (isBlank_of_isAdmissible (isAdmissible_of_isNonterminal hn))
      obtain ⟨gap, gap', h, h', rfl⟩ := (compact_eq_singleton_iff hgap).1 hcompact
      refine ⟨s, (Option.some.inj hd).symm, hn, gap, gap', h, h', ?_⟩
      rw [dropPrefix?_eq_some_iff.1 hrest, List.append_assoc]
    · contradiction
  · rintro ⟨s, rfl, hn, gap, gap', hgap, hgap', rfl⟩
    have hs := isGap_eq_false (isBlank_of_isAdmissible (isAdmissible_of_isNonterminal hn))
    have hread : (dropPrefix? "start:".toList ("start:".toList ++ gap ++ s :: gap')).map compact =
        some [s] := by
      rw [List.append_assoc, dropPrefix?_eq_some_iff.2 rfl, Option.map_some,
        (compact_eq_singleton_iff hs).2 ⟨gap, gap', hgap, hgap', rfl⟩]
    rw [hread]
    exact if_pos hn

/-- An alternative is read as the body it denotes. -/
lemma body?_compact_eq_some_iff {body : Form} :
    body? (compact alternative) = some body ↔
      Alternative alternative ∧ denoted alternative = body := by
  have hall : (compact alternative).all isElement = true ↔
      ∀ c ∈ alternative, isGap c = true ∨ isElement c = true := by
    simp only [compact, List.all_eq_true, List.mem_filter, Bool.not_eq_true']
    refine forall_congr' fun c => ?_
    cases isGap c <;> simp
  have hsome : ¬compact alternative = [] ∧ (compact alternative).all isElement = true ↔
      Alternative alternative := by
    rw [hall]
    constructor
    · rintro ⟨hne, helements⟩
      obtain ⟨c, hc⟩ := List.exists_mem_of_ne_nil _ hne
      obtain ⟨hc, hgap⟩ := List.mem_filter.1 hc
      refine ⟨helements, c, hc, (helements c hc).resolve_left ?_⟩
      simpa using hgap
    · rintro ⟨helements, c, hc, helement⟩
      refine ⟨List.ne_nil_of_mem (List.mem_filter.2 ⟨hc, ?_⟩), helements⟩
      rw [isGap_of_isElement helement]
      rfl
  have hbody : (compact alternative).filter (fun c => !isMark c) = denoted alternative := by
    rw [compact, denoted, List.filter_filter]
    refine List.filter_congr fun c _ => ?_
    rw [Bool.not_or, Bool.and_comm]
  rw [body?, Option.ite_none_right_eq_some, ← hsome, Bool.and_eq_true, Bool.not_eq_true',
    List.isEmpty_eq_false_iff, hbody, Option.some.injEq]
  rfl

/-- The alternatives between bars are read as the bodies they denote. -/
lemma mapM_body?_eq_some_iff {bodies : List Form} :
    (Text.splitOn '|' (compact text)).mapM body? = some bodies ↔
      (∀ alternative ∈ Text.splitOn '|' text, Alternative alternative) ∧
        (Text.splitOn '|' text).map denoted = bodies := by
  have hsome : ∀ alternative, (body? (compact alternative)).isSome ↔ Alternative alternative := by
    intro alternative
    simp [Option.isSome_iff_exists, body?_compact_eq_some_iff]
  have hbar : (!isGap '|') = true := by decide
  have hsplit : Text.splitOn '|' (compact text) = (Text.splitOn '|' text).map compact :=
    Text.splitOn_filter hbar
  rw [hsplit, List.mapM_map, mapM_eq_some_iff]
  simp only [Function.comp_apply, hsome]
  refine and_congr_right fun hall => ?_
  have hread : ∀ alternative ∈ Text.splitOn '|' text,
      body? (compact alternative) = some (denoted alternative) := fun alternative hmem =>
    body?_compact_eq_some_iff.2 ⟨hall alternative hmem, rfl⟩
  rw [List.filterMap_congr hread, List.filterMap_eq_map']

lemma dropArrow?_eq_some_iff :
    dropArrow? text = some rest ↔
      ∃ arrow, (arrow = "->".toList ∨ arrow = "→".toList) ∧ text = arrow ++ rest := by
  rw [dropArrow?, Option.or_eq_some_iff, dropPrefix?_eq_some_iff]
  constructor
  · rintro (htext | ⟨-, htext⟩)
    · exact ⟨_, .inl rfl, htext⟩
    · exact ⟨_, .inr rfl, dropPrefix?_eq_some_iff.1 htext⟩
  · rintro ⟨arrow, rfl | rfl, rfl⟩
    · exact .inl rfl
    · exact .inr ⟨rfl, dropPrefix?_eq_some_iff.2 rfl⟩

/-- No bar is part of an alternative. -/
lemma Alternative.bar_not_mem (halternative : Alternative alternative) : '|' ∉ alternative := by
  intro hmem
  have hbar := halternative.elements '|' hmem
  revert hbar
  decide +kernel

theorem rule?_eq_some_iff :
    rule? line = some d ↔
      ∃ a alternatives, d = .rule a (alternatives.map denoted) ∧ RuleLine line a alternatives := by
  constructor
  · intro hd
    cases line with
    | nil => contradiction
    | cons a rest =>
      rw [rule?] at hd
      split at hd
      · rename_i ha
        obtain ⟨alternatives, harrow, hd⟩ := Option.bind_eq_some_iff.1 hd
        obtain ⟨bodies, hbodies, hd⟩ := Option.bind_eq_some_iff.1 hd
        obtain ⟨arrow, harrow, hrest⟩ := dropArrow?_eq_some_iff.1 harrow
        obtain ⟨hall, rfl⟩ := mapM_body?_eq_some_iff.1 hbodies
        refine ⟨a, _, (Option.some.inj hd).symm, ha, Text.splitOn_ne_nil _ _, hall,
          rest.takeWhile isGap, arrow, fun c hc => List.mem_takeWhile_imp hc, harrow, ?_⟩
        rw [Text.joinWith_splitOn, List.append_assoc, ← hrest, List.takeWhile_append_dropWhile]
      · contradiction
  · rintro ⟨a, alternatives, rfl, ha, hne, hall, gap, arrow, hgap, harrow, rfl⟩
    have hdrop : (gap ++ arrow ++ Text.joinWith ['|'] alternatives).dropWhile isGap =
        arrow ++ Text.joinWith ['|'] alternatives := by
      rw [List.append_assoc]
      rcases harrow with rfl | rfl
      · exact dropWhile_gap_append hgap (by decide) _
      · exact dropWhile_gap_append hgap (by decide) _
    have hsplit : Text.splitOn '|' (Text.joinWith ['|'] alternatives) = alternatives :=
      Text.splitOn_joinWith (fun alternative h => (hall alternative h).bar_not_mem) hne
    have hbodies : (Text.splitOn '|' (compact (Text.joinWith ['|'] alternatives))).mapM body? =
        some (alternatives.map denoted) := by
      rw [mapM_body?_eq_some_iff, hsplit]
      exact ⟨hall, rfl⟩
    rw [rule?, if_pos ha, hdrop, dropArrow?_eq_some_iff.2 ⟨arrow, harrow, rfl⟩]
    simp only [Option.bind_eq_bind, Option.bind_some]
    rw [hbodies]
    rfl

/-- A line can not be of both kinds: no nonterminal is the first letter of `start:`. -/
lemma RuleLine.start?_eq_none {alternatives : List (List Char)}
    (hline : RuleLine line a alternatives) : start? line = none := by
  rw [Option.eq_none_iff_forall_ne_some]
  intro d hd
  obtain ⟨s, -, -, gap, gap', -, -, hstart⟩ := start?_eq_some_iff.1 hd
  obtain ⟨_, _, -, -, hrule⟩ := hline.text
  rw [hrule] at hstart
  obtain rfl : a = 's' := (List.cons.inj hstart).1
  have hs := hline.head
  revert hs
  decide +kernel

/-- Exactly the lines of the format are read, as what they declare. -/
theorem ofLine?_eq_some_iff : ofLine? line = some d ↔ Declares line d := by
  rw [ofLine?, Option.or_eq_some_iff, start?_eq_some_iff, rule?_eq_some_iff]
  constructor
  · rintro (⟨s, rfl, hline⟩ | ⟨-, a, alternatives, rfl, hline⟩)
    · exact hline
    · exact ⟨alternatives, hline, rfl⟩
  · cases d with
    | start s => exact fun hline => .inl ⟨s, rfl, hline⟩
    | rule a bodies =>
      rintro ⟨alternatives, hline, rfl⟩
      exact .inr ⟨hline.start?_eq_none, a, alternatives, rfl, hline⟩

end Declaration

end ContextFree
