import ContextFree.Narration
import ContextFree.Proofs.AdmissibleLog

/-!
# Colors do not change a narration

A narration in color differs from a plain one by the escape sequences that switch colors on and off.
Taking them out again (`withoutSequences`) gives the plain narration back: the main result is
`Run.narration_in_color`.

For this no text that is told may hold an escape character of its own, although brackets, digits,
semicolons and the letter `m` may well occur in it: they are terminals. Since a log names symbols of
the alphabets only, this is seen text by text (`Event.quiet_of_mem_spans`).

A narration is what a new console writes that is told of the events one after the other
(`Console.output?_new`).
-/

namespace ContextFree

variable {g : Grammar} {text : List Char} {style : Style}

/-! ## Taking sequences out -/

/-- The character that begins an escape sequence. -/
def escape : Char := '\x1b'

/-- The text without its escape sequences. A sequence begins with the escape character and a bracket
and reaches to the first `m` that follows. -/
def withoutSequences : List Char → List Char
  | [] => []
  | c :: text =>
    if c = escape ∧ text.head? = some '[' ∧ 'm' ∈ text then
      withoutSequences (text.dropWhile (· != 'm')).tail
    else c :: withoutSequences text
termination_by text => text.length
decreasing_by
  · have hle : (text.dropWhile (· != 'm')).length ≤ text.length := List.length_dropWhile_le _ _
    rw [List.length_tail, List.length_cons]
    omega
  · simp

/-- The text holds no escape character. -/
def Quiet (text : List Char) : Prop := escape ∉ text

instance (text : List Char) : Decidable (Quiet text) := inferInstanceAs (Decidable (escape ∉ text))

lemma quiet_nil : Quiet [] := List.not_mem_nil

lemma quiet_append_iff {text' : List Char} : Quiet (text ++ text') ↔ Quiet text ∧ Quiet text' := by
  unfold Quiet
  rw [List.mem_append, not_or]

lemma quiet_cons_iff {c : Char} : Quiet (c :: text) ↔ c ≠ escape ∧ Quiet text := by
  unfold Quiet
  rw [List.mem_cons, not_or, ne_comm]

lemma quiet_flatMap {α : Type} {l : List α} {f : α → List Char} (hf : ∀ a ∈ l, Quiet (f a)) :
    Quiet (l.flatMap f) := by
  intro hmem
  obtain ⟨a, ha, hmem⟩ := List.mem_flatMap.1 hmem
  exact hf a ha hmem

/-- A quiet text is left as it is. -/
lemma withoutSequences_append (htext : Quiet text) (rest : List Char) :
    withoutSequences (text ++ rest) = text ++ withoutSequences rest := by
  induction text with
  | nil => rfl
  | cons c text ih =>
    obtain ⟨hc, htext⟩ := quiet_cons_iff.1 htext
    rw [List.cons_append, withoutSequences, if_neg fun hsequence => hc hsequence.1, ih htext,
      List.cons_append]

/-- A sequence goes, whatever follows it. -/
lemma withoutSequences_sequence {parameters : String} (hparameters : 'm' ∉ parameters.toList)
    (rest : List Char) :
    withoutSequences ((Style.sequence parameters).toList ++ rest) = withoutSequences rest := by
  have hshape : (Style.sequence parameters).toList ++ rest =
      escape :: '[' :: (parameters.toList ++ 'm' :: rest) := by
    simp [Style.sequence, escape]
  have hdrop : ('[' :: (parameters.toList ++ 'm' :: rest)).dropWhile (· != 'm') = 'm' :: rest := by
    rw [List.dropWhile_cons_of_pos (by decide), List.dropWhile_append_of_pos]
    · rfl
    · intro c hc
      have hne : c ≠ 'm' := fun heq => hparameters (heq ▸ hc)
      simpa using hne
  rw [hshape, withoutSequences, if_pos ⟨rfl, rfl, by simp⟩, hdrop, List.tail_cons]

-- what only looks like a sequence stays, and so does one that has no end
example : withoutSequences "a\x1b[31m[31m\x1b[0m \x1b[3".toList = "a[31m \x1b[3".toList := by
  decide +kernel

/-! ## Rendering -/

namespace Style

lemma not_mem_parameters {color : Color} {parameters : String}
    (hcolor : color.parameters? = some parameters) : 'm' ∉ parameters.toList := by
  have hall : ∀ parameters ∈ color.parameters?, 'm' ∉ parameters.toList := by
    cases color <;> simp [Color.parameters?]
  exact hall parameters hcolor

lemma paint_plain (color : Color) (terminal : Bool) (text : String) :
    (⟨false, terminal⟩ : Style).paint color text = text := by
  unfold paint
  split
  · rfl
  · rfl

/-- The sequences around a painted text go, also if the text is empty. -/
lemma withoutSequences_paint {text : String} (htext : Quiet text.toList) (color : Color)
    (rest : List Char) :
    withoutSequences ((style.paint color text).toList ++ rest) =
      text.toList ++ withoutSequences rest := by
  unfold paint
  split
  · exact withoutSequences_append htext rest
  · rename_i parameters hparameters
    split
    · -- what follows the text is the sequence that resets the color, or nothing
      have hreset :
          withoutSequences ((if style.terminal then sequence "0" else "").toList ++ rest) =
            withoutSequences rest := by
        split
        · exact withoutSequences_sequence (by decide) rest
        · rfl
      rw [String.toList_append, String.toList_append, List.append_assoc, List.append_assoc,
        withoutSequences_sequence (not_mem_parameters hparameters), withoutSequences_append htext,
        hreset]
    · exact withoutSequences_append htext rest

lemma toList_render (style : Style) (spans : List Span) :
    (style.render spans).toList =
      spans.flatMap fun span => (style.paint span.color span.text).toList := by
  rw [render, String.toList_join, List.flatMap_map]

lemma render_append (style : Style) (spans spans' : List Span) :
    style.render (spans ++ spans') = style.render spans ++ style.render spans' := by
  rw [render, List.map_append, String.join_append]
  rfl

lemma render_span (style : Style) (span : Span) :
    style.render [span] = style.paint span.color span.text := by
  rw [render, List.map_singleton, String.join_cons, String.join_nil, String.append_empty]

lemma render_line (style : Style) (span : Span) :
    style.render [span, .lineBreak] = style.paint span.color span.text ++ "\n" := by
  show style.render ([span] ++ [.lineBreak]) = _
  rw [render_append, render_span, render_span]
  rfl

/-- Without its sequences a rendering is the plain one, provided that its texts are quiet. -/
theorem withoutSequences_render {spans : List Span}
    (hspans : ∀ span ∈ spans, Quiet span.text.toList) (terminal : Bool) :
    withoutSequences (style.render spans).toList =
      ((⟨false, terminal⟩ : Style).render spans).toList := by
  rw [toList_render, toList_render]
  induction spans with
  | nil => simp [withoutSequences]
  | cons span spans ih =>
    obtain ⟨hspan, hspans⟩ := List.forall_mem_cons.1 hspans
    rw [List.flatMap_cons, List.flatMap_cons, withoutSequences_paint hspan, ih hspans, paint_plain]

end Style

/-! ## Quiet texts -/

lemma ne_escape_of_isAdmissible {s : Symbol} (hs : s.isAdmissible = true) : s ≠ escape := by
  have hall : Symbol.alphabet.all (fun s => s != escape) = true := by decide +kernel
  simpa using List.all_eq_true.1 hall s (Declaration.mem_alphabet_of_isAdmissible hs)

lemma ne_escape_of_isNonterminal {s : Symbol} (hs : s.isNonterminal = true) : s ≠ escape :=
  ne_escape_of_isAdmissible (Declaration.isAdmissible_of_isNonterminal hs)

lemma quiet_toString {s : Symbol} (hs : s.isNonterminal = true) : Quiet s.toString.toList := by
  rw [Char.toString_eq_singleton, String.toList_singleton, quiet_cons_iff]
  exact ⟨ne_escape_of_isNonterminal hs, quiet_nil⟩

lemma Text.quiet_joinWith {separator : List Char} {parts : List (List Char)}
    (hseparator : Quiet separator) (hparts : ∀ part ∈ parts, Quiet part) :
    Quiet (joinWith separator parts) := by
  cases parts with
  | nil => exact quiet_nil
  | cons part parts =>
    obtain ⟨hpart, hparts⟩ := List.forall_mem_cons.1 hparts
    rw [joinWith_cons, quiet_append_iff]
    exact ⟨hpart, quiet_flatMap fun other hother =>
      quiet_append_iff.2 ⟨hseparator, hparts other hother⟩⟩

lemma Form.Admissible.quiet_shown {form : Form} (hform : Form.Admissible form) :
    Quiet (Form.shown form) := by
  cases form with
  | nil => decide
  | cons s form =>
    rw [Form.shown_cons]
    exact fun hmem => ne_escape_of_isAdmissible (hform escape hmem) rfl

lemma Production.Admissible.quiet_text {p : Production} (hp : p.Admissible) :
    Quiet p.text.toList := by
  rw [Production.text, String.toList_ofList, Production.shown, quiet_append_iff, quiet_cons_iff]
  exact ⟨⟨ne_escape_of_isNonterminal hp.1, by decide⟩, Form.Admissible.quiet_shown hp.2⟩

namespace Grammar

lemma Admissible.quiet_ruleLine (hg : g.Admissible) {a : Symbol} (ha : a ∈ g.heads) :
    Quiet (g.ruleLine a) := by
  obtain ⟨p, hp, rfl⟩ := mem_heads.1 ha
  rw [ruleLine, quiet_append_iff, quiet_cons_iff]
  refine ⟨⟨ne_escape_of_isNonterminal (hg.head p hp), by decide⟩, ?_⟩
  refine Text.quiet_joinWith (by decide) (List.forall_mem_map.2 fun body hbody => ?_)
  have hbody : Form.Admissible body := hg.body ⟨p.head, body⟩ (mem_bodies.1 hbody)
  exact hbody.quiet_shown

/-- The text of a well-formed grammar holds no escape character. -/
lemma Admissible.quiet_text (hg : g.Admissible) : Quiet g.text.toList := by
  rw [text, String.toList_ofList]
  refine quiet_flatMap fun line hline => quiet_append_iff.2 ⟨?_, by decide⟩
  rcases List.mem_cons.1 hline with rfl | hline
  · show Quiet ("start: ".toList ++ [g.start])
    rw [quiet_append_iff]
    exact ⟨by decide, quiet_cons_iff.2 ⟨ne_escape_of_isNonterminal hg.start, quiet_nil⟩⟩
  · obtain ⟨a, ha, rfl⟩ := List.mem_map.1 hline
    exact hg.quiet_ruleLine ha

end Grammar

lemma Derivation.quiet_text {chain : Derivation} (hchain : ∀ form ∈ chain, Form.Admissible form) :
    Quiet chain.text.toList := by
  rw [text, String.toList_ofList]
  exact Text.quiet_joinWith (by decide)
    (List.forall_mem_map.2 fun form hform => (hchain form hform).quiet_shown)

lemma SortedSet.quiet_text {symbols : SortedSet Symbol}
    (hsymbols : ∀ s ∈ symbols, s.isNonterminal = true) : Quiet symbols.text.toList := by
  rw [text, String.toList_ofList]
  refine Text.quiet_joinWith (by decide) (List.forall_mem_map.2 fun s hs => ?_)
  exact quiet_cons_iff.2 ⟨ne_escape_of_isNonterminal (hsymbols s hs), quiet_nil⟩

lemma SetName.Admissible.quiet_text {name : SetName} (hname : name.Admissible) :
    Quiet name.text.toList := by
  cases name with
  | unitClosure a =>
    show Quiet ("unit closure of " ++ a.toString).toList
    rw [String.toList_append, quiet_append_iff]
    exact ⟨by decide, quiet_toString hname⟩
  | _ => decide

lemma Stage.quiet_headline (stage : Stage) : Quiet stage.headline.toList := by
  cases stage <;> decide +kernel

/-- Whatever a log tells of, no text of its narration holds an escape character. -/
theorem Event.quiet_of_mem_spans {event : Event} (hevent : event.action.Admissible) :
    ∀ span ∈ event.spans, Quiet span.text.toList := by
  obtain ⟨stage, action⟩ := event
  have hbreak : Quiet Span.lineBreak.text.toList := by decide
  -- most events are told in a line of two parts
  have hline : ∀ span span' : Span, Quiet span.text.toList → Quiet span'.text.toList →
      ∀ part ∈ [span, span', .lineBreak], Quiet part.text.toList := by
    intro span span' hspan hspan'
    exact List.forall_mem_cons.2
      ⟨hspan, List.forall_mem_cons.2 ⟨hspan', List.forall_mem_singleton.2 hbreak⟩⟩
  cases action with
  | started =>
    exact List.forall_mem_cons.2 ⟨stage.quiet_headline, List.forall_mem_singleton.2 hbreak⟩
  | computed name symbols =>
    apply hline
    · show Quiet (name.text ++ ": ").toList
      rw [String.toList_append, quiet_append_iff]
      exact ⟨hevent.1.quiet_text, by decide⟩
    · split
      · show Quiet "none".toList
        decide
      · exact SortedSet.quiet_text hevent.2
  | removed p => exact hline _ _ (by decide) hevent.quiet_text
  | added p => exact hline _ _ (by decide) hevent.quiet_text
  | startChanged s => exact hline _ _ (by decide) (quiet_toString hevent)
  | unchanged => exact hline _ _ (by decide) hbreak
  | finished g =>
    refine List.forall_mem_cons.2 ⟨by decide, hline _ _ hbreak hevent.quiet_text⟩
  | found word chain =>
    refine List.forall_mem_cons.2 ⟨?_, List.forall_mem_singleton.2 hbreak⟩
    cases chain with
    | none =>
      show Quiet (Form.text word).toList
      rw [Form.text, String.toList_ofList]
      exact hevent.1.quiet_shown
    | some chain => exact Derivation.quiet_text (hevent.2 chain rfl)

/-- Without its sequences the narration of a log is the plain one. -/
theorem withoutSequences_narrate {events : List Event} (hevents : AdmissibleLog events)
    (terminal : Bool) :
    withoutSequences (narrate style events).toList =
      (narrate ⟨false, terminal⟩ events).toList := by
  refine Style.withoutSequences_render (fun span hspan => ?_) terminal
  obtain ⟨event, hevent, hspan⟩ := List.mem_flatMap.1 hspan
  exact event.quiet_of_mem_spans (hevents event hevent) span hspan

/-! ## Telling a console -/

/-- The code of a color. -/
def Color.code : Color → Int
  | default => 0
  | green => 1
  | red => 2
  | yellow => 3
  | cyan => 4

lemma Color.ofCode?_code (color : Color) : ofCode? color.code = some color := by
  cases color <;> rfl

/-- How a console is told of an event. -/
def Event.calls (event : Event) : List ConsoleCall :=
  match event.action with
  | .started => [.writeLineColored Color.cyan.code event.stage.headline]
  | .computed name symbols =>
    [.write (name.text ++ ": "),
      if symbols.isEmpty then .writeLine "none"
      else .writeLineColored (if name.isUseless then Color.red else .green).code symbols.text]
  | .removed p => [.writeColored Color.red.code "- ", .writeLine p.text]
  | .added p => [.writeColored Color.yellow.code "+ ", .writeLine p.text]
  | .startChanged s => [.write "new start symbol: ", .writeLineColored Color.yellow.code s.toString]
  | .unchanged => [.writeLine "nothing to do", .writeLine ""]
  | .finished g => [.writeLine "result:", .writeLine g.text]
  | .found word chain =>
    [.writeLineColored Color.green.code ((chain.map Derivation.text).getD (Form.text word))]

namespace Console

/-- All that a console writes for a sequence of calls, if the colors it writes with exist. -/
def output? (console : Console) (calls : List ConsoleCall) : Option String :=
  (console.calls? calls).map String.join

lemma output?_cons {console console' : Console} {call : ConsoleCall} {text : String}
    (hcall : console.call? call = some (console', text)) (calls : List ConsoleCall) :
    console.output? (call :: calls) = (console'.output? calls).map (text ++ ·) := by
  unfold output?
  rw [calls?, hcall, Option.map_map]
  cases hrest : console'.calls? calls with
  | none => simp [hrest]
  | some texts => simp [hrest, String.join_cons]

/-- The calls write the spans to a console in its default color, whatever is called next, and leave
that color current. -/
def Renders (style : Style) (calls : List ConsoleCall) (spans : List Span) : Prop :=
  ∀ more, (new style).output? (calls ++ more) =
    ((new style).output? more).map (style.render spans ++ ·)

lemma Renders.append {calls calls' : List ConsoleCall} {spans spans' : List Span}
    (hcalls : Renders style calls spans) (hcalls' : Renders style calls' spans') :
    Renders style (calls ++ calls') (spans ++ spans') := by
  intro more
  rw [List.append_assoc, hcalls, hcalls', Option.map_map, Style.render_append]
  congr 1
  funext text
  exact String.append_assoc.symm

lemma Renders.congr {calls : List ConsoleCall} {spans spans' : List Span}
    (hcalls : Renders style calls spans) (heq : style.render spans = style.render spans') :
    Renders style calls spans' := by
  unfold Renders
  rw [← heq]
  exact hcalls

lemma renders_singleton {call : ConsoleCall} {spans : List Span}
    (hcall : (new style).call? call = some (new style, style.render spans)) :
    Renders style [call] spans :=
  output?_cons hcall

lemma renders_write (text : String) : Renders style [.write text] [.plain text] :=
  renders_singleton (by rw [Style.render_span]; rfl)

lemma renders_writeLine (text : String) :
    Renders style [.writeLine text] [.plain text, .lineBreak] :=
  renders_singleton (by rw [Style.render_line]; rfl)

lemma renders_writeColored (color : Color) (text : String) :
    Renders style [.writeColored color.code text] [⟨color, text⟩] := by
  apply renders_singleton
  rw [Style.render_span, call?, written?, Color.ofCode?_code]
  rfl

lemma renders_writeLineColored (color : Color) (text : String) :
    Renders style [.writeLineColored color.code text] [⟨color, text⟩, .lineBreak] := by
  apply renders_singleton
  rw [Style.render_line, call?, written?, Color.ofCode?_code]
  rfl

/-- A console that is told of an event writes what the event is told as. -/
lemma renders_event (style : Style) (event : Event) : Renders style event.calls event.spans := by
  obtain ⟨stage, action⟩ := event
  cases action with
  | started => exact renders_writeLineColored _ _
  | computed name symbols =>
    refine (renders_write (name.text ++ ": ")).append ?_
    split
    · exact renders_writeLine _
    · exact renders_writeLineColored _ _
  | removed p => exact (renders_writeColored _ _).append (renders_writeLine _)
  | added p => exact (renders_writeColored _ _).append (renders_writeLine _)
  | startChanged s => exact (renders_write _).append (renders_writeLineColored _ _)
  | unchanged =>
    -- the empty line is written as an empty text and a line break
    refine Renders.congr ((renders_writeLine _).append (renders_writeLine "")) ?_
    simp [Style.render, Span.plain, Style.paint, Color.parameters?, Event.spans]
  | finished g => exact (renders_writeLine _).append (renders_writeLine _)
  | found word chain => exact renders_writeLineColored _ _

lemma renders_events (style : Style) (events : List Event) :
    Renders style (events.flatMap Event.calls) (events.flatMap Event.spans) := by
  induction events with
  | nil =>
    intro more
    simp [Style.render]
  | cons event events ih => exact (renders_event style event).append ih

/-- A new console that is told of a log writes its narration. -/
theorem output?_new (style : Style) (events : List Event) :
    (new style).output? (events.flatMap Event.calls) = some (narrate style events) := by
  have hrenders := renders_events style events []
  rw [List.append_nil] at hrenders
  rw [hrenders]
  simp [output?, calls?, narrate]

end Console

/-! ## Narrations in color -/

/-- Whatever is done with a grammar that was built, and whether or not the output is a terminal:
watched by a new console, it is narrated with or without colors, and the narration in color without
its escape sequences is the plain one. -/
theorem Run.narration_in_color (hg : g.Built) (run : Run) (terminal : Bool) :
    (Console.new ⟨true, terminal⟩).output? ((run.events g).flatMap Event.calls) =
      some (narrate ⟨true, terminal⟩ (run.events g)) ∧
    (Console.new ⟨false, terminal⟩).output? ((run.events g).flatMap Event.calls) =
      some (narrate ⟨false, terminal⟩ (run.events g)) ∧
    withoutSequences (narrate ⟨true, terminal⟩ (run.events g)).toList =
      (narrate ⟨false, terminal⟩ (run.events g)).toList := by
  refine ⟨Console.output?_new _ _, Console.output?_new _ _, ?_⟩
  exact withoutSequences_narrate (run.admissible_events hg.admissible) terminal

/-- A grammar whose bodies look like what follows an escape character. -/
def bracketed : Grammar :=
  ⟨'S', .ofList [⟨'S', ['[', '3', '1', 'm', 'A']⟩, ⟨'A', ['[', '0', ';', 'm']⟩, ⟨'A', []⟩]⟩

theorem Run.narration_in_color_bracketed :
    bracketed.Built ∧
      (Console.new ⟨true, true⟩).output?
          (((Run.transform .normalize).events bracketed).flatMap Event.calls) =
        some (narrate ⟨true, true⟩ ((Run.transform .normalize).events bracketed)) ∧
      (Console.new ⟨false, true⟩).output?
          (((Run.transform .normalize).events bracketed).flatMap Event.calls) =
        some (narrate ⟨false, true⟩ ((Run.transform .normalize).events bracketed)) ∧
      withoutSequences (narrate ⟨true, true⟩ ((Run.transform .normalize).events bracketed)).toList =
        (narrate ⟨false, true⟩ ((Run.transform .normalize).events bracketed)).toList := by
  have hbuilt : bracketed.Built :=
    @Grammar.Built.rules _ 'S'
      [('A', [['[', '0', ';', 'm'], []]), ('S', [['[', '3', '1', 'm', 'A']])] (by decide +kernel)
  exact ⟨hbuilt, narration_in_color hbuilt (.transform .normalize) true⟩

end ContextFree
