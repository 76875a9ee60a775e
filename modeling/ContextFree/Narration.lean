import ContextFree.Console
import ContextFree.Event
import ContextFree.Grammar.Printer

/-!
# Narration

Events are told as colored lines of text: titles of stages in cyan, what is useful or found in
green, what is useless or removed in red, and what is new in yellow.
-/

namespace ContextFree

/-- The upper-case form of the letters that occur in titles. -/
def upperCase (c : Char) : Char := if c = 'ε' then 'Ε' else c.toUpper

/-- The title of a stage as a headline. -/
def Stage.headline (stage : Stage) : String := String.ofList (stage.title.toList.map upperCase)

namespace SortedSet

/-- The text that shows a set of symbols. -/
def text (symbols : SortedSet Symbol) : String :=
  String.ofList (Text.joinWith [' '] (symbols.toList.map fun s => [s]))

end SortedSet

namespace Event

/-- What an event is told as. -/
def spans (event : Event) : List Span :=
  match event.action with
  | .started => [⟨.cyan, event.stage.headline⟩, .lineBreak]
  | .computed name symbols =>
    [.plain (name.text ++ ": "),
      if symbols.isEmpty then .plain "none"
      else ⟨if name.isUseless then .red else .green, symbols.text⟩,
      .lineBreak]
  | .removed p => [⟨.red, "- "⟩, .plain p.text, .lineBreak]
  | .added p => [⟨.yellow, "+ "⟩, .plain p.text, .lineBreak]
  | .startChanged s => [.plain "new start symbol: ", ⟨.yellow, s.toString⟩, .lineBreak]
  | .unchanged => [.plain "nothing to do", .lineBreak, .lineBreak]
  | .finished g => [.plain "result:", .lineBreak, .plain g.text, .lineBreak]
  | .found word chain =>
    [⟨.green, (chain.map Derivation.text).getD (Form.text word)⟩, .lineBreak]

end Event

/-- The narration of a log. -/
def narrate (style : Style) (events : List Event) : String :=
  style.render (events.flatMap Event.spans)

end ContextFree
