/-!
# Colored console text

Text is written in one of five colors. A color other than the default one is switched on by an
escape sequence before the text, also if the text is empty. It is switched off after the text
only if the output is a terminal. Without colors there are no sequences at all.

A console has a current color, in which it writes unless another one is named. Colors are named
by their code; a code without a color may be set, but nothing can be written with it.
-/

namespace ContextFree

/-- A color of console text. -/
inductive Color where
  | default
  | green
  | red
  | yellow
  | cyan
deriving DecidableEq

namespace Color

/-- The color with a code. -/
def ofCode? : Int → Option Color
  | 0 => some default
  | 1 => some green
  | 2 => some red
  | 3 => some yellow
  | 4 => some cyan
  | _ => none

/-- The parameters of the sequence that switches a color on. The default color needs none. -/
def parameters? : Color → Option String
  | default => none
  | green => some "32"
  | red => some "31"
  | yellow => some "33"
  | cyan => some "36;1"

end Color

/-- How text is put out. -/
structure Style where
  /-- Whether colors are used. -/
  colored : Bool
  /-- Whether the output is a terminal. -/
  terminal : Bool

namespace Style

/-- The escape sequence with the given parameters. -/
def sequence (parameters : String) : String := "\x1b[" ++ parameters ++ "m"

/-- A text in a color. -/
def paint (style : Style) (color : Color) (text : String) : String :=
  match color.parameters? with
  | none => text
  | some parameters =>
    if style.colored then
      sequence parameters ++ text ++ (if style.terminal then sequence "0" else "")
    else text

end Style

/-- A piece of text in one color. -/
structure Span where
  /-- Its color. -/
  color : Color
  /-- Its text. -/
  text : String
deriving DecidableEq

namespace Span

/-- Text in the default color. -/
def plain (text : String) : Span := ⟨.default, text⟩

/-- The end of a line. It is never colored. -/
def lineBreak : Span := plain "\n"

end Span

/-- The text of a sequence of spans. -/
def Style.render (style : Style) (spans : List Span) : String :=
  String.join (spans.map fun span => style.paint span.color span.text)

/-! ## A console with a current color -/

/-- A call to a console. -/
inductive ConsoleCall where
  /-- Writes in the current color. -/
  | write (text : String)
  /-- Writes a line in the current color. -/
  | writeLine (text : String)
  /-- Sets the current color. -/
  | setColor (code : Int)
  /-- Makes the default color current. -/
  | resetColor
  /-- Writes in a given color. -/
  | writeColored (code : Int) (text : String)
  /-- Writes a line in a given color. -/
  | writeLineColored (code : Int) (text : String)

/-- A console that remembers a color. -/
structure Console where
  /-- How it puts out text. -/
  style : Style
  /-- The code of the current color. -/
  current : Int

namespace Console

/-- A console before any call. -/
def new (style : Style) : Console := ⟨style, 0⟩

/-- The text that is written for a color code, if there is such a color. -/
def written? (console : Console) (code : Int) (text : String) : Option String :=
  (Color.ofCode? code).map fun color => console.style.paint color text

/-- What a call writes, and the console after it. -/
def call? (console : Console) : ConsoleCall → Option (Console × String)
  | .write text => (console.written? console.current text).map (console, ·)
  | .writeLine text => (console.written? console.current text).map fun t => (console, t ++ "\n")
  | .setColor code => some ({ console with current := code }, "")
  | .resetColor => some ({ console with current := 0 }, "")
  | .writeColored code text => (console.written? code text).map (console, ·)
  | .writeLineColored code text => (console.written? code text).map fun t => (console, t ++ "\n")

/-- What a sequence of calls writes, one text per call, if every color it writes with exists. -/
def calls? (console : Console) : List ConsoleCall → Option (List String)
  | [] => some []
  | call :: calls => do
    let (console, text) ← console.call? call
    let texts ← console.calls? calls
    return text :: texts

end Console

end ContextFree
