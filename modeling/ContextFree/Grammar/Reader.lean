import ContextFree.Grammar
import ContextFree.Text.Blank
import ContextFree.Text.Split

/-!
# Reading grammars

A grammar text is read line by line. A line is cut at `#`, blanks at its ends are dropped, and
empty lines do not count. Each remaining line declares the start symbol or gives bodies of a
nonterminal:

    start: S
    S -> aSb | _

Spaces, tabs and carriage returns may stand between the elements of a line, but not inside
`start:` and the arrow. The arrow is written `->` or `→`, and `_` or `ε` stands for nothing, so
that an alternative may be empty although it is not blank. Exactly one line declares the start
symbol. All lines are read before the start declarations are counted.
-/

namespace ContextFree

/-- Why a text is no grammar. -/
inductive ReadError where
  /-- No line is left after comments and blanks are dropped. -/
  | empty
  /-- A line is neither a start declaration nor a rule. -/
  | malformed
  /-- More than one line declares the start symbol. -/
  | startRepeated
  /-- No line declares the start symbol. -/
  | startMissing
deriving DecidableEq

/-- The message that reports the error; a malformed line is reported without one. -/
def ReadError.message? : ReadError → Option String
  | empty => some "empty grammar"
  | malformed => none
  | startRepeated => some "start symbol declared more than once"
  | startMissing => some "no start symbol declared"

/-- What a line of a grammar text says. -/
inductive Declaration where
  /-- The start symbol is declared. -/
  | start (s : Symbol)
  /-- A nonterminal is given bodies. -/
  | rule (head : Symbol) (bodies : List Form)
deriving DecidableEq

namespace Declaration

/-- The blanks that may stand between the elements of a line. -/
def isGap (c : Char) : Bool := c == ' ' || c == '\t' || c == '\r'

/-- The marks that stand for nothing in an alternative. -/
def isMark (c : Char) : Bool := c == '_' || c == Form.epsilon

/-- A text without its gaps. -/
def compact (text : List Char) : List Char := text.filter fun c => !isGap c

/-- The body that an alternative without gaps denotes. -/
def body? (alternative : List Char) : Option Form :=
  if !alternative.isEmpty && alternative.all fun c => Symbol.isAdmissible c || isMark c then
    some (alternative.filter fun c => !isMark c)
  else none

/-- What follows the given characters at the beginning of a text. -/
def dropPrefix? : List Char → List Char → Option (List Char)
  | [], text => some text
  | _ :: _, [] => none
  | c :: cs, d :: text => if c = d then dropPrefix? cs text else none

/-- What follows an arrow at the beginning of a text. -/
def dropArrow? (text : List Char) : Option (List Char) :=
  (dropPrefix? "->".toList text).or (dropPrefix? "→".toList text)

/-- Reads a start declaration. -/
def start? (line : List Char) : Option Declaration :=
  match (dropPrefix? "start:".toList line).map compact with
  | some [s] => if Symbol.isNonterminal s then some (.start s) else none
  | _ => none

/-- Reads a rule. -/
def rule? : List Char → Option Declaration
  | [] => none
  | a :: rest =>
    if Symbol.isNonterminal a then do
      let alternatives ← dropArrow? (rest.dropWhile isGap)
      let bodies ← (Text.splitOn '|' (compact alternatives)).mapM body?
      return .rule a bodies
    else none

/-- Reads a line. -/
def ofLine? (line : List Char) : Option Declaration := (start? line).or (rule? line)

end Declaration

namespace Grammar

/-- The lines of a text that count: cut at `#`, trimmed and not empty. -/
def relevantLines (text : List Char) : List (List Char) :=
  ((Text.splitOn '\n' text).map fun line => Text.trim (line.takeWhile (· != '#'))).filter
    fun line => !line.isEmpty

/-- The start symbols that are declared, in order. -/
def declaredStarts (declarations : List Declaration) : List Symbol :=
  declarations.filterMap fun
    | .start s => some s
    | .rule _ _ => none

/-- The productions that are given, in order. -/
def declaredProductions (declarations : List Declaration) : List Production :=
  declarations.flatMap fun
    | .start _ => []
    | .rule a bodies => bodies.map (Production.mk a)

/-- The grammar that a list of declarations makes. -/
def ofDeclarations (declarations : List Declaration) : Except ReadError Grammar :=
  match declaredStarts declarations with
  | [] => .error .startMissing
  | [start] => .ok { start, productions := .ofList (declaredProductions declarations) }
  | _ => .error .startRepeated

/-- Reads a grammar text. -/
def parse (text : String) : Except ReadError Grammar :=
  match relevantLines text.toList with
  | [] => .error .empty
  | lines =>
    match lines.mapM Declaration.ofLine? with
    | none => .error .malformed
    | some declarations => ofDeclarations declarations

end Grammar

end ContextFree
