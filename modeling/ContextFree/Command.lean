import ContextFree.Narration
import ContextFree.Search.Shortest
import ContextFree.Table
import ContextFree.Text.Quoted
import ContextFree.Transform.NormalForm

/-!
# Commands

A command applies one of the algorithms to a grammar. What it writes is its narration, unless
that is not wanted, and then its result: a grammar or a table. The result can also be saved, as
the text of the grammar or with one line per row.
-/

namespace ContextFree

/-- What to do with a grammar. -/
inductive Command where
  /-- List the words. -/
  | words
  /-- List the words with their derivations. -/
  | detailed
  /-- Derive a word. -/
  | derive
  /-- Bring the grammar to its reduced form. -/
  | simplify
  /-- Bring the grammar to its normal form. -/
  | normalize
  /-- List the shortest words with their derivations. -/
  | shortest
deriving DecidableEq

/-- The command with a name. -/
def Command.ofName? : String → Option Command
  | "words" => some words
  | "detailed" => some detailed
  | "derive" => some derive
  | "simplify" => some simplify
  | "cnf" => some normalize
  | "shortest" => some shortest
  | _ => none

/-- Where the result is saved. -/
inductive Destination where
  /-- It is not saved. -/
  | nowhere
  /-- It is written to a file. -/
  | file
  /-- It is to be written to a file that can not be written. -/
  | unwritable
deriving DecidableEq

/-- What a command is told besides its grammar. -/
structure Options where
  /-- The greatest length of words, if it is bounded. -/
  limit : Option Nat
  /-- The word to derive; underscores in it stand for nothing. -/
  word : String
  /-- How many generations a search may take before it gives up. -/
  rounds : Nat
  /-- Whether the steps are told. -/
  narrated : Bool
  /-- How they are told. -/
  style : Style
  /-- Where the result is saved. -/
  destination : Destination

/-- Why a command fails. -/
inductive Failure where
  /-- No nonterminal is left. -/
  | exhausted (e : Exhausted)
  /-- The word is not in the language. -/
  | underivable (word : Form)
  /-- There is no such command. -/
  | unknownCommand (name : String)
  /-- The result can not be saved. -/
  | unwritable
deriving DecidableEq

/-- The message that reports a failure. That of a file is for the file system to give. -/
def Failure.message? : Failure → Option String
  | exhausted e => some e.message
  | underivable word => some (Text.quote (String.ofList word) ++ " can not be derived")
  | unknownCommand name => some ("unknown command " ++ Text.quote name)
  | unwritable => none

/-- The result of a command, as it is shown and as it is saved. -/
structure Document where
  /-- What is written to the output. -/
  shown : Written
  /-- What is written to a file. -/
  saved : String

namespace Document

/-- A text as a result. -/
def ofText (text : String) : Document := ⟨.text (text ++ "\n"), text⟩

/-- A numbered table, of whose rows the lines to be saved are given. -/
def ofRows (titles : List String) (rows : List (List String × String)) : Document where
  shown := .table
    { titles := "#" :: titles
      rows := rows.zipIdx.map fun ((cells, _), i) => toString (i + 1) :: cells }
  saved := String.join (rows.map fun (_, line) => line ++ "\n")

/-- The table of words. -/
def ofWords (words : List Form) : Document :=
  ofRows ["Word", "Length"] <| words.map fun word =>
    ([Form.text word, toString word.length], Form.text word)

/-- The table of derivations. -/
def ofDerivations (chains : List Derivation) : Document :=
  ofRows ["Word", "Derivation"] <| chains.map fun chain =>
    ([Form.text chain.word, chain.text], chain.text)

end Document

/-- What a command leaves behind. -/
structure Report (Output : Type) where
  /-- Everything written to the output. -/
  output : Output
  /-- The content of the file, if it was written. -/
  saved : Option String
  /-- Why the command failed, if it did. -/
  failure : Option Failure

namespace Report

/-- The report of a command that fails. -/
def failed (output : List Written) (failure : Failure) : Report (List Written) :=
  ⟨output, none, some failure⟩

/-- The report of a command that has a result, once that is saved. -/
def finished (destination : Destination) (output : List Written) (document : Document) :
    Report (List Written) :=
  let output := output ++ [document.shown]
  match destination with
  | .nowhere => ⟨output, none, none⟩
  | .file => ⟨output, some document.saved, none⟩
  | .unwritable => failed output .unwritable

/-- The report with the output as it is printed, given how tables are drawn. -/
def printed (report : Report (List Written)) (draw : Table → String) : Report String :=
  { report with output := String.join (report.output.map (Written.print draw)) }

end Report

/-- The narration of a log, if it is wanted. -/
def Options.narration (options : Options) (events : List Event) : String :=
  if options.narrated then narrate options.style events else ""

namespace Command

/-- The line that announces a search. -/
def searchNotice : String := "press Enter to cancel...\n"

/-- The report of a transformation of the grammar. -/
def transform (g : Grammar) (options : Options)
    (f : Grammar → Logged (Except Exhausted Grammar)) : Report (List Written) :=
  let result := f g
  let output := [.text ("initial grammar:\n" ++ g.text ++ "\n"),
    .text (options.narration result.events)]
  match result.value with
  | .error e => .failed output (.exhausted e)
  | .ok h => .finished options.destination output (.ofText h.text)

/-- The report of the shortest words: they are found in the normal form and derived in the grammar
itself. -/
def reportShortest (g : Grammar) (options : Options) : Report (List Written) :=
  let normal := g.normalize
  let output := [.text (options.narration normal.events)]
  match normal.value with
  | .error e => .failed output (.exhausted e)
  | .ok h =>
    let words := h.shortestWords .never options.rounds
    let chains := words.value.filterMap fun word => (g.derive word .never options.rounds).value
    let output := output ++ [.text searchNotice, .text (options.narration words.events)]
    .finished options.destination output <|
      if chains.isEmpty then .ofText "the language is empty\n" else .ofDerivations chains

/-- Carries out a command. -/
def run (g : Grammar) (options : Options) : Command → Report (List Written)
  | words =>
    let found := g.words options.limit .never options.rounds
    .finished options.destination
      [.text searchNotice, .text (options.narration found.events)] (.ofWords found.value)
  | detailed =>
    let found := g.derivations options.limit .never options.rounds
    .finished options.destination
      [.text searchNotice, .text (options.narration found.events)] (.ofDerivations found.value)
  | derive =>
    let word := options.word.toList.filter (· != '_')
    let found := g.derive word .never options.rounds
    let output := [.text searchNotice, .text (options.narration found.events)]
    match found.value with
    | none => .failed output (.underivable word)
    | some chain => .finished options.destination output (.ofDerivations [chain])
  | simplify => transform g options Grammar.simplify
  | normalize => transform g options Grammar.normalize
  | shortest => reportShortest g options

end Command

end ContextFree
