import ContextFree.Grammar.Reader
import ContextFree.Program

/-!
# The command line

    contextfree [options] words|detailed|simplify|cnf|shortest
    contextfree [options] derive WORD

The options are `-g FILE` for the grammar file, `-o FILE` to save the result, `-l LIMIT` for the
greatest length of words (negative for none), `-q` to leave out the narration and `--no-color`.
-/

namespace ContextFree

/-- What is said on the command line. -/
structure Arguments where
  /-- The grammar file. -/
  grammar : String
  /-- The file to which the result is saved. -/
  output : Option String
  /-- The greatest length of words, negative for none. -/
  limit : Int
  /-- Whether the narration is left out. -/
  quiet : Bool
  /-- Whether colors are left out. -/
  noColor : Bool
  /-- The command and what follows it. -/
  words : List String

namespace Arguments

/-- What holds if nothing is said. -/
def initial : Arguments where
  grammar := "input.txt"
  output := none
  limit := 8
  quiet := false
  noColor := false
  words := []

/-- Reads the arguments one after the other. -/
def parse? (arguments : Arguments) : List String → Option Arguments
  | [] => some arguments
  | "-q" :: rest => parse? { arguments with quiet := true } rest
  | "--no-color" :: rest => parse? { arguments with noColor := true } rest
  | "-g" :: file :: rest => parse? { arguments with grammar := file } rest
  | "-o" :: file :: rest => parse? { arguments with output := some file } rest
  | "-l" :: limit :: rest =>
    match limit.toInt? with
    | some n => parse? { arguments with limit := n } rest
    | none => none
  | word :: rest => parse? { arguments with words := arguments.words ++ [word] } rest

/-- The options of the command. -/
def options (arguments : Arguments) (terminal : Bool) : Options where
  limit := if arguments.limit < 0 then none else some arguments.limit.toNat
  word := (arguments.words.drop 1).headD ""
  rounds := patience
  narrated := !arguments.quiet
  style := ⟨!arguments.noColor, terminal⟩
  destination := if arguments.output.isSome then .file else .nowhere

end Arguments

/-- Reads the grammar, carries out the command and saves its result. -/
def serveCommand (arguments : Arguments) (command : String) : IO UInt32 := do
  let stdout ← IO.getStdout
  match Grammar.parse (← IO.FS.readFile arguments.grammar) with
  | .error e =>
    IO.eprintln (arguments.grammar ++ ": " ++ e.message?.getD "malformed line")
    return 1
  | .ok g =>
    let report := Command.runNamed g (arguments.options (← stdout.isTty)) command
    stdout.putStr report.output
    match arguments.output, report.saved with
    | some file, some text => IO.FS.writeFile file text
    | _, _ => pure ()
    match report.failure with
    | none => return 0
    | some e =>
      IO.eprintln (e.message?.getD "the output can not be written")
      return 1

end ContextFree

/-- The entry point. -/
def main (args : List String) : IO UInt32 := do
  match ContextFree.Arguments.parse? .initial args with
  | some arguments =>
    match arguments.words with
    | command :: _ => ContextFree.serveCommand arguments command
    | [] =>
      IO.eprintln "no command given"
      return 2
  | none =>
    IO.eprintln "a limit is a whole number"
    return 2
