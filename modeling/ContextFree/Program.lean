import ContextFree.Command
import ContextFree.Table.Framed

/-!
# The program

A command is called by its name, and what it writes is printed with framed tables.
-/

namespace ContextFree.Command

/-- Carries out the command with a name. -/
def runNamed (g : Grammar) (options : Options) (name : String) : Report String :=
  match ofName? name with
  | some command => (command.run g options).printed Table.framed
  | none => (Report.failed [] (.unknownCommand name)).printed Table.framed

end ContextFree.Command
