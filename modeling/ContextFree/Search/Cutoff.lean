/-!
# Cutting a search off

A search asks again and again whether to continue. The answer may turn to no after a number of
questions or after a number of words, and then it stays no. A search may also have no end, so
it is given a number of generations after which it gives up without an answer.
-/

namespace ContextFree

/-- When a search is told to stop. -/
structure Cutoff where
  /-- How many questions whether to continue are answered with yes, if that is bounded. -/
  checks : Option Nat
  /-- After how many words the search is told to stop, if ever. -/
  words : Option Nat

namespace Cutoff

/-- The cutoff that never stops a search. -/
def never : Cutoff := ⟨none, none⟩

/-- Whether to stop, after a number of earlier questions and with the words found so far. -/
def reached {α : Type} (cutoff : Cutoff) (checks : Nat) (found : List α) : Bool :=
  cutoff.checks.any (fun bound => decide (bound ≤ checks)) ||
    cutoff.words.any fun bound => decide (bound ≤ found.length)

@[simp] theorem reached_never {α : Type} (checks : Nat) (found : List α) :
    never.reached checks found = false := rfl

end Cutoff

/-- A number of generations that no search lives to see. -/
def patience : Nat := 0x4000000000000000

end ContextFree
