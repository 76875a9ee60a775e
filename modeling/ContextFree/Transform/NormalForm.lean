import ContextFree.Transform.Binary
import ContextFree.Transform.Epsilon
import ContextFree.Transform.Isolate
import ContextFree.Transform.Unit
import ContextFree.Transform.Useless

/-!
# Reduced form and normal form

The reduced form of a grammar has no empty bodies but possibly one on the start symbol, no unit
productions and no useless nonterminals. The normal form has in addition only bodies of one
terminal or of two nonterminals: long bodies are split before the grammar is reduced, terminals
are isolated last, once no body has more than two symbols.
-/

namespace ContextFree

/-- Goes on with the result of a transformation that succeeds; a failure stays, with its log. -/
def Logged.andThenOk {ε α β : Type} (x : Logged (Except ε α)) (next : α → Logged (Except ε β)) :
    Logged (Except ε β) :=
  x.andThen fun
    | .ok a => next a
    | .error e => ⟨[], .error e⟩

namespace Grammar

/-- The reduced form of a grammar. -/
def simplify (g : Grammar) : Logged (Except Exhausted Grammar) :=
  g.eliminateEpsilon.andThenOk fun g =>
    ((g.eliminateUnits.andThen dropNonGenerating).andThen dropUnreachable).map .ok

/-- The normal form of a grammar. -/
def normalize (g : Grammar) : Logged (Except Exhausted Grammar) :=
  (g.binarize.andThenOk simplify).andThenOk isolateTerminals

end Grammar

/-- The transformations of grammars. -/
inductive Transformation where
  | dropNonGenerating
  | dropUnreachable
  | eliminateEpsilon
  | eliminateUnits
  | binarize
  | isolateTerminals
  | simplify
  | normalize
deriving DecidableEq

/-- Transforms a grammar. -/
def Transformation.run : Transformation → Grammar → Logged (Except Exhausted Grammar)
  | dropNonGenerating, g => g.dropNonGenerating.map .ok
  | dropUnreachable, g => g.dropUnreachable.map .ok
  | eliminateEpsilon, g => g.eliminateEpsilon
  | eliminateUnits, g => g.eliminateUnits.map .ok
  | binarize, g => g.binarize
  | isolateTerminals, g => g.isolateTerminals
  | simplify, g => g.simplify
  | normalize, g => g.normalize

end ContextFree
