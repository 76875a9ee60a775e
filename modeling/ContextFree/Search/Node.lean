import ContextFree.Derivation
import ContextFree.Erasure

/-!
# Nodes

A search comes to a form by moves, each of which replaces a symbol by a body with some of its
symbols left out. What it keeps of the way there is a node: the form and, if the search tracks
chains, the derivation that leads to the form. The derivation applies the productions of the grammar
itself, so a move is replayed: first the whole body is put in, then the symbols vanish that the move
leaves out.
-/

namespace ContextFree

/-- A replacement of one symbol: the form around it, and the marked body that replaces it. -/
structure Move where
  /-- What stands left of the symbol. -/
  left : Form
  /-- The body, with the symbols marked that are left out. -/
  marking : Marking
  /-- What stands right of the symbol. -/
  right : Form

/-- The forms a move passes: the whole body is put in, then the marked symbols vanish. -/
def Move.forms (erasers : List Production) (move : Move) : List Form :=
  (move.marking.origin :: Marking.passed erasers move.marking).map fun form =>
    move.left ++ form ++ move.right

/-- A form that a search has come to. -/
structure Node where
  /-- The form. -/
  form : Form
  /-- The derivation that leads to it, if chains are tracked. -/
  chain : Option Derivation
deriving DecidableEq

namespace Node

/-- The node of the start symbol. -/
def root (track : Bool) (start : Symbol) : Node :=
  ⟨[start], if track then some [[start]] else none⟩

/-- The node of the empty form, to which the start symbol vanishes. -/
def vanished (track : Bool) (erasers : List Production) (start : Symbol) : Node :=
  ⟨[], if track then some ([start] :: vanish erasers start) else none⟩

/-- The chain one move after a node. Moves are replayed only if chains are tracked. -/
def replay (track : Bool) (erasers : List Production) (node : Node) (move : Move) :
    Option Derivation :=
  if track then some (node.chain.getD [] ++ move.forms erasers) else none

end Node

end ContextFree
