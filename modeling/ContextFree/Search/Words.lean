import ContextFree.Event
import ContextFree.Search.Explore

/-!
# Words and their derivations

What can be asked of the search: all words up to a length, the same with a derivation of each,
or a derivation of one given word. Chains are tracked only where derivations are asked for.
-/

namespace ContextFree

/-- The log and the result of a search, with the number of its questions whether to continue. -/
structure Searched (α : Type) extends Logged α where
  /-- How often the search asked whether to continue. -/
  checks : Nat
  /-- Whether it came to an end; if not, the result is what was found until then. -/
  ended : Bool

namespace Grammar

/-- The words of at most `limit` symbols, ordered by length and then lexicographically. -/
def words (g : Grammar) (limit : Option Nat) (cutoff : Cutoff) (rounds : Nat) :
    Searched (List Form) :=
  let outcome := (Space.ofGrammar g limit none).explore false cutoff rounds
  let words := outcome.found.map Node.form
  { events := ⟨.enumerate, .started⟩ :: words.map fun word => ⟨.enumerate, .found word none⟩
    value := Form.sortShortlex words
    checks := outcome.checks
    ended := outcome.ended }

/-- A derivation of every word of at most `limit` symbols, ordered by the number of forms and then
as they were found. -/
def derivations (g : Grammar) (limit : Option Nat) (cutoff : Cutoff) (rounds : Nat) :
    Searched (List Derivation) :=
  let outcome := (Space.ofGrammar g limit none).explore true cutoff rounds
  let found := outcome.found.map fun node => (node.form, node.chain.getD [])
  { events := ⟨.enumerate, .started⟩ ::
      found.map fun (word, chain) => ⟨.enumerate, .found word (some chain)⟩
    value := (found.map Prod.snd).mergeSort fun c d => decide (c.length ≤ d.length)
    checks := outcome.checks
    ended := outcome.ended }

/-- A derivation of a given word, if there is one. -/
def derive (g : Grammar) (word : Form) (cutoff : Cutoff) (rounds : Nat) :
    Searched (Option Derivation) :=
  let outcome := (Space.ofGrammar g (some word.length) (some word)).explore true cutoff rounds
  let chain := outcome.found.head?.map fun node => node.chain.getD []
  { events := ⟨.derive, .started⟩ ::
      (chain.map fun chain => ⟨.derive, .found word (some chain)⟩).toList
    value := chain
    checks := outcome.checks
    ended := outcome.ended }

end Grammar

end ContextFree
