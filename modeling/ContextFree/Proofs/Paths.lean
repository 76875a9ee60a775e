import ContextFree.Form
import Mathlib.Data.Set.Card
import Mathlib.Data.Set.Finite.List
import Mathlib.Logic.Relation

/-!
# Paths among finitely many symbols

There are finitely many symbols, hence finitely many forms up to a length. The number of symbols to
which the paths of a relation lead (`extent`) never grows along a path, and it gets less where a
step can not be taken back (`extent_lt`). This is the measure for whatever ends because it can not
come back to a symbol.
-/

namespace ContextFree

instance : Finite Symbol :=
  .of_injective (fun s : Symbol => s.val.toFin) fun _ _ h => Char.ext (UInt32.toFin_inj.1 h)

lemma finite_length_le (limit : Nat) : {f : Form | f.length ≤ limit}.Finite :=
  List.finite_length_le Symbol limit

variable {r : Symbol → Symbol → Prop} {a b : Symbol}

/-- The number of symbols that paths reach from a symbol, itself included. -/
noncomputable def extent (r : Symbol → Symbol → Prop) (a : Symbol) : Nat :=
  Set.ncard {b | Relation.ReflTransGen r a b}

lemma extent_le (hab : r a b) : extent r b ≤ extent r a :=
  Set.ncard_le_ncard fun _ hpath => Relation.ReflTransGen.head hab hpath

lemma extent_lt (hab : r a b) (hback : ¬Relation.ReflTransGen r b a) :
    extent r b < extent r a := by
  refine Set.ncard_lt_ncard ⟨fun _ hpath => Relation.ReflTransGen.head hab hpath, fun hsub => ?_⟩
  -- a symbol reaches itself
  exact hback (hsub Relation.ReflTransGen.refl)

end ContextFree
