import ContextFree.Derivation

/-!
# Events

The algorithms tell what they do as a list of events, each belonging to a stage. Observing
never changes a result: an algorithm returns its value together with its log.
-/

namespace ContextFree

/-- The algorithm an event belongs to. -/
inductive Stage where
  | dropNonGenerating
  | dropUnreachable
  | eliminateEpsilon
  | eliminateUnits
  | binarize
  | isolateTerminals
  | enumerate
  | derive
  | shortest
deriving DecidableEq

/-- The title of a stage. -/
def Stage.title : Stage → String
  | dropNonGenerating => "remove non-generating nonterminals"
  | dropUnreachable => "remove unreachable nonterminals"
  | eliminateEpsilon => "remove ε-productions"
  | eliminateUnits => "remove unit productions"
  | binarize => "split long productions"
  | isolateTerminals => "isolate terminals"
  | enumerate => "make words"
  | derive => "derive word"
  | shortest => "find shortest words"

/-- A set of symbols that a stage computes. -/
inductive SetName where
  | generating
  | nonGenerating
  | reachable
  | unreachable
  | nullable
  | unitClosure (a : Symbol)
deriving DecidableEq

namespace SetName

/-- The name under which a set is shown. -/
def text : SetName → String
  | generating => "generating"
  | nonGenerating => "non-generating"
  | reachable => "reachable"
  | unreachable => "unreachable"
  | nullable => "nullable"
  | unitClosure a => "unit closure of " ++ a.toString

/-- Whether the members of the set are useless symbols. -/
def isUseless (name : SetName) : Bool := name = nonGenerating || name = unreachable

end SetName

/-- What happened. -/
inductive Action where
  /-- The stage begins. -/
  | started
  /-- A set of symbols was computed. -/
  | computed (name : SetName) (symbols : SortedSet Symbol)
  /-- A production was deleted. -/
  | removed (p : Production)
  /-- A production was added. -/
  | added (p : Production)
  /-- The grammar was given a new start symbol. -/
  | startChanged (s : Symbol)
  /-- The stage left the grammar as it was. -/
  | unchanged
  /-- The stage is complete and this is its result. -/
  | finished (g : Grammar)
  /-- A word was found, with its derivation if it was asked for. -/
  | found (word : Form) (chain : Option Derivation)
deriving DecidableEq

/-- A step of an algorithm. -/
structure Event where
  /-- The algorithm. -/
  stage : Stage
  /-- What it did. -/
  action : Action
deriving DecidableEq

/-- A value together with the log of how it was computed. -/
structure Logged (α : Type) where
  /-- What happened, in order. -/
  events : List Event
  /-- The result. -/
  value : α

namespace Logged

variable {α β : Type}

/-- Goes on with the result of one algorithm in another. -/
def andThen (x : Logged α) (next : α → Logged β) : Logged β :=
  let y := next x.value
  ⟨x.events ++ y.events, y.value⟩

/-- Changes the result and keeps the log. -/
def map (f : α → β) (x : Logged α) : Logged β := ⟨x.events, f x.value⟩

@[simp] theorem value_andThen (x : Logged α) (next : α → Logged β) :
    (x.andThen next).value = (next x.value).value := rfl

@[simp] theorem events_andThen (x : Logged α) (next : α → Logged β) :
    (x.andThen next).events = x.events ++ (next x.value).events := rfl

@[simp] theorem value_map (f : α → β) (x : Logged α) : (x.map f).value = f x.value := rfl

@[simp] theorem events_map (f : α → β) (x : Logged α) : (x.map f).events = x.events := rfl

end Logged

end ContextFree
