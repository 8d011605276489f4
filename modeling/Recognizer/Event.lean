/-
# What happened while an automaton was built

An event reports one finished operation with the size of its result, or one discovered state of a
deterministic automaton.  Events are written as lines that start with how much they matter.
-/
import Recognizer.State.Set
import Recognizer.Symbol.Spelling

namespace Recognizer

/-- Something that happened while an automaton over the symbols `α` was built.  Sizes are numbers of
states and of transitions. -/
inductive Event (α : Type) where
  | concatenation (states transitions : Nat)
  | alternation (states transitions : Nat)
  | star (states transitions : Nat)
  /-- `copies` transitions on `symbol` were replaced. -/
  | expansion (copies : Nat) (symbol : α) (states transitions : Nat)
  /-- The state numbered `number` was found to stand for `subset`. -/
  | discovery (number : Nat) (subset : StateSet)
  /-- An automaton with `sourceStates` states was made deterministic. -/
  | determinization (sourceStates states transitions : Nat)
  deriving DecidableEq

namespace Event

/-- How much an event matters. -/
inductive Level where
  | debug
  | trace
  deriving DecidableEq

/-- The name of a level, as it stands at the start of a line. -/
def Level.text : Level → String
  | debug => "DEBUG"
  | trace => "TRACE"

variable {α : Type}

/-- Discoveries are details; all else is the end of an operation. -/
def level : Event α → Level
  | discovery .. => .trace
  | _ => .debug

/-- The size of a result in words. -/
def sizes (states transitions : Nat) : String :=
  toString states ++ " states, " ++ toString transitions ++ " transitions"

variable [Spelling α]

/-- The text of an event. -/
def message : Event α → String
  | concatenation states transitions => "concatenation: " ++ sizes states transitions
  | alternation states transitions => "alternation: " ++ sizes states transitions
  | star states transitions => "star: " ++ sizes states transitions
  | expansion copies symbol states transitions =>
    "expanded " ++ toString copies ++ " transitions on " ++ Spelling.quoted symbol ++ ": "
      ++ sizes states transitions
  | discovery number subset => "DFA state " ++ toString number ++ " = NFA states " ++ subset.text
  | determinization sourceStates states transitions =>
    "subset construction: " ++ toString sourceStates ++ " NFA states -> " ++ toString states
      ++ " DFA states, " ++ toString transitions ++ " transitions"

/-- The line of an event: its level and its text. -/
def line (e : Event α) : String := e.level.text ++ " " ++ e.message

end Event

end Recognizer
