import Dataflow.Morphism.Build
import Dataflow.ReadError
import Dataflow.Symbol

/-!
# Faults of a drawn graph

`DraftError` is about the shape of a graph, `TypingError` about the meaning of its texts.
-/

namespace Dataflow

/-- A connection that does not fit the nodes. -/
inductive DraftError where
  | unknownNode (node : Nat)
  | noInput (node : Nat)
  | pinOutOfRange (node pin pins : Nat)
deriving DecidableEq, Repr

def DraftError.message : DraftError → String
  | .unknownNode node => s!"unknown node {node}"
  | .noInput node => s!"node {node} takes no input"
  | .pinOutOfRange node pin pins => s!"node {node} has {pins} output pin(s), pin {pin} requested"

/-- A fault of the slots that an intersection's inputs fill. -/
inductive SlotFault where
  | outOfRange (slot : Nat) (ty : Ty)
  | filledTwice (slot : Nat)
  | missing (filled arity : Nat)
deriving DecidableEq, Repr

def SlotFault.message : SlotFault → String
  | .outOfRange slot ty => "slot $" ++ toString slot ++ " out of range for " ++ ty.pretty
  | .filledTwice slot => "slot $" ++ toString slot ++ " filled twice"
  | .missing filled arity => s!"{filled} of {arity} slots filled"

inductive TypingError where
  | unresolvedType (name text : String)
  | unresolvedSymbol (name text : String)
  | wrongKind (name : String) (found : SymbolKind)
  | guardNotBoolean (text : String) (found : Ty)
  | mixedPositional (node : Nat)
  | badPosition (node : Nat) (fault : SlotFault)
  | morphism (text : String) (cause : BindError)
  | read (e : ReadError)
  | draft (e : DraftError)
deriving DecidableEq, Repr

def TypingError.message : TypingError → String
  | .unresolvedType name text => "unresolved type `" ++ name ++ "` in `" ++ text ++ "`"
  | .unresolvedSymbol name text => "unresolved symbol `" ++ name ++ "` in `" ++ text ++ "`"
  | .wrongKind name found => "unexpected " ++ found.name ++ " `" ++ name ++ "`"
  | .guardNotBoolean text found => "guard `" ++ text ++ "` yields " ++ found.pretty ++ ", not Bool"
  | .mixedPositional node => s!"node n{node} mixes positional and non-positional inputs"
  | .badPosition node fault => "node n" ++ toString node ++ ": " ++ fault.message
  | .morphism text cause => "in `" ++ text ++ "`: " ++ cause.message
  | .read e => e.text
  | .draft e => e.message

end Dataflow
