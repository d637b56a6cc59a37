import Dataflow.Assoc
import Dataflow.Eval.Value

/-!
# Variables at run time

A frame for every block that is being run, the innermost first. A name means its innermost binding.
-/

namespace Dataflow

structure Env where
  /-- Each frame is ascending by name. -/
  frames : List (List (String × Value))
deriving Repr, Inhabited

namespace Env

/-- One empty frame. -/
def start : Env := ⟨[[]]⟩

/-- One frame that holds the given variables. -/
def ofCaptured (vars : List (String × Value)) : Env := ⟨[vars]⟩

def enter (e : Env) : Env := ⟨[] :: e.frames⟩

def leave (e : Env) : Env := ⟨e.frames.tail⟩

/-- The innermost binding of a name. -/
def find? (e : Env) (name : String) : Option Value :=
  e.frames.findSome? (Assoc.get? name)

/-- Binds a name in the innermost frame. -/
def add (e : Env) (name : String) (v : Value) : Env :=
  match e.frames with
  | [] => ⟨[[(name, v)]]⟩
  | frame :: rest => ⟨Assoc.insert name v frame :: rest⟩

/-- Binds names one after the other. -/
def addAll (e : Env) (vars : List (String × Value)) : Env :=
  vars.foldl (fun e v => e.add v.1 v.2) e

/-- Everything that can be seen. -/
def captured (e : Env) : List (String × Value) :=
  e.frames.foldr (fun frame outer => frame.foldl (fun vars v => Assoc.insert v.1 v.2 vars) outer) []

end Env

end Dataflow
