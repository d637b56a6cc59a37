import Dataflow.Assoc
import Dataflow.Ty.Basic

/-!
# Substitutions and matching

A pattern type matches a concrete type when a substitution of the pattern's variables gives the
concrete type. Only the pattern's variables are bound, and a variable that occurs twice must meet
the same type both times.
-/

namespace Dataflow

inductive MatchError where
  | mismatch (pattern concrete : Ty)
  | conflict (var : String) (bound found : Ty)
deriving DecidableEq, Repr

def MatchError.message : MatchError → String
  | .mismatch pattern concrete =>
    "type mismatch: expected " ++ pattern.pretty ++ ", found " ++ concrete.pretty
  | .conflict var bound found =>
    "type variable " ++ var ++ " already bound to " ++ bound.pretty ++ ", found " ++ found.pretty

/-- Types for variables, ascending by name. -/
structure Subst where
  entries : List (String × Ty)
deriving DecidableEq, Repr

namespace Subst

def empty : Subst := ⟨[]⟩

def get? (s : Subst) (x : String) : Option Ty :=
  Assoc.get? x s.entries

def size (s : Subst) : Nat := s.entries.length

mutual

/-- Puts the types in place of their variables. -/
def apply (s : Subst) : Ty → Ty
  | .atom a => .atom a
  | .var x => (s.get? x).getD (.var x)
  | .tuple ts => .tuple (applyList s ts)
  | .con name ts => .con name (applyList s ts)
  | .func a b => .func (apply s a) (apply s b)

def applyList (s : Subst) : List Ty → List Ty
  | [] => []
  | t :: ts => apply s t :: applyList s ts

end

/-- Records the type of a variable, which must agree with an earlier record. -/
def bind (s : Subst) (x : String) (t : Ty) : Except MatchError Subst :=
  match s.get? x with
  | none => .ok ⟨Assoc.insert x t s.entries⟩
  | some bound => if bound = t then .ok s else .error (.conflict x bound t)

/-- Records a list of bindings in order. -/
def bindAll (s : Subst) : List (String × Ty) → Except MatchError Subst
  | [] => .ok s
  | (x, t) :: rest =>
    match s.bind x t with
    | .ok s => bindAll s rest
    | .error e => .error e

/-- The union of two substitutions that agree. -/
def merge (s other : Subst) : Except MatchError Subst :=
  s.bindAll other.entries

end Subst

namespace Ty

mutual

/-- Extends a substitution until `pattern` becomes `concrete`. -/
def matchInto (s : Subst) : (pattern concrete : Ty) → Except MatchError Subst
  | .var x, c => s.bind x c
  | .atom a, c => if c = .atom a then .ok s else .error (.mismatch (.atom a) c)
  | .tuple ps, c =>
    match c with
    | .tuple cs =>
      if ps.length = cs.length then matchList s ps cs else .error (.mismatch (.tuple ps) (.tuple cs))
    | c => .error (.mismatch (.tuple ps) c)
  | .con n ps, c =>
    match c with
    | .con m cs =>
      if n = m ∧ ps.length = cs.length then matchList s ps cs
      else .error (.mismatch (.con n ps) (.con m cs))
    | c => .error (.mismatch (.con n ps) c)
  | .func p q, c =>
    match c with
    | .func a b =>
      match matchInto s p a with
      | .ok s => matchInto s q b
      | .error e => .error e
    | c => .error (.mismatch (.func p q) c)

/-- Matches two lists of the same length, pair by pair. -/
def matchList (s : Subst) : (patterns concretes : List Ty) → Except MatchError Subst
  | p :: ps, c :: cs =>
    match matchInto s p c with
    | .ok s => matchList s ps cs
    | .error e => .error e
  | _, _ => .ok s

end

/-- The least substitution that turns `pattern` into `concrete`. -/
def matching (pattern concrete : Ty) : Except MatchError Subst :=
  matchInto .empty pattern concrete

end Ty

end Dataflow
