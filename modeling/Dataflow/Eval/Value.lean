import Dataflow.Pattern
import Dataflow.Plan.Expr

/-!
# Values at run time

Constants, tuples and functions. A function is either a named one that still waits for arguments or
a lambda with the variables it captured.
-/

namespace Dataflow

inductive Value where
  | lit (l : Literal)
  | tuple (items : List Value)
  /-- A named function; an argument it waits for is absent. -/
  | waiting (func : String) (args : List (Option Value))
  /-- A lambda and the captured variables, ascending by name. -/
  | closure (param : String) (body : Expr) (env : List (String × Value))
deriving Repr, Inhabited

namespace Value

abbrev unit : Value := .lit .unit
abbrev int (n : Int64) : Value := .lit (.int n)
abbrev float (x : Float) : Value := .lit (.float x)
abbrev char (c : Char) : Value := .lit (.char c)
abbrev bool (b : Bool) : Value := .lit (.bool b)
abbrev text (s : String) : Value := .lit (.text s)

/-- The kind of a value, for messages. -/
def typeName : Value → String
  | .lit l => l.ty.pretty
  | .tuple _ => "tuple"
  | .waiting _ _ => "function"
  | .closure _ _ _ => "function"

mutual

/-- Equality, in which numbers with a point compare as numbers. -/
def beq : Value → Value → Bool
  | .lit a, .lit b => a == b
  | .tuple as, .tuple bs => beqList as bs
  | .waiting f as, .waiting g bs => f == g && beqArgs as bs
  | .closure x a e, .closure y b d => x == y && a == b && beqEnv e d
  | _, _ => false
termination_by structural v => v

def beqList : List Value → List Value → Bool
  | [], [] => true
  | a :: as, b :: bs => beq a b && beqList as bs
  | _, _ => false
termination_by structural vs => vs

def beqArgs : List (Option Value) → List (Option Value) → Bool
  | [], [] => true
  | none :: as, none :: bs => beqArgs as bs
  | some a :: as, some b :: bs => beq a b && beqArgs as bs
  | _, _ => false
termination_by structural vs => vs

def beqEnv : List (String × Value) → List (String × Value) → Bool
  | [], [] => true
  | (x, a) :: as, (y, b) :: bs => x == y && beq a b && beqEnv as bs
  | _, _ => false
termination_by structural vs => vs

end

instance : BEq Value := ⟨beq⟩

mutual

/-- The value as text, the way a rendered program prints it. -/
def render : Value → String
  | .lit l => l.render
  | .tuple items => "(" ++ ",".intercalate (renderList items) ++ ")"
  | .waiting func _ => "<function " ++ func ++ ">"
  | .closure _ _ _ => "<function>"
termination_by structural v => v

def renderList : List Value → List String
  | [] => []
  | v :: vs => render v :: renderList vs
termination_by structural vs => vs

end

mutual

/-- Whether a value looks like a pattern. -/
def fits : Value → Pattern → Bool
  | _, .any => true
  | v, .value l => .lit l == v
  | .tuple vs, .tuple ps => fitsAll vs ps
  | _, .tuple _ => false
termination_by structural _ p => p

def fitsAll : List Value → List Pattern → Bool
  | [], [] => true
  | v :: vs, p :: ps => fits v p && fitsAll vs ps
  | _, _ => false
termination_by structural _ ps => ps

end

mutual

/-- The value that a pattern without wildcards describes. -/
def ofPattern? : Pattern → Option Value
  | .any => none
  | .value l => some (.lit l)
  | .tuple ps => (ofPatterns? ps).map .tuple
termination_by structural p => p

def ofPatterns? : List Pattern → Option (List Value)
  | [] => some []
  | p :: ps =>
    match ofPattern? p, ofPatterns? ps with
    | some v, some vs => some (v :: vs)
    | _, _ => none
termination_by structural ps => ps

end

end Value

end Dataflow
