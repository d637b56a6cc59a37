/-!
# Types

Types are built from atoms, tuples, named constructors with arguments, variables and functions.
Equality is structural.
-/

namespace Dataflow

/-- The built-in types without parts. -/
inductive Atom where
  | int
  | char
  | bool
  | float
  /-- The type with one value, written `()`. -/
  | unit
  /-- Whatever flows into a morphism that is not attached yet. -/
  | source
  /-- Whatever flows out of a morphism that is not attached yet. -/
  | target
deriving DecidableEq, Repr

def Atom.name : Atom → String
  | .int => "Int"
  | .char => "Char"
  | .bool => "Bool"
  | .float => "Float"
  | .unit => "()"
  | .source => "^source"
  | .target => "^target"

inductive Ty where
  | atom (a : Atom)
  | tuple (items : List Ty)
  | con (name : String) (args : List Ty)
  | var (name : String)
  | func (arg result : Ty)
deriving Repr, Inhabited

namespace Ty

mutual

/-- Decides equality of types. -/
def decEq : (a b : Ty) → Decidable (a = b)
  | .atom a, .atom b => if h : a = b then isTrue (h ▸ rfl) else isFalse fun e => h (Ty.atom.inj e)
  | .var a, .var b => if h : a = b then isTrue (h ▸ rfl) else isFalse fun e => h (Ty.var.inj e)
  | .tuple as, .tuple bs =>
    match decEqList as bs with
    | isTrue h => isTrue (h ▸ rfl)
    | isFalse h => isFalse fun e => h (Ty.tuple.inj e)
  | .con n as, .con m bs =>
    if hn : n = m then
      match decEqList as bs with
      | isTrue h => isTrue (hn ▸ h ▸ rfl)
      | isFalse h => isFalse fun e => h (Ty.con.inj e).2
    else isFalse fun e => hn (Ty.con.inj e).1
  | .func a b, .func c d =>
    match decEq a c, decEq b d with
    | isTrue h, isTrue k => isTrue (h ▸ k ▸ rfl)
    | isFalse h, _ => isFalse fun e => h (Ty.func.inj e).1
    | _, isFalse k => isFalse fun e => k (Ty.func.inj e).2
  | .atom _, .tuple _ | .atom _, .con _ _ | .atom _, .var _ | .atom _, .func _ _
  | .tuple _, .atom _ | .tuple _, .con _ _ | .tuple _, .var _ | .tuple _, .func _ _
  | .con _ _, .atom _ | .con _ _, .tuple _ | .con _ _, .var _ | .con _ _, .func _ _
  | .var _, .atom _ | .var _, .tuple _ | .var _, .con _ _ | .var _, .func _ _
  | .func _ _, .atom _ | .func _ _, .tuple _ | .func _ _, .con _ _ | .func _ _, .var _ =>
    isFalse fun e => by cases e

/-- Decides equality of lists of types. -/
def decEqList : (as bs : List Ty) → Decidable (as = bs)
  | [], [] => isTrue rfl
  | [], _ :: _ => isFalse fun e => by cases e
  | _ :: _, [] => isFalse fun e => by cases e
  | a :: as, b :: bs =>
    match decEq a b, decEqList as bs with
    | isTrue h, isTrue k => isTrue (h ▸ k ▸ rfl)
    | isFalse h, _ => isFalse fun e => h (List.cons.inj e).1
    | _, isFalse k => isFalse fun e => k (List.cons.inj e).2

end

instance : DecidableEq Ty := decEq

abbrev int : Ty := .atom .int
abbrev char : Ty := .atom .char
abbrev bool : Ty := .atom .bool
abbrev float : Ty := .atom .float
abbrev unit : Ty := .atom .unit
abbrev string : Ty := .con "String" []

/-- A tuple; of no components it is the unit type, of one that component. -/
def ofComponents : List Ty → Ty
  | [] => unit
  | [t] => t
  | ts => .tuple ts

/-- The components of a tuple; any other type is its own only component. -/
def components : Ty → List Ty
  | .tuple ts => ts
  | t => [t]

/-- The function type that takes `params` one by one. -/
def curried (params : List Ty) (result : Ty) : Ty :=
  params.foldr .func result

/-- The parameters of a curried function and its final result. -/
def uncurry : Ty → List Ty × Ty
  | .func arg result =>
    let (params, final) := uncurry result
    (arg :: params, final)
  | t => ([], t)

def isFunction : Ty → Bool
  | .func _ _ => true
  | _ => false

/-- Puts a name into a list that is ascending and without repetition. -/
def insertName (x : String) : List String → List String
  | [] => [x]
  | y :: ys => if x < y then x :: y :: ys else if x = y then y :: ys else y :: insertName x ys

mutual

/-- The variables of a type, from left to right, with repetitions. -/
def vars : Ty → List String
  | .atom _ => []
  | .var x => [x]
  | .tuple ts => varsList ts
  | .con _ ts => varsList ts
  | .func a b => vars a ++ vars b

def varsList : List Ty → List String
  | [] => []
  | t :: ts => vars t ++ varsList ts

end

/-- The names of the variables, ascending, each once. -/
def freeVars (t : Ty) : List String :=
  t.vars.foldr insertName []

/-- Without variables. -/
def isGround (t : Ty) : Bool :=
  t.vars.isEmpty

/-- Needs parentheses as an argument of a constructor. -/
def isCompound : Ty → Bool
  | .func _ _ => true
  | .con _ args => !args.isEmpty
  | _ => false

/-- Puts parentheses around a text if asked to. -/
def parenthesize (wanted : Bool) (s : String) : String :=
  if wanted then "(" ++ s ++ ")" else s

mutual

/-- The type as text. -/
def pretty : Ty → String
  | .atom a => a.name
  | .tuple ts => "(" ++ ", ".intercalate (prettyList ts) ++ ")"
  | .con name args => " ".intercalate (name :: prettyArgs args)
  | .var x => x
  | .func a b => parenthesize a.isFunction (pretty a) ++ " -> " ++ pretty b

def prettyList : List Ty → List String
  | [] => []
  | t :: ts => pretty t :: prettyList ts

/-- The arguments of a constructor, each readable as one unit. -/
def prettyArgs : List Ty → List String
  | [] => []
  | t :: ts => parenthesize t.isCompound (pretty t) :: prettyArgs ts

end

end Ty

end Dataflow
