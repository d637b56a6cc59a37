import Dataflow.Eval.Error
import Dataflow.Eval.Value

/-!
# Built-in functions

Arithmetic on whole numbers is exact or fails; `div` and `mod` round down, and `/` rounds toward
zero. Comparison goes through tuples from the left.
-/

namespace Dataflow.Builtin

/-- How many arguments a built-in function takes. -/
def arity? (name : String) : Option Nat :=
  if name ∈ ["+", "-", "*", "/", "div", "mod", "<", "<=", ">", ">=", "==", "/=", "&&", "||"] then
    some 2
  else if name ∈ ["not", "negate", "fst", "snd", "id"] then some 1
  else none

/-- A whole number that fits into 64 bits. -/
def fit? (n : Int) : Option Int64 :=
  if -0x8000000000000000 ≤ n ∧ n < 0x8000000000000000 then some (.ofInt n) else none

/-- The quotient rounded down. It is one less than the quotient rounded toward zero if the division
leaves a remainder and the signs differ. -/
def floorDiv? (x y : Int) : Option Int64 := do
  let q ← fit? (x.tdiv y)
  if x.tmod y ≠ 0 ∧ (x < 0 ↔ 0 ≤ y) then fit? (q.toInt - 1) else pure q

/-- The remainder that goes with it; each step of `x - x / y * y` has to fit. -/
def floorMod? (x y : Int) : Option Int64 := do
  let q ← floorDiv? x y
  let m ← fit? (q.toInt * y)
  fit? (x - m.toInt)

def arithmeticInt (op : String) (x y : Int) : Except EvalError Value :=
  if op ∈ ["/", "div", "mod"] && y = 0 then .error .divisionByZero
  else
    let result :=
      match op with
      | "+" => fit? (x + y)
      | "-" => fit? (x - y)
      | "*" => fit? (x * y)
      | "/" => fit? (x.tdiv y)
      | "div" => floorDiv? x y
      | _ => floorMod? x y
    match result with
    | some n => .ok (.int n)
    | none => .error (.overflow op)

def arithmeticFloat (op : String) (x y : Float) : Except EvalError Value :=
  match op with
  | "+" => .ok (.float (x + y))
  | "-" => .ok (.float (x - y))
  | "*" => .ok (.float (x * y))
  | "/" => .ok (.float (x / y))
  | _ => .error (.typeMismatch op "Float")

def arithmetic (op : String) : Value → Value → Except EvalError Value
  | .lit (.int x), .lit (.int y) => arithmeticInt op x.toInt y.toInt
  | .lit (.float x), .lit (.float y) => arithmeticFloat op x y
  | .lit (.int _), other => .error (.typeMismatch op other.typeName)
  | other, _ => .error (.typeMismatch op other.typeName)

/-- The order of numbers with a point; absent if one is no number. -/
def compareFloat (x y : Float) : Option Ordering :=
  if x < y then some .lt else if x > y then some .gt else if x == y then some .eq else none

/-- The order of constants of one type. -/
def compareLiteral : Literal → Literal → Option Ordering
  | .int x, .int y => some (compare x.toInt y.toInt)
  | .float x, .float y => compareFloat x y
  | .char x, .char y => some (compare x.toNat y.toNat)
  | .bool x, .bool y => some (compare x.toNat y.toNat)
  | .text x, .text y => some (compare x y)
  | .unit, .unit => some .eq
  | _, _ => none

mutual

/-- The order of values of one type; absent if there is none. -/
def order? : Value → Value → Option Ordering
  | .lit a, .lit b => compareLiteral a b
  | .tuple as, .tuple bs => if as.length = bs.length then orderList? as bs else none
  | _, _ => none
termination_by structural v => v

def orderList? : List Value → List Value → Option Ordering
  | a :: as, b :: bs =>
    match order? a b with
    | some .eq => orderList? as bs
    | result => result
  | _, _ => some .eq
termination_by structural vs => vs

end

/-- Whether an order satisfies a comparison. -/
def holds (op : String) (o : Ordering) : Bool :=
  match op with
  | "<" => o == .lt
  | "<=" => o != .gt
  | ">" => o == .gt
  | _ => o != .lt

/-- A function of two arguments. -/
def binary (op : String) (a b : Value) : Except EvalError Value :=
  if op ∈ ["+", "-", "*", "/", "div", "mod"] then arithmetic op a b
  else if op = "==" then .ok (.bool (a == b))
  else if op = "/=" then .ok (.bool (!(a == b)))
  else if op ∈ ["<", "<=", ">", ">="] then
    match order? a b with
    | some o => .ok (.bool (holds op o))
    | none => .error (.typeMismatch op b.typeName)
  else
    match op, a, b with
    | "&&", .lit (.bool x), .lit (.bool y) => .ok (.bool (x && y))
    | "||", .lit (.bool x), .lit (.bool y) => .ok (.bool (x || y))
    | _, _, b => .error (.typeMismatch op b.typeName)

/-- A function of one argument. -/
def unary (op : String) (a : Value) : Except EvalError Value :=
  match op, a with
  | "not", .lit (.bool x) => .ok (.bool (!x))
  | "negate", .lit (.int n) =>
    match fit? (-n.toInt) with
    | some n => .ok (.int n)
    | none => .error (.overflow op)
  | "negate", .lit (.float x) => .ok (.float (-x))
  | "fst", .tuple [x, _] => .ok x
  | "snd", .tuple [_, y] => .ok y
  | "id", a => .ok a
  | _, a => .error (.typeMismatch op a.typeName)

/-- A built-in function with all its arguments. -/
def run (name : String) (args : List Value) : Except EvalError Value :=
  match args with
  | [a] => unary name a
  | [a, b] => binary name a b
  | _ => .error (.unknownFunction name)

end Dataflow.Builtin
