import Dataflow.Morphism.Basic
import Dataflow.Plan.Basic
import Dataflow.Render.Lines
import Dataflow.Render.Params
import Dataflow.Text.Utf8

/-!
# Plans as C++ source

A function for every function of the plan, a local variable for every bound one, a chain of `if` and
`else` for a choice of branches, and `return` for a result. A call with open parameters is a lambda
in as many parameters, numbered within the function.
-/

namespace Dataflow.Cpp

/-- What stands before every program: the headers, and the functions that print a result. -/
def preamble : List String :=
  ["#include <functional>",
   "#include <iostream>",
   "#include <string>",
   "#include <tuple>",
   "#include <variant>",
   "#include <vector>",
   "",
   "namespace morph \x7b",
   "",
   "template <typename T> void show(std::ostream &out, const T &value) \x7b out << value; \x7d",
   "inline void show(std::ostream &out, bool value) \x7b out << (value ? \"True\" : \"False\"); \x7d",
   "inline void show(std::ostream &out, std::monostate) \x7b out << \"()\"; \x7d",
   "inline void put(std::ostream &out, char32_t c) \x7b",
   "  if (c < 0x80) \x7b",
   "    out << char(c);",
   "  \x7d else if (c < 0x800) \x7b",
   "    out << char(0xC0 | (c >> 6)) << char(0x80 | (c & 0x3F));",
   "  \x7d else if (c < 0x10000) \x7b",
   "    out << char(0xE0 | (c >> 12)) << char(0x80 | ((c >> 6) & 0x3F)) << char(0x80 | (c & 0x3F));",
   "  \x7d else \x7b",
   "    out << char(0xF0 | (c >> 18)) << char(0x80 | ((c >> 12) & 0x3F))",
   "        << char(0x80 | ((c >> 6) & 0x3F)) << char(0x80 | (c & 0x3F));",
   "  \x7d",
   "\x7d",
   "inline void show(std::ostream &out, char32_t value) \x7b out << '\\''; put(out, value); out << '\\''; \x7d",
   "inline void show(std::ostream &out, const std::string &value) \x7b out << '\"' << value << '\"'; \x7d",
   "",
   "template <typename... Ts> void show(std::ostream &out, const std::tuple<Ts...> &value) \x7b",
   "  out << '(';",
   "  std::size_t index = 0;",
   "  std::apply([&](const auto &...items) \x7b ((out << (index++ ? \",\" : \"\"), show(out, items)), ...); \x7d,",
   "             value);",
   "  out << ')';",
   "\x7d",
   "",
   "\x7d // namespace morph"]

/-! ## Names and types -/

/-- A number in base sixteen, at least `width` digits long. -/
def hex (width : Nat) (n : Nat) : String :=
  let digits := Nat.toDigits 16 n
  String.ofList (List.replicate (width - digits.length) '0' ++ digits)

/-- A name as an identifier. An operator is spelled out by the code points of its characters. -/
def identifier (name : String) : String :=
  if isOperatorName name then
    "op_" ++ "_".intercalate (name.toList.map fun c => hex 0 c.toNat)
  else String.ofList (name.toList.map fun c => if c = '\'' then '_' else c)

def functionName (f : FunctionPlan) : String :=
  if f.isMain then "morph_main" else identifier f.name

mutual

/-- A type as written in the source. -/
def ty : Ty → String
  | .atom .int => "long"
  | .atom .char => "char32_t"
  | .atom .bool => "bool"
  | .atom .float => "double"
  | .atom _ => "std::monostate"
  | .tuple items => "std::tuple<" ++ ", ".intercalate (tyList items) ++ ">"
  | .con name args =>
    match args with
    | [] => if name = "String" then "std::string" else identifier name
    | [item] => (if name = "List" then "std::vector" else identifier name) ++ "<" ++ ty item ++ ">"
    | args => identifier name ++ "<" ++ ", ".intercalate (tyList args) ++ ">"
  | .var _ => "auto"
  | .func arg result => "std::function<" ++ ty result ++ "(" ++ ty arg ++ ")>"
termination_by structural t => t

def tyList : List Ty → List String
  | [] => []
  | t :: ts => ty t :: tyList ts
termination_by structural ts => ts

end

/-! ## Constants -/

/-- A visible ASCII character or a blank. -/
def isPlain (c : Char) : Bool := 0x20 ≤ c.toNat && c.toNat ≤ 0x7e

/-- An octet as an escape of three octal digits. -/
def octal (b : UInt8) : List Char :=
  let n := b.toNat
  ['\\', Nat.digitChar (n / 64), Nat.digitChar (n / 8 % 8), Nat.digitChar (n % 8)]

/-- A character of a string literal. What is not plain is written octet by octet. -/
def stringChar (c : Char) : List Char :=
  if c = '\\' then ['\\', '\\']
  else if c = '\n' then ['\\', 'n']
  else if c = '\t' then ['\\', 't']
  else if c = '"' then ['\\', '"']
  else if isPlain c then [c]
  else (Text.encodeChar c).flatMap octal

/-- The inside of a string literal. -/
def stringBody (s : String) : String := String.ofList (s.toList.flatMap stringChar)

/-- The inside of a character literal. -/
def charBody (c : Char) : String :=
  if c = '\\' || c = '\'' then String.ofList ['\\', c]
  else if isPlain c then String.singleton c
  else "\\U" ++ hex 8 c.toNat

def literal : Literal → String
  | .int n => Ty.parenthesize (n.toInt < 0) (toString n.toInt)
  | .float x => Ty.parenthesize (x < 0.0) (Literal.number.write x)
  | .char c => "U'" ++ charBody c ++ "'"
  | .bool b => if b then "true" else "false"
  | .text s => "std::string(\"" ++ stringBody s ++ "\")"
  | .unit => "std::monostate\x7b\x7d"

/-! ## Expressions -/

/-- Operators that the source writes as they are. -/
def isBuiltinOperator (name : String) : Bool :=
  name ∈ ["+", "-", "*", "/", "<", "<=", ">", ">=", "==", "&&", "||"]

/-- A call with all its arguments. -/
def apply (func : String) (args : List String) : String :=
  match func, args with
  | "/=", [a, b] => "(" ++ a ++ " != " ++ b ++ ")"
  | "div", [a, b] => "(" ++ a ++ " / " ++ b ++ ")"
  | "mod", [a, b] => "(" ++ a ++ " % " ++ b ++ ")"
  | "not", [a] => "(!" ++ a ++ ")"
  | "negate", [a] => "(-" ++ a ++ ")"
  | "fst", [a] => "std::get<0>(" ++ a ++ ")"
  | "snd", [a] => "std::get<1>(" ++ a ++ ")"
  | "id", [a] => a
  | op, [a, b] =>
    if isBuiltinOperator op then "(" ++ a ++ " " ++ op ++ " " ++ b ++ ")"
    else identifier op ++ "(" ++ a ++ ", " ++ b ++ ")"
  | name, args => identifier name ++ "(" ++ ", ".intercalate args ++ ")"

/-- A function of one parameter. -/
def lambda (param body : String) : String :=
  "[=](auto " ++ param ++ ") \x7b return " ++ body ++ "; \x7d"

mutual

/-- An expression; the state is the number of the next new parameter. -/
def expr : Expr → StateM Nat String
  | .var name => pure name
  | .lit l => pure (literal l)
  | .tuple items => do
    let items ← exprList items
    pure ("std::make_tuple(" ++ ", ".intercalate items ++ ")")
  | .lambda param body => do
    let body ← expr body
    pure (lambda param body)
  | .call func arity args => do
    let (filled, params) ← exprArgs arity args
    pure (params.foldr lambda (apply func filled))
termination_by structural e => e

def exprList : List Expr → StateM Nat (List String)
  | [] => pure []
  | e :: es => do
    let e ← expr e
    let es ← exprList es
    pure (e :: es)
termination_by structural es => es

/-- As many arguments as there are parameters, with new names for the missing ones, and those
names. -/
def exprArgs (arity : Nat) : List (Option Expr) → StateM Nat (List String × List String)
  | [] => do
    let params ← Render.freshParams arity
    pure (params, params)
  | some e :: rest =>
    match arity with
    | 0 => pure ([], [])
    | n + 1 => do
      let arg ← expr e
      let (filled, params) ← exprArgs n rest
      pure (arg :: filled, params)
  | none :: rest =>
    match arity with
    | 0 => pure ([], [])
    | n + 1 => do
      let param ← Render.freshParam
      let (filled, params) ← exprArgs n rest
      pure (param :: filled, param :: params)
termination_by structural es => es

end

/-! ## Branches -/

mutual

/-- The tests that a pattern makes of a subject. -/
def patternTests (subject : String) : Pattern → List String
  | .any => []
  | .value .unit => []
  | .value l => [subject ++ " == " ++ literal l]
  | .tuple items => itemTests subject 0 items
termination_by structural p => p

/-- The tests of the components from the `k`-th on. -/
def itemTests (subject : String) (k : Nat) : List Pattern → List String
  | [] => []
  | p :: ps =>
    patternTests ("std::get<" ++ toString k ++ ">(" ++ subject ++ ")") p ++ itemTests subject (k + 1) ps
termination_by structural ps => ps

end

/-- The test of a branch. -/
def test : BranchLabel → StateM Nat String
  | .otherwise => pure "true"
  | .guard e => expr e
  | .pattern subject p _ =>
    match patternTests subject p with
    | [] => pure "true"
    | tests => pure (" && ".intercalate tests)

/-- The line that opens a branch. The last one needs no test if it takes every value. -/
def branchHead (isFirst isLast : Bool) (label : BranchLabel) (test : String) : String :=
  match isFirst, isLast && label.isIrrefutable with
  | true, true => "\x7b"
  | true, false => "if (" ++ test ++ ") \x7b"
  | false, true => "\x7d else \x7b"
  | false, false => "\x7d else if (" ++ test ++ ") \x7b"

/-! ## Functions -/

def step : Step → StateM Nat String
  | .bind var t e => do
    let e ← expr e
    let t := if t.isGround && !t.isFunction then ty t else "auto"
    pure (t ++ " " ++ var ++ " = " ++ e ++ ";")
  | .unpack tuple vars _ => pure ("auto [" ++ ", ".intercalate vars ++ "] = " ++ tuple ++ ";")
  | .result e => do
    let e ← expr e
    pure ("return " ++ e ++ ";")

mutual

def body : Body → StateM Nat (List String)
  | .mk steps branches => do
    let steps ← steps.mapM step
    let branches ← bodyBranches true branches
    pure (steps ++ branches)
termination_by structural b => b

/-- The branches, and the line that closes the last one. -/
def bodyBranches (isFirst : Bool) : List (BranchLabel × Body) → StateM Nat (List String)
  | [] => pure (if isFirst then [] else ["\x7d"])
  | (label, block) :: rest => do
    let test ← test label
    let block ← body block
    let others ← bodyBranches false rest
    pure (branchHead isFirst rest.isEmpty label test :: Render.indent block ++ others)
termination_by structural bs => bs

end

def signature (f : FunctionPlan) : String :=
  let param :=
    match f.param with
    | some param => ty f.paramType ++ " " ++ param
    | none => ""
  ty f.resultType ++ " " ++ functionName f ++ "(" ++ param ++ ")"

def function (f : FunctionPlan) : List String :=
  [signature f ++ " \x7b"] ++ Render.indent ((body f.body).run 0).1 ++ ["\x7d"]

/-- The program that prints what the main function gives. -/
def entry : List String :=
  ["int main() \x7b"] ++
    Render.indent ["morph::show(std::cout, morph_main());", "std::cout << std::endl;", "return 0;"] ++
    ["\x7d"]

/-- The source of a plan. -/
def source (plan : ProgramPlan) : String :=
  Render.unlines
    (preamble ++ plan.libraries.map (fun library => "#include <" ++ library ++ ">") ++ [""] ++
      plan.functions.map (fun f => signature f ++ ";") ++ [""] ++
      plan.functions.flatMap (fun f => function f ++ [""]) ++
      (if plan.main?.isSome then entry else []))

end Dataflow.Cpp
