import Dataflow.Assoc
import Dataflow.Ty.Expr

/-!
# Symbols

Names in type text and morphism text mean symbols: types, functions and values. A resolver looks a
name up. Tables are resolvers that always give the same answer; others, such as an interactive
tool, answer in a monad.
-/

namespace Dataflow

inductive SymbolKind where
  | type
  | function
  | value
deriving DecidableEq, Repr

def SymbolKind.name : SymbolKind → String
  | .type => "type"
  | .function => "function"
  | .value => "value"

structure Symbol where
  kind : SymbolKind
  ty : Ty
deriving DecidableEq, Repr

/-- A declared name is a function if its type is one, and a value otherwise. -/
def Symbol.declared (ty : Ty) : Symbol :=
  ⟨if ty.isFunction then .function else .value, ty⟩

/-- Looks a name up. -/
abbrev Resolver (m : Type → Type) := String → m (Option Symbol)

/-- Symbols by name. -/
structure SymbolTable where
  entries : List (String × Symbol)
deriving DecidableEq, Repr

namespace SymbolTable

def empty : SymbolTable := ⟨[]⟩

def insert (t : SymbolTable) (name : String) (symbol : Symbol) : SymbolTable :=
  ⟨Assoc.insert name symbol t.entries⟩

def find? (t : SymbolTable) (name : String) : Option Symbol :=
  Assoc.get? name t.entries

def size (t : SymbolTable) : Nat := t.entries.length

/-- The table as a resolver. -/
def resolver {m : Type → Type} [Monad m] (t : SymbolTable) : Resolver m :=
  fun name => pure (t.find? name)

/-- The table in front of another resolver. -/
def shadowing {m : Type → Type} [Monad m] (t : SymbolTable) (parent : Resolver m) : Resolver m :=
  fun name =>
    match t.find? name with
    | some symbol => pure (some symbol)
    | none => parent name

/-- The type of an operation on two values of one type. -/
def binary (t : Ty) : Ty := .curried [t, t] t

/-- The built-in types, the type constructors that are known from the start, and the operators. -/
def prelude : SymbolTable :=
  let a : Ty := .var "a"
  let b : Ty := .var "b"
  let types : List (String × Ty) :=
    [("Int", .int), ("Integer", .int), ("Char", .char), ("Bool", .bool), ("Float", .float),
     ("Double", .float), ("String", .string), ("List", .con "List" []), ("IO", .con "IO" [])]
  let functions : List (String × Ty) :=
    ["+", "-", "*", "/"].map (fun name => (name, binary a)) ++
    ["div", "mod"].map (fun name => (name, binary .int)) ++
    ["<", "<=", ">", ">=", "==", "/="].map (fun name => (name, .curried [a, a] .bool)) ++
    ["&&", "||"].map (fun name => (name, binary .bool)) ++
    [("not", .func .bool .bool), ("negate", .func a a), ("fst", .func (.tuple [a, b]) a),
     ("snd", .func (.tuple [a, b]) b)]
  ⟨Assoc.ofList
    (types.map (fun p => (p.1, ⟨.type, p.2⟩)) ++ functions.map (fun p => (p.1, ⟨.function, p.2⟩)))⟩

/-- What one line of declarations adds: nothing for a blank line or a comment. -/
def readLine (line : String) : Except ReadError (Option (String × Symbol)) :=
  let line := Text.trimBlank line.toList
  if line.isEmpty || (Text.dropStart? ['-', '-'] line).isSome then .ok none
  else
    match Text.dropStart? ['t', 'y', 'p', 'e', ' '] line with
    | some name =>
      let name := String.ofList (Text.trimBlank name)
      .ok (some (name, ⟨.type, .con name []⟩))
    | none =>
      match TyExpr.readDeclaration (String.ofList line) with
      | .ok (name, e) => .ok (some (name, .declared e.structural))
      | .error e => .error e

/-- Adds the declarations of the lines; what stands before a bad line stays. Also says how many
symbols the lines declared. -/
def loadLines (t : SymbolTable) (added : Nat) : List String → SymbolTable × Except ReadError Nat
  | [] => (t, .ok added)
  | line :: rest =>
    match readLine line with
    | .ok none => loadLines t added rest
    | .ok (some (name, symbol)) => loadLines (t.insert name symbol) (added + 1) rest
    | .error e => (t, .error e)

/-- Adds declarations, one per line: `type Name`, `name :: type`, or `-- comment`. -/
def load (t : SymbolTable) (text : String) : SymbolTable × Except ReadError Nat :=
  loadLines t 0 (Text.lines text)

end SymbolTable

end Dataflow
