import Dataflow.ReadError

/-!
# Faults at run time
-/

namespace Dataflow

inductive EvalError where
  | noMain
  | unknownFunction (name : String)
  | unboundVariable (name : String)
  | typeMismatch (op found : String)
  | notAFunction (found : String)
  | divisionByZero
  | overflow (op : String)
  | noBranch (function : String)
  | recursionLimit (limit : Nat)
  /-- Functions that are values are applied inside each other too often within one call. This is a fault of the
  bound that the recursion is on (`Eval.maxNesting`), not of the language. -/
  | nestingLimit
  /-- The text of an argument is no value: it cannot be read, or it holds a wildcard. -/
  | badArgument (text : String) (cause : Option ReadError)
deriving DecidableEq, Repr

def EvalError.message : EvalError → String
  | .noMain => "program has no main function"
  | .unknownFunction name => "unknown function `" ++ name ++ "`"
  | .unboundVariable name => "unbound variable `" ++ name ++ "`"
  | .typeMismatch op found => "`" ++ op ++ "` cannot take a " ++ found
  | .notAFunction found => "cannot apply a " ++ found
  | .divisionByZero => "division by zero"
  | .overflow op => "`" ++ op ++ "` overflowed"
  | .noBranch function => "no branch of `" ++ function ++ "` matched"
  | .recursionLimit limit => s!"recursion deeper than {limit} calls"
  | .nestingLimit => "applications nested too deep"
  | .badArgument text cause =>
    "bad argument `" ++ text ++ "`: " ++ (cause.map ReadError.text).getD "`_` is not a value"

end Dataflow
