/-!
# Parameters that a renderer makes up

New parameters are numbered; the state is the number of the next one.
-/

namespace Dataflow.Render

/-- A new parameter. -/
def freshParam : StateM Nat String := do
  let n ← get
  set (n + 1)
  pure ("p" ++ toString n)

/-- New parameters. -/
def freshParams : Nat → StateM Nat (List String)
  | 0 => pure []
  | n + 1 => do
    let param ← freshParam
    let params ← freshParams n
    pure (param :: params)

end Dataflow.Render
