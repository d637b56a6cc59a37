/-!
# Tables with ascending keys

A table is a list of pairs with strictly ascending keys, so equal tables are equal lists.
-/

namespace Dataflow.Assoc

variable {κ α β : Type} [Ord κ]

/-- The value under a key. -/
def get? (k : κ) : List (κ × α) → Option α
  | [] => none
  | (j, a) :: rest => if compare k j == .eq then some a else get? k rest

/-- Puts a value under a key, in place of an earlier one. -/
def insert (k : κ) (a : α) : List (κ × α) → List (κ × α)
  | [] => [(k, a)]
  | (j, b) :: rest =>
    match compare k j with
    | .lt => (k, a) :: (j, b) :: rest
    | .eq => (k, a) :: rest
    | .gt => (j, b) :: insert k a rest

/-- The table of the pairs; of two with one key the later counts. -/
def ofList (pairs : List (κ × α)) : List (κ × α) :=
  pairs.foldl (fun table p => insert p.1 p.2 table) []

end Dataflow.Assoc
