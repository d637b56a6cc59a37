/-!
# Reachable nodes

Search through a graph whose nodes are numbered. Nodes come in the order in which a breadth-first
search meets them.
-/

namespace Dataflow

/-- Takes nodes off the queue; a new one is noted and its successors join the queue. -/
def reachWithin (next : Nat → List Nat) : (fuel : Nat) → (queue seen : List Nat) → List Nat
  | 0, _, seen => seen
  | _, [], seen => seen
  | fuel + 1, n :: queue, seen =>
    if n ∈ seen then reachWithin next fuel queue seen
    else reachWithin next fuel (queue ++ next n) (seen ++ [n])

/-- The nodes that `starts` reach, themselves included. Every start and every edge puts one node on
the queue, so that many steps empty it. -/
def reach (next : Nat → List Nat) (edges : Nat) (starts : List Nat) : List Nat :=
  reachWithin next (starts.length + edges) starts []

end Dataflow
