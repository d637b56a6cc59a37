/-!
# Path conditions

A condition says under which choices of branches a place is reached. It is a disjunction of terms,
each a conjunction of literals: `k` says that branch `k` was taken, `-k` that it was not. No terms at
all mean "always". Implication is a test on terms, right for the conjunctions that forks make.

Literals are integers without a bound. Those that come up are numbers of branches, which are counted from one
(`ScopeBuilder.nextVar`), so 32 bits hold them while fewer than `2 ^ 31 - 1` labels are numbered
(`ScopeBuilder.run_fits`).
-/

namespace Dataflow

structure Condition where
  /-- The alternatives; the literals of each are ascending, without repetition. -/
  terms : List (List Int)
deriving DecidableEq, Repr, Inhabited

namespace Condition

/-- Always. -/
def always : Condition := ⟨[]⟩

/-- One literal. -/
def literal (k : Int) : Condition := ⟨[[k]]⟩

def isAlways (c : Condition) : Bool := c.terms.isEmpty

/-- Puts a literal into a term. -/
def insertLiteral (k : Int) : List Int → List Int
  | [] => [k]
  | j :: rest => if k < j then k :: j :: rest else if k = j then j :: rest else j :: insertLiteral k rest

/-- The conjunction of two terms. -/
def union (a b : List Int) : List Int := b.foldr insertLiteral a

/-- Adds a term unless it is there. -/
def addTerm (terms : List (List Int)) (t : List Int) : List (List Int) :=
  if t ∈ terms then terms else terms ++ [t]

/-- Both: every term of one with every term of the other. -/
def and (a b : Condition) : Condition :=
  if a.isAlways then b
  else if b.isAlways then a
  else ⟨(a.terms.flatMap fun s => b.terms.map (union s)).foldl addTerm []⟩

/-- Either: the terms of both. -/
def or (a b : Condition) : Condition :=
  if a.isAlways || b.isAlways then always else ⟨b.terms.foldl addTerm a.terms⟩

/-- Some term of `a` holds every literal of some term of `b`. -/
def implies (a b : Condition) : Bool :=
  b.isAlways || a.terms.any fun s => b.terms.any fun t => t.all fun k => k ∈ s

/-- The condition as text. -/
def render (c : Condition) : String :=
  if c.isAlways then "true"
  else " | ".intercalate (c.terms.map fun t => " & ".intercalate (t.map toString))

end Condition

end Dataflow
