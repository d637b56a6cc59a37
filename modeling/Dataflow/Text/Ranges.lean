/-!
# Ranges of code points

A character class beyond ASCII is a list of closed ranges of code points in ascending order. The
tables are those of Unicode 17.0.
-/

namespace Dataflow.Text

/-- Whether `n` lies in one of the closed ranges. -/
def inRanges (table : List (Nat × Nat)) (n : Nat) : Bool :=
  table.any fun r => r.1 ≤ n && n ≤ r.2

theorem inRanges_iff {table : List (Nat × Nat)} {n : Nat} :
    inRanges table n = true ↔ ∃ r ∈ table, r.1 ≤ n ∧ n ≤ r.2 := by
  simp [inRanges]

end Dataflow.Text
