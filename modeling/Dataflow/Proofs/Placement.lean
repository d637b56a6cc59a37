import Dataflow.Proofs.Condition
import Dataflow.Proofs.Trail

/-!
# Where definitions end up

Scopes are built by a sequence of operations, each of which acts at once on the scopes that are open
at that moment. The law of placement speaks of the finished leaves instead: what stands on the path
to a leaf depends only on the condition of the leaf and the sequence of operations (`run_leaf`).

The reason is that conditions of scopes grow by new literals only. An operation is legal if its
condition mentions branches that are already numbered. Whether the condition of an open scope implies
it is then decided for good, for the scope and for every leaf that will grow out of it.
-/

namespace Dataflow

variable {δ ℓ : Type}

/-- An operation on scopes. -/
inductive ScopeOp (δ ℓ : Type) where
  | define (c : Condition) (d : δ)
  | fork (c : Condition) (labels : List ℓ)
  | close (c : Condition)

namespace ScopeOp

def condition : ScopeOp δ ℓ → Condition
  | .define c _ => c
  | .fork c _ => c
  | .close c => c

/-- How many branches the operation numbers. -/
def width : ScopeOp δ ℓ → Nat
  | .fork _ labels => labels.length
  | _ => 0

/-- The condition mentions branches with numbers below `next` only, and a fork has a label. -/
def Legal (next : Nat) : ScopeOp δ ℓ → Prop
  | .define c _ => c.Known next
  | .fork c labels => c.Known next ∧ labels ≠ []
  | .close c => c.Known next

theorem Legal.known {next : Nat} {op : ScopeOp δ ℓ} (h : op.Legal next) : op.condition.Known next := by
  cases op with
  | define c d => exact h
  | fork c labels => exact h.1
  | close c => exact h

/-- How many branches the operations number. -/
def widths : List (ScopeOp δ ℓ) → Nat
  | [] => 0
  | op :: rest => op.width + widths rest

/-- Every operation is legal when its turn comes; the next branch has number `next`. -/
def LegalFrom : Nat → List (ScopeOp δ ℓ) → Prop
  | _, [] => True
  | next, op :: rest => op.Legal next ∧ LegalFrom (next + op.width) rest

theorem legalFrom_append {next : Nat} {ops more : List (ScopeOp δ ℓ)} :
    LegalFrom next (ops ++ more) ↔ LegalFrom next ops ∧ LegalFrom (next + widths ops) more := by
  induction ops generalizing next with
  | nil => simp [LegalFrom, widths]
  | cons op ops ih => simp [LegalFrom, widths, ih, and_assoc, Nat.add_assoc]

/-- Operations that number no branches are legal together if each of them is. -/
theorem legalFrom_of_forall {next : Nat} {ops : List (ScopeOp δ ℓ)}
    (h : ∀ op ∈ ops, op.Legal next ∧ op.width = 0) : LegalFrom next ops := by
  induction ops with
  | nil => trivial
  | cons op ops ih =>
    obtain ⟨hlegal, hwidth⟩ := h op (by simp)
    refine ⟨hlegal, ?_⟩
    rw [hwidth, Nat.add_zero]
    exact ih fun op' hop' => h op' (by simp [hop'])

end ScopeOp

namespace ScopeBuilder

/-- Carries out an operation. -/
def step (b : ScopeBuilder δ ℓ) : ScopeOp δ ℓ → ScopeBuilder δ ℓ
  | .define c d => b.define c d
  | .fork c labels => b.fork c labels
  | .close c => b.close c

/-- Carries out operations in order. -/
def run (b : ScopeBuilder δ ℓ) (ops : List (ScopeOp δ ℓ)) : ScopeBuilder δ ℓ := ops.foldl step b

@[simp] theorem run_nil (b : ScopeBuilder δ ℓ) : b.run [] = b := rfl

@[simp] theorem run_cons (b : ScopeBuilder δ ℓ) (op : ScopeOp δ ℓ) (ops : List (ScopeOp δ ℓ)) :
    b.run (op :: ops) = (b.step op).run ops := rfl

theorem run_append (b : ScopeBuilder δ ℓ) (ops more : List (ScopeOp δ ℓ)) :
    b.run (ops ++ more) = (b.run ops).run more := by simp [run]

theorem step_nextVar (b : ScopeBuilder δ ℓ) (op : ScopeOp δ ℓ) : (b.step op).nextVar = b.nextVar + op.width := by
  cases op <;> rfl

theorem run_nextVar (b : ScopeBuilder δ ℓ) (ops : List (ScopeOp δ ℓ)) :
    (b.run ops).nextVar = b.nextVar + ScopeOp.widths ops := by
  induction ops generalizing b with
  | nil => rfl
  | cons op ops ih => simp [ScopeOp.widths, ih, step_nextVar, Nat.add_assoc]

/-- The numbers of the branches of the next fork. -/
theorem branchVars_snd (b : ScopeBuilder δ ℓ) (labels : List ℓ) :
    (b.branchVars labels).map (·.2) = (List.range labels.length).map fun j => ((b.nextVar + j : Nat) : Int) := by
  rw [branchVars, List.map_map, List.range_eq_range', ← List.zipIdx_map_snd 0 labels, List.map_map]
  rfl

theorem branchConditions_getElem? {b : ScopeBuilder δ ℓ} {c d : Condition} {labels : List ℓ} {i : Nat} :
    (b.branchConditions c labels)[i]? = some d ↔
      i < labels.length ∧ d = c.and (.literal ((b.nextVar + i : Nat) : Int)) := by
  have hconditions : b.branchConditions c labels = (List.range labels.length).map fun j =>
      c.and (.literal ((b.nextVar + j : Nat) : Int)) := by
    simpa [branchConditions, Function.comp_def] using
      congrArg (List.map fun k => c.and (.literal k)) (branchVars_snd b labels)
  by_cases hi : i < labels.length
  · simp [hconditions, hi, eq_comm]
  · simp [hconditions, hi]

end ScopeBuilder

/-! ## One operation on the leaves -/

open ScopeTree (Leaf)

namespace ScopeOp

/-- The leaves that stand in the place of an open leaf, once the operation has changed it. -/
def growth (next : Nat) : ScopeOp δ ℓ → Condition → List (Leaf δ ℓ)
  | .define _ d, own => [⟨own, true, [.definition d]⟩]
  | .close _, own => [⟨own, false, []⟩]
  | .fork _ labels, own =>
    labels.zipIdx.map fun (_, j) => ⟨own.and (.literal ((next + j : Nat) : Int)), true, [.choice labels j]⟩

end ScopeOp

namespace ScopeTree

theorem childLeaves_fresh (L : List ℓ) (own : Condition) (next : Nat) :
    ∀ (labels : List ℓ) (k : Nat),
      childLeaves (δ := δ) L k
          ((labels.zipIdx k).map fun (l, j) => (l, .fresh (own.and (.literal ((next + j : Nat) : Int))))) =
        (labels.zipIdx k).map fun (_, j) => ⟨own.and (.literal ((next + j : Nat) : Int)), true, [.choice L j]⟩
  | [], _ => rfl
  | l :: labels, k => by
    simp only [List.zipIdx_cons, List.map_cons, childLeaves, childLeaves_fresh L own next labels (k + 1)]
    simp [fresh, leaves, Leaf.behind]

end ScopeTree

namespace ScopeBuilder

theorem step_leaves (b : ScopeBuilder δ ℓ) {op : ScopeOp δ ℓ} (hop : op.Legal b.nextVar) :
    (b.step op).tree.leaves = b.tree.leaves.flatMap (Leaf.change op.condition (op.growth b.nextVar)) := by
  cases op with
  | define c d =>
    refine ScopeTree.update_leaves (fun own ds => ?_) b.tree
    simp [ScopeTree.leaves, ScopeOp.growth, Leaf.behind]
  | close c =>
    refine ScopeTree.update_leaves (fun own ds => ?_) b.tree
    simp [ScopeTree.leaves, ScopeOp.growth, Leaf.behind]
  | fork c labels =>
    refine ScopeTree.update_leaves (fun own ds => ?_) b.tree
    rw [ScopeTree.leaves, if_neg (by simpa [branchVars] using hop.2), branchVars, List.map_map, List.map_map,
      List.map_map]
    have hlabels := List.zipIdx_map_fst 0 labels
    have hleaves := ScopeTree.childLeaves_fresh (δ := δ) labels own b.nextVar labels 0
    exact (congrArg (fun L => (ScopeTree.childLeaves L 0 _).map _) hlabels).trans (congrArg (List.map _) hleaves)

end ScopeBuilder

/-! ## The path to a leaf, read off the operations -/

namespace Condition

/-- `t` is the condition of a scope inside one of condition `s`: below `next` they have the same
literals. -/
structure Refines (next : Nat) (s t : Condition) : Prop where
  isPath : t.IsPath
  same : ∀ k < (next : Int), k ∈ t.literals ↔ k ∈ s.literals

/-- The condition of a scope whose branches have numbers below `next`. -/
structure Numbered (next : Nat) (s : Condition) : Prop where
  isPath : s.IsPath
  nonneg : ∀ k ∈ s.literals, 0 ≤ k
  below : ∀ k ∈ s.literals, k < (next : Int)

variable {next : Nat} {s t c : Condition}

/-- What a scope implies is implied inside it, and nothing else is, as long as no new branch is
mentioned. -/
theorem Refines.implies_eq (hs : s.IsPath) (h : Refines next s t) (hc : c.Known next) :
    t.implies c = s.implies c := by
  rw [Bool.eq_iff_iff, implies_iff_holdsOn h.isPath hc.proper, implies_iff_holdsOn hs hc.proper]
  exact hc.holdsOn_congr h.same

theorem Refines.weaken {more : Nat} (hle : next ≤ more) (h : Refines more s t) : Refines next s t :=
  ⟨h.isPath, fun k hk => h.same k (by omega)⟩

theorem Numbered.weaken {more : Nat} (hle : next ≤ more) (h : Numbered next s) : Numbered more s :=
  ⟨h.isPath, h.nonneg, fun k hk => by have := h.below k hk; omega⟩

theorem numbered_always : Numbered next always :=
  ⟨by simp [IsPath, always], by simp [always], by simp [always]⟩

/-- A branch of a scope: it refines the scope, and of the branches it is numbered with, it has its
own literal only. -/
theorem Numbered.branch (hs : Numbered next s) {width j : Nat} (hj : j < width) :
    Numbered (next + width) (s.and (.literal ((next + j : Nat) : Int))) ∧
    Refines next s (s.and (.literal ((next + j : Nat) : Int))) ∧
    ∀ i : Nat, ((next + i : Nat) : Int) ∈ (s.and (.literal ((next + j : Nat) : Int))).literals ↔ i = j := by
  obtain ⟨hpath, hlits⟩ := hs.isPath.and_literal ((next + j : Nat) : Int)
  refine ⟨⟨hpath, fun k hk => ?_, fun k hk => ?_⟩, ⟨hpath, ?_⟩, ?_⟩
  · rcases (hlits k).1 hk with hk | rfl
    · exact hs.nonneg k hk
    · omega
  · rcases (hlits k).1 hk with hk | rfl
    · have := hs.below k hk; omega
    · omega
  · intro k hk
    rw [hlits k]
    constructor
    · rintro (h | rfl)
      · exact h
      · omega
    · exact Or.inl
  · intro i
    rw [hlits]
    constructor
    · rintro (h | h)
      · have := hs.below _ h; omega
      · omega
    · rintro rfl; exact Or.inr rfl

/-- The branch that the condition `s` takes among `width` ones numbered from `next`. -/
def taken (next width : Nat) (s : Condition) : Nat :=
  ((List.range width).find? fun j => ((next + j : Nat) : Int) ∈ s.literals).getD 0

theorem taken_eq {width j : Nat} (hj : j < width)
    (honly : ∀ i < width, ((next + i : Nat) : Int) ∈ s.literals ↔ i = j) : taken next width s = j := by
  have hfind : (List.range width).find? (fun i => ((next + i : Nat) : Int) ∈ s.literals) = some j := by
    rw [List.find?_range_eq_some]
    refine ⟨by simpa using (honly j hj).2 rfl, by simpa using hj, fun i hi => ?_⟩
    have hne : ¬ i = j := by omega
    simpa using mt (honly i (by omega)).1 hne
  rw [taken, hfind, Option.getD_some]

end Condition

namespace ScopeOp

/-- What stands on the path to a leaf of condition `s`: the definitions and forks under conditions
that `s` implies, up to the first closing under such a condition. -/
def passages (s : Condition) : Nat → List (ScopeOp δ ℓ) → Trail δ ℓ
  | _, [] => []
  | next, .define c d :: rest =>
    if s.implies c then .definition d :: passages s next rest else passages s next rest
  | next, .fork c labels :: rest =>
    if s.implies c then
      .choice labels (s.taken next labels.length) :: passages s (next + labels.length) rest
    else passages s (next + labels.length) rest
  | next, .close c :: rest => if s.implies c then [] else passages s next rest

/-- The definitions, in order, whose conditions `s` implies and which stand before the first closing
whose condition `s` implies. -/
def placed (s : Condition) : List (ScopeOp δ ℓ) → List δ
  | [] => []
  | .define c d :: rest => if s.implies c then d :: placed s rest else placed s rest
  | .fork _ _ :: rest => placed s rest
  | .close c :: rest => if s.implies c then [] else placed s rest

theorem passages_definitions (s : Condition) (next : Nat) (ops : List (ScopeOp δ ℓ)) :
    (passages s next ops).definitions = placed s ops := by
  induction ops generalizing next with
  | nil => rfl
  | cons op ops ih =>
    cases op with
    | define c d =>
      simp only [passages, placed]
      split
      · exact congrArg (d :: ·) (ih next)
      · exact ih next
    | fork c labels =>
      simp only [passages, placed]
      split
      · exact ih (next + labels.length)
      · exact ih (next + labels.length)
    | close c =>
      simp only [passages, placed]
      split
      · rfl
      · exact ih next

/-- An operation that does not concern a leaf leaves no mark on the path to it. -/
theorem passages_cons_of_not_implies {s : Condition} {op : ScopeOp δ ℓ} (h : s.implies op.condition = false)
    (next : Nat) (rest : List (ScopeOp δ ℓ)) :
    passages s next (op :: rest) = passages s (next + op.width) rest := by
  cases op <;> simp_all [passages, condition, width]

end ScopeOp

/-- How a leaf `grown` comes out of an earlier leaf by operations. A closed leaf stays as it is. -/
structure Outgrown (next : Nat) (ops : List (ScopeOp δ ℓ)) (leaf grown : Leaf δ ℓ) : Prop where
  closed : leaf.isOpen = false → grown = leaf
  refines : leaf.isOpen = true → leaf.condition.Refines next grown.condition
  trail : leaf.isOpen = true → grown.trail = leaf.trail ++ ScopeOp.passages grown.condition next ops

/-- An operation on an open leaf that it concerns, followed by others. -/
theorem outgrown_of_growth {next : Nat} {op : ScopeOp δ ℓ} {rest : List (ScopeOp δ ℓ)}
    {leaf mid grown : Leaf δ ℓ} (hop : op.Legal next) (hleaf : leaf.condition.Numbered next)
    (hopen : leaf.isOpen = true) (himp : leaf.condition.implies op.condition = true)
    (hmid : mid ∈ (op.growth next leaf.condition).map (Leaf.behind leaf.trail))
    (h : Outgrown (next + op.width) rest mid grown) : Outgrown next (op :: rest) leaf grown := by
  have hnot : ∀ {p : Prop}, leaf.isOpen = false → p := fun hc => by rw [hopen] at hc; cases hc
  cases op with
  | define c d =>
    obtain rfl : mid = ⟨leaf.condition, true, leaf.trail ++ [.definition d]⟩ := by
      simpa [ScopeOp.growth, Leaf.behind] using hmid
    have href := h.refines rfl
    have himp' : grown.condition.implies c = true := by
      rw [href.implies_eq hleaf.isPath hop]; exact himp
    refine ⟨hnot, fun _ => href, fun _ => ?_⟩
    simp [h.trail rfl, ScopeOp.passages, himp', ScopeOp.width]
  | close c =>
    obtain rfl : mid = ⟨leaf.condition, false, leaf.trail⟩ := by
      simpa [ScopeOp.growth, Leaf.behind] using hmid
    obtain rfl := h.closed rfl
    have himp' : leaf.condition.implies c = true := himp
    refine ⟨hnot, fun _ => ⟨hleaf.isPath, fun _ _ => Iff.rfl⟩, fun _ => ?_⟩
    simp [ScopeOp.passages, himp']
  | fork c labels =>
    obtain ⟨j, hj, rfl⟩ : ∃ j < labels.length, mid =
        ⟨leaf.condition.and (.literal ((next + j : Nat) : Int)), true, leaf.trail ++ [.choice labels j]⟩ := by
      obtain ⟨_, hm, rfl⟩ := List.mem_map.1 hmid
      obtain ⟨⟨l, j⟩, hl, rfl⟩ := List.mem_map.1 hm
      exact ⟨j, by simpa using (List.mem_zipIdx' hl).1, rfl⟩
    obtain ⟨hnum, hbranch, honly⟩ := hleaf.branch hj
    have href := h.refines rfl
    have hrefines : leaf.condition.Refines next grown.condition :=
      ⟨href.isPath, fun k hk => (href.same k (by omega)).trans (hbranch.same k hk)⟩
    have himp' : grown.condition.implies c = true := by
      rw [hrefines.implies_eq hleaf.isPath hop.1]; exact himp
    have htaken : grown.condition.taken next labels.length = j := by
      refine Condition.taken_eq hj fun i hi => ?_
      rw [href.same _ (by simp only [ScopeOp.width]; omega)]
      exact honly i
    refine ⟨hnot, fun _ => hrefines, fun _ => ?_⟩
    simp [h.trail rfl, ScopeOp.passages, himp', htaken, ScopeOp.width]

/-- An operation that does not concern a leaf, followed by others. -/
theorem outgrown_of_not_implies {next : Nat} {op : ScopeOp δ ℓ} {rest : List (ScopeOp δ ℓ)}
    {leaf grown : Leaf δ ℓ} (hop : op.Legal next) (hleaf : leaf.condition.Numbered next)
    (himp : (leaf.isOpen && leaf.condition.implies op.condition) = false)
    (h : Outgrown (next + op.width) rest leaf grown) : Outgrown next (op :: rest) leaf grown := by
  refine ⟨h.closed, fun hopen => (h.refines hopen).weaken (by omega), fun hopen => ?_⟩
  have hown : leaf.condition.implies op.condition = false := by simpa [hopen] using himp
  have hgrown : grown.condition.implies op.condition = false := by
    rw [((h.refines hopen).weaken (by omega)).implies_eq hleaf.isPath hop.known, hown]
  rw [ScopeOp.passages_cons_of_not_implies hgrown, h.trail hopen]

namespace ScopeBuilder

/-- An operation keeps the conditions of leaves numbered. -/
theorem step_numbered (b : ScopeBuilder δ ℓ) {op : ScopeOp δ ℓ} (hop : op.Legal b.nextVar)
    (hb : ∀ leaf ∈ b.tree.leaves, leaf.condition.Numbered b.nextVar) :
    ∀ leaf ∈ (b.step op).tree.leaves, leaf.condition.Numbered (b.nextVar + op.width) := by
  rw [step_leaves b hop]
  intro mid hmid
  obtain ⟨leaf, hleaf, hmid⟩ := List.mem_flatMap.1 hmid
  have hnum := hb leaf hleaf
  unfold Leaf.change at hmid
  split at hmid
  · obtain ⟨new, hnew, rfl⟩ := List.mem_map.1 hmid
    cases op with
    | define c d =>
      obtain rfl : new = ⟨leaf.condition, true, [.definition d]⟩ := by simpa [ScopeOp.growth] using hnew
      exact hnum.weaken (by omega)
    | close c =>
      obtain rfl : new = ⟨leaf.condition, false, []⟩ := by simpa [ScopeOp.growth] using hnew
      exact hnum.weaken (by omega)
    | fork c labels =>
      obtain ⟨⟨l, j⟩, hl, rfl⟩ := List.mem_map.1 hnew
      have hj : j < (ScopeOp.fork (δ := δ) c labels).width := (List.mem_zipIdx' hl).1
      exact (hnum.branch hj).1
  · obtain rfl : mid = leaf := by simpa using hmid
    exact hnum.weaken (by omega)

/-- **Placement.** Every leaf after a run has grown out of a leaf before it, and what the run added to
the path is read off the operations by the condition of the grown leaf. -/
theorem run_leaf (ops : List (ScopeOp δ ℓ)) :
    ∀ b : ScopeBuilder δ ℓ, ScopeOp.LegalFrom b.nextVar ops →
      (∀ leaf ∈ b.tree.leaves, leaf.condition.Numbered b.nextVar) →
      ∀ grown ∈ (b.run ops).tree.leaves, ∃ leaf ∈ b.tree.leaves, Outgrown b.nextVar ops leaf grown := by
  induction ops with
  | nil =>
    intro b _ hb grown hgrown
    exact ⟨grown, hgrown, fun _ => rfl, fun _ => ⟨(hb grown hgrown).isPath, fun _ _ => Iff.rfl⟩,
      fun _ => by simp [ScopeOp.passages]⟩
  | cons op ops ih =>
    intro b hlegal hb grown hgrown
    obtain ⟨hop, hrest⟩ := hlegal
    have hnum := step_numbered b hop hb
    rw [← step_nextVar] at hrest hnum
    obtain ⟨mid, hmid, hout⟩ := ih (b.step op) hrest hnum grown hgrown
    rw [step_leaves b hop] at hmid
    obtain ⟨leaf, hleaf, hmid⟩ := List.mem_flatMap.1 hmid
    rw [step_nextVar] at hout
    refine ⟨leaf, hleaf, ?_⟩
    unfold Leaf.change at hmid
    split at hmid
    · rename_i h
      obtain ⟨hopen, himp⟩ := Bool.and_eq_true_iff.1 h
      exact outgrown_of_growth hop (hb leaf hleaf) hopen himp hmid hout
    · rename_i h
      obtain rfl : mid = leaf := by simpa using hmid
      exact outgrown_of_not_implies hop (hb mid hleaf) (by simpa using h) hout

end ScopeBuilder

/-! ## One branch of every fork -/

namespace ScopeOp

/-- Of the branches that one operation numbers, `s` has at most one. -/
def SingleFrom (s : Condition) : Nat → List (ScopeOp δ ℓ) → Prop
  | _, [] => True
  | next, op :: rest =>
    (∀ i < op.width, ∀ j < op.width, ((next + i : Nat) : Int) ∈ s.literals → ((next + j : Nat) : Int) ∈ s.literals →
      i = j) ∧
    SingleFrom s (next + op.width) rest

theorem singleFrom_append {s : Condition} {next : Nat} {ops more : List (ScopeOp δ ℓ)} :
    SingleFrom s next (ops ++ more) ↔ SingleFrom s next ops ∧ SingleFrom s (next + widths ops) more := by
  induction ops generalizing next with
  | nil => simp [SingleFrom, widths]
  | cons op ops ih => simp [SingleFrom, widths, ih, and_assoc, Nat.add_assoc]

end ScopeOp

namespace ScopeBuilder

/-- What a leaf of the next step has below the next number is at most one of the new branches. -/
theorem step_single (b : ScopeBuilder δ ℓ) {op : ScopeOp δ ℓ} (hop : op.Legal b.nextVar)
    (hb : ∀ leaf ∈ b.tree.leaves, leaf.condition.Numbered b.nextVar) {mid : Leaf δ ℓ}
    (hmid : mid ∈ (b.step op).tree.leaves) {i j : Nat} (hi : ((b.nextVar + i : Nat) : Int) ∈ mid.condition.literals)
    (hj : ((b.nextVar + j : Nat) : Int) ∈ mid.condition.literals) : i = j := by
  rw [step_leaves b hop] at hmid
  obtain ⟨leaf, hleaf, hmid⟩ := List.mem_flatMap.1 hmid
  have hnum := hb leaf hleaf
  have hold : ∀ {n : Nat}, ((b.nextVar + n : Nat) : Int) ∉ leaf.condition.literals := fun {n} hn => by
    have := hnum.below _ hn; omega
  unfold Leaf.change at hmid
  split at hmid
  · obtain ⟨new, hnew, rfl⟩ := List.mem_map.1 hmid
    cases op with
    | define c d =>
      obtain rfl : new = ⟨leaf.condition, true, [.definition d]⟩ := by simpa [ScopeOp.growth] using hnew
      exact absurd hi hold
    | close c =>
      obtain rfl : new = ⟨leaf.condition, false, []⟩ := by simpa [ScopeOp.growth] using hnew
      exact absurd hi hold
    | fork c labels =>
      obtain ⟨⟨l, k⟩, hl, rfl⟩ := List.mem_map.1 hnew
      obtain ⟨_, _, honly⟩ := hnum.branch (List.mem_zipIdx' hl).1
      rw [(honly i).1 hi, (honly j).1 hj]
  · obtain rfl : mid = leaf := by simpa using hmid
    exact absurd hi hold

theorem run_single (ops : List (ScopeOp δ ℓ)) :
    ∀ b : ScopeBuilder δ ℓ, ScopeOp.LegalFrom b.nextVar ops →
      (∀ leaf ∈ b.tree.leaves, leaf.condition.Numbered b.nextVar) →
      ∀ grown ∈ (b.run ops).tree.leaves, ScopeOp.SingleFrom grown.condition b.nextVar ops := by
  induction ops with
  | nil => exact fun _ _ _ _ _ => trivial
  | cons op ops ih =>
    intro b hlegal hb grown hgrown
    obtain ⟨hop, hrest⟩ := hlegal
    have hnum := step_numbered b hop hb
    rw [← step_nextVar] at hrest hnum
    obtain ⟨mid, hmid, hout⟩ := run_leaf ops (b.step op) hrest hnum grown hgrown
    have hsingle := ih (b.step op) hrest hnum grown hgrown
    rw [step_nextVar] at hsingle hout
    refine ⟨fun i hi j hj hgi hgj => ?_, hsingle⟩
    -- the grown leaf has no other literals below the next number than the leaf it came from
    have hback : ∀ n < op.width, ((b.nextVar + n : Nat) : Int) ∈ grown.condition.literals →
        ((b.nextVar + n : Nat) : Int) ∈ mid.condition.literals := by
      intro n hn hmem
      cases hopen : mid.isOpen with
      | true => exact ((hout.refines hopen).same _ (by omega)).1 hmem
      | false => rwa [hout.closed hopen] at hmem
    exact step_single b hop hb hmid (hback i hi hgi) (hback j hj hgj)

end ScopeBuilder

/-! ## The record of scopes -/

/-- Scopes as a list of records: the conditions of the open ones, and all that were ever made, with
their labels. -/
structure Ledger (ℓ : Type) where
  active : List Condition := [.always]
  next : Nat := 1
  created : List (ℓ × Condition) := []

namespace Ledger

/-- The scopes that a fork makes inside one of condition `own`. -/
def children (next : Nat) (labels : List ℓ) (own : Condition) : List (ℓ × Condition) :=
  labels.zipIdx.map fun (l, j) => (l, own.and (.literal ((next + j : Nat) : Int)))

/-- An operation changes the list of open scopes, and a fork makes new ones. -/
def step (g : Ledger ℓ) : ScopeOp δ ℓ → Ledger ℓ
  | .define _ _ => g
  | .close c => { g with active := g.active.filter fun own => !own.implies c }
  | .fork c labels =>
    { active := g.active.flatMap fun own =>
        if own.implies c then (children g.next labels own).map (·.2) else [own]
      next := g.next + labels.length
      created := g.created ++ (g.active.filter (·.implies c)).flatMap (children g.next labels) }

def run (g : Ledger ℓ) (ops : List (ScopeOp δ ℓ)) : Ledger ℓ := ops.foldl step g

/-- The ledger records what the builder holds. -/
structure Records (g : Ledger ℓ) (b : ScopeBuilder δ ℓ) : Prop where
  active : b.tree.active = g.active
  next : b.nextVar = g.next
  entries : b.tree.entries.Perm g.created

theorem activeList_fresh (cs : List (ℓ × Condition)) :
    ScopeTree.activeList (cs.map fun p => ((p.1, .fresh p.2) : ℓ × ScopeTree δ ℓ)) = cs.map (·.2) := by
  induction cs with
  | nil => rfl
  | cons p cs ih => simp [ScopeTree.activeList, ih]

theorem childEntries_fresh (cs : List (ℓ × Condition)) :
    ScopeTree.childEntries (cs.map fun p => ((p.1, .fresh p.2) : ℓ × ScopeTree δ ℓ)) = cs := by
  induction cs with
  | nil => rfl
  | cons p cs ih => simp [ScopeTree.childEntries, ih]

theorem branchVars_children (b : ScopeBuilder δ ℓ) (labels : List ℓ) (own : Condition) :
    ((b.branchVars labels).map fun (l, k) => ((l, .fresh (own.and (.literal k))) : ℓ × ScopeTree δ ℓ)) =
      (children b.nextVar labels own).map fun p => (p.1, .fresh p.2) := by
  simp [ScopeBuilder.branchVars, children, Function.comp_def]

theorem Records.step {g : Ledger ℓ} {b : ScopeBuilder δ ℓ} (h : g.Records b) (op : ScopeOp δ ℓ) :
    (g.step op).Records (b.step op) := by
  obtain ⟨hactive, hnext, hentries⟩ := h
  have hnone : ∀ cs : List Condition, cs.flatMap (fun _ => ([] : List (ℓ × Condition))) = [] :=
    fun cs => List.flatMap_eq_nil_iff.2 fun _ _ => rfl
  cases op with
  | define c d =>
    refine ⟨?_, hnext, ?_⟩
    · refine (ScopeTree.update_active (fun own => [own]) (fun own ds => rfl) b.tree).trans ?_
      simp [hactive, Ledger.step]
    · refine (ScopeTree.update_entries (fun _ => []) (fun _ _ => rfl) (fun _ _ => rfl) b.tree).trans ?_
      rw [hnone, List.append_nil]
      exact hentries
  | close c =>
    refine ⟨?_, hnext, ?_⟩
    · refine (ScopeTree.update_active (fun _ => []) (fun own ds => rfl) b.tree).trans ?_
      rw [hactive, Ledger.step]
      induction g.active with
      | nil => rfl
      | cons own rest ih => by_cases himp : own.implies c = true <;> simp [himp, ih]
    · refine (ScopeTree.update_entries (fun _ => []) (fun _ _ => rfl) (fun _ _ => rfl) b.tree).trans ?_
      rw [hnone, List.append_nil]
      exact hentries
  | fork c labels =>
    refine ⟨?_, by simp [ScopeBuilder.step, ScopeBuilder.fork, Ledger.step, hnext], ?_⟩
    · refine (ScopeTree.update_active (fun own => (children b.nextVar labels own).map (·.2))
        (fun own ds => ?_) b.tree).trans ?_
      · simp only [branchVars_children, ScopeTree.active, Bool.false_eq_true, if_false, activeList_fresh]
      · rw [hactive, hnext]
        rfl
    · refine (ScopeTree.update_entries (children b.nextVar labels) (fun _ _ => rfl)
        (fun own ds => ?_) b.tree).trans ?_
      · simp only [branchVars_children, ScopeTree.entries, Bool.false_eq_true, if_false, childEntries_fresh]
      · rw [hactive, hnext]
        exact hentries.append_right _

theorem Records.run {g : Ledger ℓ} {b : ScopeBuilder δ ℓ} (h : g.Records b) (ops : List (ScopeOp δ ℓ)) :
    (g.run ops).Records (b.run ops) := by
  induction ops generalizing g b with
  | nil => exact h
  | cons op ops ih => exact ih (h.step op)

theorem records_start : Records ({} : Ledger ℓ) (ScopeBuilder.start : ScopeBuilder δ ℓ) :=
  ⟨rfl, rfl, List.Perm.refl _⟩

end Ledger

/-! ## No two scopes are alike -/

namespace Condition

/-- Some literal stands in one of the conditions and not in the other. -/
def Apart (s t : Condition) : Prop := ∃ k, ¬ (k ∈ s.literals ↔ k ∈ t.literals)

theorem Apart.ne {s t : Condition} (h : Apart s t) : s ≠ t := by
  rintro rfl
  obtain ⟨k, hk⟩ := h
  exact hk Iff.rfl

/-- Scopes inside different scopes stay different. -/
theorem Apart.refine {next : Nat} {s t s' t' : Condition} (hs : s.Numbered next) (ht : t.Numbered next)
    (hs' : Refines next s s') (ht' : Refines next t t') (h : Apart s t) : Apart s' t' := by
  obtain ⟨k, hk⟩ := h
  have hlt : k < (next : Int) := by
    by_cases hmem : k ∈ s.literals
    · exact hs.below k hmem
    · exact ht.below k (by tauto)
  refine ⟨k, ?_⟩
  rw [hs'.same k hlt, ht'.same k hlt]
  exact hk

end Condition

namespace Ledger

open Condition (Apart)

/-- A new scope is numbered, lies inside the scope that forked, and has a new literal. -/
theorem mem_children {next : Nat} {labels : List ℓ} {own : Condition} (hown : own.Numbered next)
    {e : ℓ × Condition} (he : e ∈ children next labels own) :
    e.2.Numbered (next + labels.length) ∧ own.Refines next e.2 ∧
      ∃ j : Nat, ((next + j : Nat) : Int) ∈ e.2.literals := by
  obtain ⟨⟨l, j⟩, hl, rfl⟩ := List.mem_map.1 he
  have hj : j < labels.length := (List.mem_zipIdx' hl).1
  obtain ⟨hnum, href, honly⟩ := hown.branch hj
  exact ⟨hnum, href, j, (honly j).2 rfl⟩

theorem children_apart {next : Nat} (labels : List ℓ) {own : Condition} (hown : own.Numbered next) :
    ((children next labels own).map (·.2)).Pairwise Apart := by
  rw [List.pairwise_iff_getElem]
  intro i j hi hj hij
  have hlen : j < labels.length := by simpa [children] using hj
  simp only [children, List.getElem_map, List.getElem_zipIdx, Nat.zero_add]
  refine ⟨((next + i : Nat) : Int), ?_⟩
  rw [(hown.branch (show i < labels.length by omega)).2.2 i, (hown.branch hlen).2.2 i]
  omega

/-- All scopes of the ledger are told apart by their literals. -/
structure Sound (g : Ledger ℓ) : Prop where
  numbered : ∀ own ∈ g.active, own.Numbered g.next
  madeNumbered : ∀ e ∈ g.created, e.2.Numbered g.next
  apart : g.active.Pairwise Apart
  madeApart : (g.created.map (·.2)).Pairwise Apart

theorem sound_start : Sound ({} : Ledger ℓ) := by
  constructor <;> simp [Condition.numbered_always]

theorem Sound.fork {g : Ledger ℓ} (h : g.Sound) (c : Condition) (labels : List ℓ) :
    (g.step (.fork c labels : ScopeOp δ ℓ)).Sound := by
  have hrefl : ∀ own ∈ g.active, own.Refines g.next own :=
    fun own hmem => ⟨(h.numbered own hmem).isPath, fun _ _ => Iff.rfl⟩
  -- what stands in the place of an open scope lies inside it
  have hplace : ∀ own ∈ g.active, ∀ s ∈ (if own.implies c then (children g.next labels own).map (·.2) else [own]),
      s.Numbered (g.next + labels.length) ∧ own.Refines g.next s := by
    intro own hmem s hs
    split at hs
    · obtain ⟨e, he, rfl⟩ := List.mem_map.1 hs
      obtain ⟨hnum, href, _⟩ := mem_children (h.numbered own hmem) he
      exact ⟨hnum, href⟩
    · obtain rfl : s = own := by simpa using hs
      exact ⟨(h.numbered s hmem).weaken (by omega), hrefl s hmem⟩
  have hnew : ∀ e ∈ (g.active.filter (·.implies c)).flatMap (children g.next labels),
      ∃ own ∈ g.active, e ∈ children g.next labels own := by
    intro e he
    obtain ⟨own, hown, he⟩ := List.mem_flatMap.1 he
    exact ⟨own, (List.mem_filter.1 hown).1, he⟩
  constructor
  · intro s hs
    obtain ⟨own, hmem, hs⟩ := List.mem_flatMap.1 hs
    exact (hplace own hmem s hs).1
  · intro e he
    rcases List.mem_append.1 he with he | he
    · exact (h.madeNumbered e he).weaken (by simp [Ledger.step])
    · obtain ⟨own, hmem, he⟩ := hnew e he
      exact (mem_children (h.numbered own hmem) he).1
  · refine List.pairwise_flatMap.2 ⟨fun own hmem => ?_, ?_⟩
    · split
      · exact children_apart labels (h.numbered own hmem)
      · simp
    · refine h.apart.imp_of_mem fun {s t} hs ht hst => ?_
      exact fun s' hs' t' ht' => hst.refine (h.numbered s hs) (h.numbered t ht)
        (hplace s hs s' hs').2 (hplace t ht t' ht').2
  · simp only [Ledger.step, List.map_append, List.map_flatMap]
    refine List.pairwise_append.2 ⟨h.madeApart, List.pairwise_flatMap.2 ⟨fun own hmem => ?_, ?_⟩, ?_⟩
    · exact children_apart labels (h.numbered own (List.mem_filter.1 hmem).1)
    · refine (h.apart.filter _).imp_of_mem fun {s t} hs ht hst => ?_
      have hs := (List.mem_filter.1 hs).1
      have ht := (List.mem_filter.1 ht).1
      intro s' hs' t' ht'
      obtain ⟨e, he, rfl⟩ := List.mem_map.1 hs'
      obtain ⟨e', he', rfl⟩ := List.mem_map.1 ht'
      exact hst.refine (h.numbered s hs) (h.numbered t ht) (mem_children (h.numbered s hs) he).2.1
        (mem_children (h.numbered t ht) he').2.1
    · intro s hs t ht
      obtain ⟨e, he, rfl⟩ := List.mem_map.1 hs
      obtain ⟨own, hmem, ht⟩ := List.mem_flatMap.1 ht
      obtain ⟨e', he', rfl⟩ := List.mem_map.1 ht
      obtain ⟨_, _, j, hj⟩ := mem_children (h.numbered own (List.mem_filter.1 hmem).1) he'
      refine ⟨((g.next + j : Nat) : Int), fun hiff => ?_⟩
      have := (h.madeNumbered e he).below _ (hiff.2 hj)
      omega

theorem Sound.step {g : Ledger ℓ} (h : g.Sound) (op : ScopeOp δ ℓ) : (g.step op).Sound := by
  cases op with
  | define c d => exact h
  | close c =>
    exact ⟨fun own hmem => h.numbered own (List.mem_filter.1 hmem).1, h.madeNumbered, h.apart.filter _,
      h.madeApart⟩
  | fork c labels => exact h.fork c labels

theorem Sound.run {g : Ledger ℓ} (h : g.Sound) (ops : List (ScopeOp δ ℓ)) : (g.run ops).Sound := by
  induction ops generalizing g with
  | nil => exact h
  | cons op ops ih => exact ih (h.step op)

end Ledger

/-! ## The finished blocks -/

namespace ScopeBuilder

theorem extract_ok {b : ScopeBuilder δ ℓ} {block : Block δ ℓ} (h : b.extract = .ok block) :
    b.openScopes = 0 ∧ b.tree.toBlock = .ok block := by
  unfold extract at h
  split at h
  · rename_i hopen
    exact ⟨hopen, h⟩
  · cases h

theorem start_leaf {first : Leaf δ ℓ} (hfirst : first ∈ (start : ScopeBuilder δ ℓ).tree.leaves) :
    first = ⟨.always, true, []⟩ := by
  simpa [start, ScopeTree.fresh, ScopeTree.leaves] using hfirst

theorem start_numbered : ∀ first ∈ (start : ScopeBuilder δ ℓ).tree.leaves, first.condition.Numbered 1 := by
  intro first hfirst
  rw [start_leaf hfirst]
  exact Condition.numbered_always

/-- A leaf of a run from the start: the path to it is what its condition selects. -/
theorem run_start_leaf {ops : List (ScopeOp δ ℓ)} (hlegal : ScopeOp.LegalFrom 1 ops) {leaf : Leaf δ ℓ}
    (hleaf : leaf ∈ (start.run ops).tree.leaves) :
    leaf.condition.IsPath ∧ leaf.trail = ScopeOp.passages leaf.condition 1 ops := by
  obtain ⟨first, hfirst, hout⟩ := run_leaf ops start hlegal start_numbered leaf hleaf
  obtain rfl := start_leaf hfirst
  exact ⟨(hout.refines rfl).isPath, (hout.trail rfl).trans (List.nil_append _)⟩

/-- **Exact placement.** Take any legal operations after which the blocks can be extracted. The leaves
of the block are those of the scopes, in the same order, and the definitions on the path to a leaf
are the ones that its condition selects. The branches of the block are the scopes ever made, each
once and under its own label. -/
theorem extract_placement {ops : List (ScopeOp δ ℓ)} (hlegal : ScopeOp.LegalFrom 1 ops) {block : Block δ ℓ}
    (hblock : (start.run ops).extract = .ok block) :
    (block.trails = (start.run ops).tree.leaves.map Leaf.trail ∧
      ∀ leaf ∈ (start.run ops).tree.leaves, leaf.trail.definitions = ScopeOp.placed leaf.condition ops) ∧
    block.labels = (start.run ops).tree.entries.map (·.1) ∧
      (start.run ops).tree.entries.Perm (({} : Ledger ℓ).run ops).created ∧
      ((start.run ops).tree.entries.map (·.2)).Nodup := by
  obtain ⟨hopen, htree⟩ := extract_ok hblock
  have hentries := (Ledger.records_start.run ops).entries
  have hapart := (Ledger.sound_start.run ops).madeApart
  refine ⟨⟨ScopeTree.toBlock_trails hopen htree, fun leaf hleaf => ?_⟩, ScopeTree.toBlock_labels hopen htree,
    hentries, ?_⟩
  · rw [(run_start_leaf hlegal hleaf).2, ScopeOp.passages_definitions]
  · exact (hentries.map _).nodup_iff.2 (hapart.imp Condition.Apart.ne)

/-- A definition, a fork, one definition for the first branch and one for both. -/
theorem extract_placement_forked :
    let ops : List (ScopeOp String String) :=
      [.define .always "a", .fork .always ["x", "y"], .define (.literal 1) "b", .define .always "c",
        .close (.literal 1), .define .always "d", .close .always]
    let block : Block String String := .mk ["a"] [("x", .mk ["b", "c"] []), ("y", .mk ["c", "d"] [])]
    (start.run ops).extract = .ok block ∧
      ∀ leaf ∈ (start.run ops).tree.leaves, leaf.trail.definitions = ScopeOp.placed leaf.condition ops := by
  intro ops block
  have hlegal : ScopeOp.LegalFrom 1 ops := by
    refine ⟨.always, ⟨.always, by simp⟩, .literal (by decide), .always, .literal (by decide), .always, .always, trivial⟩
  have hblock : (start.run ops).extract = .ok block := rfl
  exact ⟨hblock, (extract_placement hlegal hblock).1.2⟩

end ScopeBuilder

end Dataflow
