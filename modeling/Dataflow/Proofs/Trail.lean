import Dataflow.Scope
import Mathlib.Tactic.Common

/-!
# Paths through blocks

A trail is what a run meets on its way from a block to a leaf: the definitions, and at every fork
the labels with the number of the branch it takes. Scopes that are being built have leaves too, each
with the condition of its scope. When no scope is open, the leaves of the scopes and the trails of
the extracted block are the same ones, in the same order.
-/

namespace Dataflow

variable {δ ℓ : Type}

/-- What a path meets. -/
inductive Passage (δ ℓ : Type) where
  | definition (d : δ)
  /-- A fork, of whose branches the one numbered `taken` is entered. -/
  | choice (labels : List ℓ) (taken : Nat)

namespace Passage

def definition? : Passage δ ℓ → Option δ
  | .definition d => some d
  | .choice _ _ => none

end Passage

abbrev Trail (δ ℓ : Type) := List (Passage δ ℓ)

/-- The definitions on a path. -/
def Trail.definitions (τ : Trail δ ℓ) : List δ := τ.filterMap Passage.definition?

theorem Trail.definitions_append (τ σ : Trail δ ℓ) : (τ ++ σ).definitions = τ.definitions ++ σ.definitions :=
  List.filterMap_append

namespace Block

mutual

/-- The paths from a block to its leaves, from left to right. -/
def trails : Block δ ℓ → List (Trail δ ℓ)
  | .mk ds branches =>
    if branches.isEmpty then [ds.map .definition]
    else (branchTrails (branches.map (·.1)) 0 branches).map (ds.map .definition ++ ·)
termination_by structural b => b

/-- The paths through branches that are numbered from `k`. -/
def branchTrails (labels : List ℓ) (k : Nat) : List (ℓ × Block δ ℓ) → List (Trail δ ℓ)
  | [] => []
  | (_, b) :: rest => (trails b).map (.choice labels k :: ·) ++ branchTrails labels (k + 1) rest
termination_by structural bs => bs

end

/-- Every block has a leaf below it. -/
theorem trails_ne_nil : ∀ b : Block δ ℓ, b.trails ≠ []
  | .mk ds [] => by simp [trails]
  | .mk ds ((l, b) :: rest) => by
    have hb := trails_ne_nil b
    simp [trails, branchTrails, hb]

mutual

/-- The labels of all branches, each before those behind it. -/
def labels : Block δ ℓ → List ℓ
  | .mk _ branches => branchLabels branches
termination_by structural b => b

def branchLabels : List (ℓ × Block δ ℓ) → List ℓ
  | [] => []
  | (l, b) :: rest => l :: (labels b ++ branchLabels rest)
termination_by structural bs => bs

end

end Block

namespace ScopeTree

/-- A scope without children: its condition, whether it is open, and the path to it. -/
structure Leaf (δ ℓ : Type) where
  condition : Condition
  isOpen : Bool
  trail : Trail δ ℓ

/-- The leaf with more in front of it. -/
def Leaf.behind (τ : Trail δ ℓ) (leaf : Leaf δ ℓ) : Leaf δ ℓ :=
  { leaf with trail := τ ++ leaf.trail }

mutual

/-- The scopes without children, from left to right. -/
def leaves : ScopeTree δ ℓ → List (Leaf δ ℓ)
  | .mk c ds isOpen children =>
    if isOpen || children.isEmpty then [⟨c, isOpen, ds.map .definition⟩]
    else (childLeaves (children.map (·.1)) 0 children).map (Leaf.behind (ds.map .definition))
termination_by structural t => t

def childLeaves (labels : List ℓ) (k : Nat) : List (ℓ × ScopeTree δ ℓ) → List (Leaf δ ℓ)
  | [] => []
  | (_, t) :: rest =>
    (leaves t).map (Leaf.behind [.choice labels k]) ++ childLeaves labels (k + 1) rest
termination_by structural ts => ts

end

mutual

/-- The scopes below the first one, with the labels they stand under. -/
def entries : ScopeTree δ ℓ → List (ℓ × Condition)
  | .mk _ _ isOpen children => if isOpen then [] else childEntries children
termination_by structural t => t

def childEntries : List (ℓ × ScopeTree δ ℓ) → List (ℓ × Condition)
  | [] => []
  | (l, t) :: rest => (l, t.condition) :: (entries t ++ childEntries rest)
termination_by structural ts => ts

end

mutual

/-- The conditions of the open scopes, from left to right. -/
def active : ScopeTree δ ℓ → List Condition
  | .mk c _ isOpen children => if isOpen then [c] else activeList children
termination_by structural t => t

def activeList : List (ℓ × ScopeTree δ ℓ) → List Condition
  | [] => []
  | (_, t) :: rest => active t ++ activeList rest
termination_by structural ts => ts

end

@[simp] theorem fresh_condition (c : Condition) : (fresh c : ScopeTree δ ℓ).condition = c := rfl

@[simp] theorem fresh_active (c : Condition) : (fresh c : ScopeTree δ ℓ).active = [c] := rfl

@[simp] theorem fresh_entries (c : Condition) : (fresh c : ScopeTree δ ℓ).entries = [] := rfl

/-! ## Extraction keeps the leaves -/

theorem count_mk_eq_zero {c : Condition} {ds : List δ} {isOpen : Bool} {children : List (ℓ × ScopeTree δ ℓ)}
    (h : count (fun _ => true) (.mk c ds isOpen children) = 0) :
    isOpen = false ∧ countList (fun _ => true) children = 0 := by
  cases isOpen <;> simp_all [count]

theorem toBlock_mk {c : Condition} {ds : List δ} {isOpen : Bool} {children : List (ℓ × ScopeTree δ ℓ)}
    {b : Block δ ℓ} (h : toBlock (.mk c ds isOpen children) = .ok b) :
    ∃ branches, toBlocks children = .ok branches ∧ b = .mk ds branches := by
  simp only [toBlock] at h
  split at h
  · rename_i branches hb
    exact ⟨branches, hb, by simpa using h.symm⟩
  · cases h

theorem toBlocks_cons {l : ℓ} {t : ScopeTree δ ℓ} {rest : List (ℓ × ScopeTree δ ℓ)} {bs : List (ℓ × Block δ ℓ)}
    (h : toBlocks ((l, t) :: rest) = .ok bs) :
    ∃ b bs', toBlock t = .ok b ∧ toBlocks rest = .ok bs' ∧ bs = (l, b) :: bs' := by
  simp only [toBlocks] at h
  split at h
  · cases h
  · rename_i b hb
    split at h
    · cases h
    · split at h
      · rename_i bs' hbs
        exact ⟨b, bs', hb, hbs, by simpa using h.symm⟩
      · cases h

theorem toBlocks_labels : ∀ {children : List (ℓ × ScopeTree δ ℓ)} {bs : List (ℓ × Block δ ℓ)},
    toBlocks children = .ok bs → bs.map (·.1) = children.map (·.1)
  | [], _, h => by cases h; rfl
  | (l, t) :: rest, bs, h => by
    obtain ⟨b, bs', _, hbs, rfl⟩ := toBlocks_cons h
    simp [toBlocks_labels hbs]

mutual

theorem toBlock_trails : ∀ {t : ScopeTree δ ℓ} {b : Block δ ℓ},
    count (fun _ => true) t = 0 → t.toBlock = .ok b → b.trails = t.leaves.map Leaf.trail
  | .mk c ds isOpen children, b, hopen, h => by
    obtain ⟨rfl, hchildren⟩ := count_mk_eq_zero hopen
    obtain ⟨branches, hbs, rfl⟩ := toBlock_mk h
    have hlabels := toBlocks_labels hbs
    have hempty : branches.isEmpty = children.isEmpty := by
      simpa using congrArg List.isEmpty hlabels
    simp only [Block.trails, leaves, Bool.false_or, hempty, hlabels]
    split
    · rfl
    -- the definitions of the block stand before every trail of its branches
    · rw [toBlocks_trails _ _ hchildren hbs, List.map_map, List.map_map]
      rfl

theorem toBlocks_trails (labels : List ℓ) (k : Nat) :
    ∀ {children : List (ℓ × ScopeTree δ ℓ)} {bs : List (ℓ × Block δ ℓ)},
      countList (fun _ => true) children = 0 → toBlocks children = .ok bs →
        Block.branchTrails labels k bs = (childLeaves labels k children).map Leaf.trail
  | [], _, _, h => by cases h; rfl
  | (l, t) :: rest, bs, hopen, h => by
    obtain ⟨b, bs', hb, hbs, rfl⟩ := toBlocks_cons h
    simp only [countList, Nat.add_eq_zero_iff] at hopen
    simp only [Block.branchTrails, childLeaves, toBlock_trails hopen.1 hb, toBlocks_trails labels (k + 1) hopen.2 hbs,
      List.map_append, List.map_map]
    rfl

end

mutual

theorem toBlock_labels : ∀ {t : ScopeTree δ ℓ} {b : Block δ ℓ},
    count (fun _ => true) t = 0 → t.toBlock = .ok b → b.labels = t.entries.map (·.1)
  | .mk c ds isOpen children, b, hopen, h => by
    obtain ⟨rfl, hchildren⟩ := count_mk_eq_zero hopen
    obtain ⟨branches, hbs, rfl⟩ := toBlock_mk h
    simpa [Block.labels, entries] using toBlocks_entries hchildren hbs

theorem toBlocks_entries : ∀ {children : List (ℓ × ScopeTree δ ℓ)} {bs : List (ℓ × Block δ ℓ)},
    countList (fun _ => true) children = 0 → toBlocks children = .ok bs →
      Block.branchLabels bs = (childEntries children).map (·.1)
  | [], _, _, h => by cases h; rfl
  | (l, t) :: rest, bs, hopen, h => by
    obtain ⟨b, bs', hb, hbs, rfl⟩ := toBlocks_cons h
    simp only [countList, Nat.add_eq_zero_iff] at hopen
    simp [Block.branchLabels, childEntries, toBlock_labels hopen.1 hb, toBlocks_entries hopen.2 hbs]

end

/-! ## Updates of open scopes act on the open leaves -/

theorem updateList_labels {c : Condition} {f : Condition → List δ → ScopeTree δ ℓ} :
    ∀ children : List (ℓ × ScopeTree δ ℓ), (updateList c f children).map (·.1) = children.map (·.1)
  | [] => rfl
  | (l, t) :: rest => by simp [updateList, updateList_labels rest]

theorem updateList_isEmpty {c : Condition} {f : Condition → List δ → ScopeTree δ ℓ}
    (children : List (ℓ × ScopeTree δ ℓ)) : (updateList c f children).isEmpty = children.isEmpty := by
  cases children <;> rfl

/-- What becomes of a leaf when the open scopes that imply `c` are changed: the leaves of the change
stand behind it. -/
def Leaf.change (c : Condition) (g : Condition → List (Leaf δ ℓ)) (leaf : Leaf δ ℓ) : List (Leaf δ ℓ) :=
  if leaf.isOpen && leaf.condition.implies c then (g leaf.condition).map (Leaf.behind leaf.trail) else [leaf]

theorem behind_behind (σ τ : Trail δ ℓ) (leaf : Leaf δ ℓ) :
    (leaf.behind τ).behind σ = leaf.behind (σ ++ τ) := by simp [Leaf.behind]

theorem change_behind (c : Condition) (g : Condition → List (Leaf δ ℓ)) (τ : Trail δ ℓ) (leaf : Leaf δ ℓ) :
    (leaf.behind τ).change c g = (leaf.change c g).map (Leaf.behind τ) := by
  by_cases h : (leaf.isOpen && leaf.condition.implies c) = true
  · have hb : (leaf.behind τ).isOpen && (leaf.behind τ).condition.implies c := h
    simp only [Leaf.change, h, hb, if_true, List.map_map]
    exact List.map_congr_left fun next _ => (behind_behind τ leaf.trail next).symm
  · have hb : ¬ ((leaf.behind τ).isOpen && (leaf.behind τ).condition.implies c) = true := h
    simp only [Leaf.change, h, hb, Bool.false_eq_true, if_false, List.map_cons, List.map_nil]

theorem flatMap_change_behind (c : Condition) (g : Condition → List (Leaf δ ℓ)) (τ : Trail δ ℓ)
    (ls : List (Leaf δ ℓ)) :
    (ls.map (Leaf.behind τ)).flatMap (Leaf.change c g) = (ls.flatMap (Leaf.change c g)).map (Leaf.behind τ) := by
  induction ls with
  | nil => rfl
  | cons leaf ls ih => simp [change_behind, ih]

section
variable {c : Condition} {f : Condition → List δ → ScopeTree δ ℓ} {g : Condition → List (Leaf δ ℓ)}

mutual

theorem update_leaves (hf : ∀ own ds, (f own ds).leaves = (g own).map (Leaf.behind (ds.map .definition))) :
    ∀ t : ScopeTree δ ℓ, (update c f t).leaves = t.leaves.flatMap (Leaf.change c g)
  | .mk own ds isOpen children => by
    simp only [update]
    split
    · rename_i h
      have hopen : isOpen = true := (Bool.and_eq_true_iff.1 h).1
      subst hopen
      simp only [leaves, Bool.true_or, if_true, List.flatMap_cons, List.flatMap_nil, List.append_nil, Leaf.change, h]
      exact hf own ds
    · rename_i h
      simp only [leaves, updateList_isEmpty, updateList_labels]
      split
      · simp [Leaf.change, h]
      · rw [updateList_leaves hf, flatMap_change_behind]

theorem updateList_leaves (hf : ∀ own ds, (f own ds).leaves = (g own).map (Leaf.behind (ds.map .definition)))
    (labels : List ℓ) (k : Nat) :
    ∀ children : List (ℓ × ScopeTree δ ℓ),
      childLeaves labels k (updateList c f children) = (childLeaves labels k children).flatMap (Leaf.change c g)
  | [] => rfl
  | (l, t) :: rest => by
    simp only [updateList, childLeaves, update_leaves hf t, updateList_leaves hf labels (k + 1) rest,
      List.flatMap_append, flatMap_change_behind]

end

mutual

theorem update_active (h : Condition → List Condition) (hf : ∀ own ds, (f own ds).active = h own) :
    ∀ t : ScopeTree δ ℓ,
      (update c f t).active = t.active.flatMap fun own => if own.implies c then h own else [own]
  | .mk own ds isOpen children => by
    simp only [update]
    cases isOpen with
    | true =>
      by_cases himp : own.implies c = true
      · simp [active, himp, hf]
      · simp [active, himp]
    | false => simpa [active] using updateList_active h hf children

theorem updateList_active (h : Condition → List Condition) (hf : ∀ own ds, (f own ds).active = h own) :
    ∀ children : List (ℓ × ScopeTree δ ℓ),
      activeList (updateList c f children) =
        (activeList children).flatMap fun own => if own.implies c then h own else [own]
  | [] => rfl
  | (l, t) :: rest => by
    simp [updateList, activeList, update_active h hf t, updateList_active h hf rest]

end

theorem update_condition (hown : ∀ own ds, (f own ds).condition = own) (t : ScopeTree δ ℓ) :
    (update c f t).condition = t.condition := by
  cases t with
  | mk own ds isOpen children =>
    simp only [update]
    split
    · exact hown own ds
    · rfl

mutual

theorem update_entries (new : Condition → List (ℓ × Condition)) (hown : ∀ own ds, (f own ds).condition = own)
    (hf : ∀ own ds, (f own ds).entries = new own) :
    ∀ t : ScopeTree δ ℓ,
      (update c f t).entries.Perm (t.entries ++ (t.active.filter (·.implies c)).flatMap new)
  | .mk own ds isOpen children => by
    simp only [update]
    cases isOpen with
    | true =>
      by_cases himp : own.implies c = true
      · simp [active, entries, himp, hf]
      · simp [active, entries, himp]
    | false => simpa [active, entries] using updateList_entries new hown hf children

theorem updateList_entries (new : Condition → List (ℓ × Condition)) (hown : ∀ own ds, (f own ds).condition = own)
    (hf : ∀ own ds, (f own ds).entries = new own) :
    ∀ children : List (ℓ × ScopeTree δ ℓ),
      (childEntries (updateList c f children)).Perm
        (childEntries children ++ ((activeList children).filter (·.implies c)).flatMap new)
  | [] => List.Perm.refl _
  | (l, t) :: rest => by
    have ht := update_entries new hown hf t
    have hrest := updateList_entries new hown hf rest
    simp only [updateList, childEntries, activeList, update_condition hown, List.filter_append,
      List.flatMap_append, List.cons_append]
    refine List.Perm.cons _ ((ht.append hrest).trans ?_)
    simp only [List.append_assoc]
    refine List.Perm.append_left _ ?_
    rw [← List.append_assoc, ← List.append_assoc]
    exact List.Perm.append_right _ List.perm_append_comm

end

end

end ScopeTree

end Dataflow
