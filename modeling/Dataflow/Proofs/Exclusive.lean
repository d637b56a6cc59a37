import Dataflow.Proofs.Placement

/-!
# Forks are exclusive

A fork numbers its branches, and a scope below it has taken exactly one of them. So no condition of a
scope mentions two branches of one fork, and two scopes without children part at some fork: each has
taken a branch of it that the other has not (`ScopeBuilder.run_exclusive`). Nothing is assumed about the
conditions of the operations, which may mention branches that do not exist, and a fork may have no
labels at all.

The reason is local. `Forked` says of every scope how the conditions of its children differ from its own
and from each other, and an operation changes open scopes only, which have no children.
-/

namespace Dataflow

variable {δ ℓ : Type}

/-! ## The scopes of a tree -/

namespace ScopeTree

def children : ScopeTree δ ℓ → List (ℓ × ScopeTree δ ℓ)
  | .mk _ _ _ children => children

mutual

/-- A scope and all scopes below it. -/
def scopes : ScopeTree δ ℓ → List (ScopeTree δ ℓ)
  | .mk c ds isOpen children => .mk c ds isOpen children :: childScopes children
termination_by structural t => t

def childScopes : List (ℓ × ScopeTree δ ℓ) → List (ScopeTree δ ℓ)
  | [] => []
  | (_, t) :: rest => scopes t ++ childScopes rest
termination_by structural ts => ts

end

/-- The scopes without children, open or closed. -/
def childless (t : ScopeTree δ ℓ) : List (ScopeTree δ ℓ) := t.scopes.filter fun s => s.children.isEmpty

theorem mem_childScopes {ts : List (ℓ × ScopeTree δ ℓ)} {s : ScopeTree δ ℓ} :
    s ∈ childScopes ts ↔ ∃ x ∈ ts, s ∈ x.2.scopes := by
  induction ts with
  | nil => simp [childScopes]
  | cons x ts ih => simp [childScopes, ih]

section
variable (q : Condition → Bool)

mutual

theorem count_eq_zero : ∀ t : ScopeTree δ ℓ, (∀ s ∈ t.scopes, q s.condition = false) → count q t = 0
  | .mk c ds isOpen children, h => by
    have hown : q c = false := h (.mk c ds isOpen children) (by simp [scopes])
    have hchildren := countList_eq_zero children fun s hs => h s (by simp [scopes, hs])
    simp [count, hown, hchildren]

theorem countList_eq_zero :
    ∀ ts : List (ℓ × ScopeTree δ ℓ), (∀ s ∈ childScopes ts, q s.condition = false) → countList q ts = 0
  | [], _ => rfl
  | (_, t) :: rest, h => by
    have hfirst := count_eq_zero t fun s hs => h s (by simp [childScopes, hs])
    have hrest := countList_eq_zero rest fun s hs => h s (by simp [childScopes, hs])
    simp [countList, hfirst, hrest]

end

end

section
variable (c : Condition) (f : Condition → List δ → ScopeTree δ ℓ)

mutual

/-- An operation that concerns no scope changes none. -/
theorem update_eq_self :
    ∀ t : ScopeTree δ ℓ, (∀ s ∈ t.scopes, s.condition.implies c = false) → update c f t = t
  | .mk own ds isOpen children, h => by
    have hown : own.implies c = false := h (.mk own ds isOpen children) (by simp [scopes])
    have hchildren := updateList_eq_self children fun s hs => h s (by simp [scopes, hs])
    simp [update, hown, hchildren]

theorem updateList_eq_self :
    ∀ ts : List (ℓ × ScopeTree δ ℓ), (∀ s ∈ childScopes ts, s.condition.implies c = false) →
      updateList c f ts = ts
  | [], _ => rfl
  | (_, t) :: rest, h => by
    have hfirst := update_eq_self t fun s hs => h s (by simp [childScopes, hs])
    have hrest := updateList_eq_self rest fun s hs => h s (by simp [childScopes, hs])
    simp [updateList, hfirst, hrest]

end

end

end ScopeTree

/-! ## Conditions that part -/

namespace Condition

/-- No two branches of one fork; `together` says which branches belong to one. -/
def Single (together : Int → Int → Prop) (s : Condition) : Prop :=
  ∀ k ∈ s.literals, ∀ l ∈ s.literals, together k l → k = l

/-- The conditions have taken different branches of one fork. -/
def Parted (together : Int → Int → Prop) (s t : Condition) : Prop :=
  ∃ k l, together k l ∧ k ≠ l ∧ k ∈ s.literals ∧ l ∈ t.literals

variable {together : Int → Int → Prop} {s t : Condition}

theorem Parted.mono {s' t' : Condition} (hs : s.literals ⊆ s'.literals) (ht : t.literals ⊆ t'.literals)
    (h : Parted together s t) : Parted together s' t' := by
  obtain ⟨k, l, htogether, hne, hk, hl⟩ := h
  exact ⟨k, l, htogether, hne, hs hk, ht hl⟩

/-- Some term of `s` has all literals of some term of `t`. -/
theorem exists_terms_of_implies (ht : t.terms ≠ []) (h : s.implies t = true) :
    ∃ u ∈ s.terms, ∃ v ∈ t.terms, ∀ k ∈ v, k ∈ u := by
  have halways : t.isAlways = false := by simpa [isAlways] using ht
  simpa [implies, halways] using h

/-- A scope whose condition implies that of another has all its literals. -/
theorem literals_subset_of_implies (ht : t.IsPath) (h : s.implies t = true) : t.literals ⊆ s.literals := by
  intro k hk
  obtain ⟨v, hv, hkv⟩ := mem_literals.1 hk
  obtain ⟨u, hu, v', hv', hsub⟩ := exists_terms_of_implies (List.ne_nil_of_mem hv) h
  obtain rfl : v = v' := by
    match t, ht with
    | ⟨[w]⟩, _ => rw [List.mem_singleton.1 hv, List.mem_singleton.1 hv']
    | ⟨_ :: _ :: _⟩, ht => simp [IsPath] at ht
  exact mem_literals.2 ⟨u, hu, hsub k hkv⟩

/-- Every term of the condition of a branch has the literal of the branch. -/
theorem mem_terms_and_literal {c : Condition} {k : Int} :
    (c.and (literal k)).terms ≠ [] ∧ ∀ u ∈ (c.and (literal k)).terms, k ∈ u := by
  by_cases hc : c.terms = []
  · rw [and_of_always hc]
    simp [literal]
  · have hlit : (literal k).terms ≠ [] := by simp [literal]
    have hmem : ∀ u, u ∈ (c.and (literal k)).terms ↔ ∃ v ∈ c.terms, u = union v [k] := by
      intro u
      rw [mem_terms_and hc hlit]
      simp [literal]
    obtain ⟨v, hv⟩ := List.exists_mem_of_ne_nil _ hc
    refine ⟨List.ne_nil_of_mem ((hmem _).2 ⟨v, hv, rfl⟩), fun u hu => ?_⟩
    obtain ⟨v, _, rfl⟩ := (hmem u).1 hu
    simp

/-- The conditions of two branches together are implied by no condition that is single. -/
theorem Single.not_implies (hs : s.Single together) {c d : Condition} {k l : Int} (htogether : together k l)
    (hne : k ≠ l) : s.implies ((c.and (literal k)).and (d.and (literal l))) = false := by
  by_contra himp
  obtain ⟨hc, hck⟩ := mem_terms_and_literal (c := c) (k := k)
  obtain ⟨hd, hdl⟩ := mem_terms_and_literal (c := d) (k := l)
  obtain ⟨u₀, hu₀⟩ := List.exists_mem_of_ne_nil _ hc
  obtain ⟨v₀, hv₀⟩ := List.exists_mem_of_ne_nil _ hd
  have hboth := List.ne_nil_of_mem ((mem_terms_and hc hd).2 ⟨u₀, hu₀, v₀, hv₀, rfl⟩)
  obtain ⟨w, hw, x, hx, hsub⟩ := exists_terms_of_implies hboth (by simpa using himp)
  obtain ⟨u, hu, v, hv, rfl⟩ := (mem_terms_and hc hd).1 hx
  have hk : k ∈ w := hsub k (mem_union.2 (Or.inl (hck u hu)))
  have hl : l ∈ w := hsub l (mem_union.2 (Or.inr (hdl v hv)))
  exact hne (hs k (mem_literals.2 ⟨w, hw, hk⟩) l (mem_literals.2 ⟨w, hw, hl⟩) htogether)

/-- A branch numbered `next + j` keeps the condition of its scope single if siblings are on one side of
`next`. -/
theorem Single.and_literal {next : Nat} (hs : s.Numbered next) (hsingle : s.Single together)
    (hside : ∀ k l, together k l → (k < (next : Int) ↔ l < (next : Int))) (j : Nat) :
    (s.and (literal ((next + j : Nat) : Int))).Single together := by
  intro k hk l hl htogether
  have hkl := hside k l htogether
  rw [(hs.isPath.and_literal _).2] at hk hl
  rcases hk with hk | rfl <;> rcases hl with hl | rfl
  · exact hsingle k hk l hl htogether
  · have := hs.below k hk; omega
  · have := hs.below l hl; omega
  · rfl

/-- Two single conditions that have parted: each has a branch that the other has not, so neither implies
the other. -/
theorem Parted.exclusive (hsymm : ∀ k l, together k l → together l k) (hs : s.Single together) (ht : t.Single together)
    (hspath : s.IsPath) (htpath : t.IsPath) (h : Parted together s t) :
    (∃ k l, together k l ∧ k ∈ s.literals ∧ l ∉ s.literals ∧ l ∈ t.literals ∧ k ∉ t.literals) ∧
      s.implies t = false ∧ t.implies s = false := by
  obtain ⟨k, l, htogether, hne, hk, hl⟩ := h
  have hls : l ∉ s.literals := fun hl' => hne (hs k hk l hl' htogether)
  have hkt : k ∉ t.literals := fun hk' => hne (ht l hl k hk' (hsymm k l htogether)).symm
  refine ⟨⟨k, l, htogether, hk, hls, hl, hkt⟩, ?_, ?_⟩
  · exact Bool.eq_false_iff.2 fun himp => hls (literals_subset_of_implies htpath himp hl)
  · exact Bool.eq_false_iff.2 fun himp => hkt (literals_subset_of_implies hspath himp hk)

end Condition

/-! ## Trees that grow by forks -/

namespace ScopeTree

open Condition (Single Parted)

/-- How a scope stands to its children, of which `below` has the conditions. -/
structure ForksAt (together : Int → Int → Prop) (next : Nat) (own : Condition) (below : List Condition) : Prop where
  numbered : own.Numbered next
  single : own.Single together
  parted : below.Pairwise (Parted together)
  refined : ∀ s ∈ below, own.literals ⊆ s.literals

mutual

/-- Every scope of the tree has grown by at most one fork. -/
def Forked (together : Int → Int → Prop) (next : Nat) : ScopeTree δ ℓ → Prop
  | .mk own _ _ children =>
    ForksAt together next own (children.map fun x => x.2.condition) ∧ ForkedList together next children
termination_by structural t => t

def ForkedList (together : Int → Int → Prop) (next : Nat) : List (ℓ × ScopeTree δ ℓ) → Prop
  | [] => True
  | (_, t) :: rest => Forked together next t ∧ ForkedList together next rest
termination_by structural ts => ts

end

variable {together : Int → Int → Prop} {next more : Nat}

theorem forked_childless {own : Condition} (hnumbered : own.Numbered next) (hsingle : own.Single together)
    (ds : List δ) (isOpen : Bool) : Forked together next (.mk own ds isOpen [] : ScopeTree δ ℓ) :=
  ⟨⟨hnumbered, hsingle, .nil, by simp⟩, trivial⟩

theorem forkedList_of_forall {ts : List (ℓ × ScopeTree δ ℓ)} (h : ∀ x ∈ ts, Forked together next x.2) :
    ForkedList together next ts := by
  induction ts with
  | nil => trivial
  | cons x ts ih => exact ⟨h x (by simp), ih fun y hy => h y (by simp [hy])⟩

/-- A scope whose children are the branches of a fork. -/
theorem forked_branches {own : Condition} {width : Nat} {children : List (ℓ × ScopeTree δ ℓ)}
    (hnumbered : own.Numbered next) (hsingle : own.Single together)
    (hside : ∀ k l, together k l → (k < (next : Int) ↔ l < (next : Int)))
    (hfork : ∀ i < width, ∀ j < width, together ((next + i : Nat) : Int) ((next + j : Nat) : Int))
    (ds : List δ) (isOpen : Bool)
    (hchildren : children.map (·.2) =
      (List.range width).map fun j => fresh (own.and (.literal ((next + j : Nat) : Int)))) :
    Forked together (next + width) (.mk own ds isOpen children) := by
  have hbelow : (children.map fun x => x.2.condition) =
      (List.range width).map fun j => own.and (.literal ((next + j : Nat) : Int)) := by
    simpa [Function.comp_def] using congrArg (List.map condition) hchildren
  have hlits := fun j : Nat => (hnumbered.isPath.and_literal ((next + j : Nat) : Int)).2
  refine ⟨⟨hnumbered.weaken (Nat.le_add_right _ _), hsingle, ?_, ?_⟩, forkedList_of_forall fun x hx => ?_⟩
  · rw [hbelow, List.pairwise_map]
    refine List.pairwise_lt_range.imp_of_mem fun {i j} hi hj hlt => ?_
    refine ⟨_, _, hfork i (List.mem_range.1 hi) j (List.mem_range.1 hj), by omega, ?_, ?_⟩
    · exact (hlits i _).2 (Or.inr rfl)
    · exact (hlits j _).2 (Or.inr rfl)
  · intro s hs k hk
    rw [hbelow] at hs
    obtain ⟨j, -, rfl⟩ := List.mem_map.1 hs
    exact (hlits j k).2 (Or.inl hk)
  · have hmem := List.mem_map_of_mem (f := Prod.snd) hx
    rw [hchildren] at hmem
    obtain ⟨j, hj, hfresh⟩ := List.mem_map.1 hmem
    rw [← hfresh]
    exact forked_childless (hnumbered.branch (List.mem_range.1 hj)).1 (hsingle.and_literal hnumbered hside j) _ _

section
variable {c : Condition} {f : Condition → List δ → ScopeTree δ ℓ}

theorem updateList_conditions (hown : ∀ own ds, (f own ds).condition = own) (ts : List (ℓ × ScopeTree δ ℓ)) :
    ((updateList c f ts).map fun x => x.2.condition) = ts.map fun x => x.2.condition := by
  induction ts with
  | nil => rfl
  | cons x ts ih => simp [updateList, update_condition hown, ih]

mutual

/-- A change of open scopes keeps the tree forked if it gives forked trees of the same condition. -/
theorem update_forked (hle : next ≤ more) (hown : ∀ own ds, (f own ds).condition = own)
    (hf : ∀ own ds, own.Numbered next → own.Single together → Forked together more (f own ds)) :
    ∀ {t : ScopeTree δ ℓ}, Forked together next t → Forked together more (update c f t)
  | .mk own ds isOpen children, h => by
    obtain ⟨hat, hchildren⟩ := h
    simp only [update]
    split
    · exact hf own ds hat.numbered hat.single
    · refine ⟨?_, updateList_forked hle hown hf hchildren⟩
      rw [updateList_conditions hown]
      exact ⟨hat.numbered.weaken hle, hat.single, hat.parted, hat.refined⟩

theorem updateList_forked (hle : next ≤ more) (hown : ∀ own ds, (f own ds).condition = own)
    (hf : ∀ own ds, own.Numbered next → own.Single together → Forked together more (f own ds)) :
    ∀ {ts : List (ℓ × ScopeTree δ ℓ)}, ForkedList together next ts → ForkedList together more (updateList c f ts)
  | [], _ => trivial
  | (_, _) :: _, h => ⟨update_forked hle hown hf h.1, updateList_forked hle hown hf h.2⟩

end

end

mutual

/-- Below a scope no literal of its condition is lost, and all conditions are single. -/
theorem Forked.scopes : ∀ {t : ScopeTree δ ℓ}, Forked together next t → ∀ s ∈ t.scopes,
    t.condition.literals ⊆ s.condition.literals ∧ s.condition.Numbered next ∧ s.condition.Single together
  | .mk own ds isOpen children, h, s, hs => by
    obtain ⟨hat, hchildren⟩ := h
    rcases List.mem_cons.1 hs with rfl | hs
    · exact ⟨List.Subset.refl _, hat.numbered, hat.single⟩
    · obtain ⟨x, hx, hs⟩ := mem_childScopes.1 hs
      obtain ⟨hsub, hrest⟩ := ForkedList.scopes hchildren x hx s hs
      exact ⟨fun k hk => hsub (hat.refined _ (List.mem_map_of_mem hx) hk), hrest⟩

theorem ForkedList.scopes : ∀ {ts : List (ℓ × ScopeTree δ ℓ)}, ForkedList together next ts → ∀ x ∈ ts, ∀ s ∈ x.2.scopes,
    x.2.condition.literals ⊆ s.condition.literals ∧ s.condition.Numbered next ∧ s.condition.Single together
  | (_, t) :: rest, h, x, hx => by
    rcases List.mem_cons.1 hx with rfl | hx
    · exact Forked.scopes h.1
    · exact ForkedList.scopes h.2 x hx

end

mutual

/-- Two scopes without children have parted at the scope where the ways to them part. -/
theorem Forked.childless_parted : ∀ {t : ScopeTree δ ℓ}, Forked together next t →
    t.childless.Pairwise fun s s' => Parted together s.condition s'.condition
  | .mk own ds isOpen [], _ => by simp [childless, ScopeTree.scopes, childScopes, children]
  | .mk own ds isOpen (x :: rest), h => by
    obtain ⟨hat, hchildren⟩ := h
    have hparted := ForkedList.childless_parted hchildren hat.parted
    simpa [childless, ScopeTree.scopes, children] using hparted

theorem ForkedList.childless_parted : ∀ {ts : List (ℓ × ScopeTree δ ℓ)}, ForkedList together next ts →
    (ts.map fun x => x.2.condition).Pairwise (Parted together) →
      ((childScopes ts).filter fun s => s.children.isEmpty).Pairwise fun s s' =>
        Parted together s.condition s'.condition
  | [], _, _ => by simp [childScopes]
  | (l, t) :: rest, h, hparted => by
    rw [List.map_cons, List.pairwise_cons] at hparted
    rw [childScopes, List.filter_append, List.pairwise_append]
    refine ⟨Forked.childless_parted h.1, ForkedList.childless_parted h.2 hparted.2, fun s hs s' hs' => ?_⟩
    -- the two are below different children, and below a scope no literal is lost
    obtain ⟨x, hx, hs'⟩ := mem_childScopes.1 (List.mem_filter.1 hs').1
    exact (hparted.1 _ (List.mem_map_of_mem hx)).mono (Forked.scopes h.1 s (List.mem_filter.1 hs).1).1
      (ForkedList.scopes h.2 x hx s' hs').1

end

end ScopeTree

/-! ## Every run -/

namespace ScopeBuilder

theorem mem_branchVars_snd {b : ScopeBuilder δ ℓ} {labels : List ℓ} {k : Int} :
    k ∈ (b.branchVars labels).map (·.2) ↔ ∃ j < labels.length, k = ((b.nextVar + j : Nat) : Int) := by
  rw [branchVars_snd]
  simp [eq_comm]

end ScopeBuilder

namespace ScopeOp

open ScopeBuilder (start)

/-- Branches that one fork among the operations numbers. -/
def Siblings (ops : List (ScopeOp δ ℓ)) (k l : Int) : Prop :=
  ∃ before c labels after, ops = before ++ .fork c labels :: after ∧
    k ∈ ((start.run before).branchVars labels).map (·.2) ∧ l ∈ ((start.run before).branchVars labels).map (·.2)

theorem Siblings.symm {ops : List (ScopeOp δ ℓ)} {k l : Int} (h : Siblings ops k l) : Siblings ops l k := by
  obtain ⟨before, c, labels, after, hops, hk, hl⟩ := h
  exact ⟨before, c, labels, after, hops, hl, hk⟩

/-- At any time, both of two siblings are numbered or neither is. -/
theorem Siblings.numbered_iff {before after : List (ScopeOp δ ℓ)} {k l : Int}
    (h : Siblings (before ++ after) k l) :
    k < ((start (δ := δ) (ℓ := ℓ)).run before).nextVar ↔ l < ((start (δ := δ) (ℓ := ℓ)).run before).nextVar := by
  obtain ⟨past, c, labels, future, hops, hk, hl⟩ := h
  obtain ⟨i, hi, rfl⟩ := ScopeBuilder.mem_branchVars_snd.1 hk
  obtain ⟨j, hj, rfl⟩ := ScopeBuilder.mem_branchVars_snd.1 hl
  -- the fork comes after `before`, at its end or in it
  rcases List.append_eq_append_iff.1 hops with ⟨as, rfl, -⟩ | ⟨as, rfl, has⟩
  · simp only [ScopeBuilder.run_append, ScopeBuilder.run_nextVar]
    omega
  · cases as with
    | nil => rw [List.append_nil]; omega
    | cons op as =>
      obtain ⟨rfl, -⟩ := List.cons.inj has
      simp only [ScopeBuilder.run_append, ScopeBuilder.run_nextVar, widths, width]
      omega

end ScopeOp

namespace ScopeBuilder

open ScopeOp (Siblings)
open ScopeTree (Forked)

/-- **One operation** keeps the tree forked. Of the forks that `together` knows, only the one that is
carried out, if any, numbers branches now. -/
theorem step_forked {together : Int → Int → Prop} (b : ScopeBuilder δ ℓ) (op : ScopeOp δ ℓ)
    (hside : ∀ k l, together k l → (k < (b.nextVar : Int) ↔ l < (b.nextVar : Int)))
    (hfork : ∀ c labels, op = .fork c labels → ∀ i < labels.length, ∀ j < labels.length,
      together ((b.nextVar + i : Nat) : Int) ((b.nextVar + j : Nat) : Int))
    (h : Forked together b.nextVar b.tree) : Forked together (b.step op).nextVar (b.step op).tree := by
  cases op with
  | define c d =>
    exact ScopeTree.update_forked (Nat.le_refl _) (fun _ _ => rfl)
      (fun own ds hnum hsingle => ScopeTree.forked_childless hnum hsingle _ _) h
  | close c =>
    exact ScopeTree.update_forked (Nat.le_refl _) (fun _ _ => rfl)
      (fun own ds hnum hsingle => ScopeTree.forked_childless hnum hsingle _ _) h
  | fork c labels =>
    refine ScopeTree.update_forked (Nat.le_add_right _ _) (fun _ _ => rfl) (fun own ds hnum hsingle => ?_) h
    refine ScopeTree.forked_branches hnum hsingle hside (hfork c labels rfl) ds false ?_
    have hvars := congrArg (List.map fun k => (ScopeTree.fresh (own.and (.literal k)) : ScopeTree δ ℓ))
      (branchVars_snd b labels)
    simpa [Function.comp_def] using hvars

/-- **A whole run** keeps the tree forked; it goes on from any point of the operations. -/
theorem run_forked : ∀ (after before : List (ScopeOp δ ℓ)),
    Forked (Siblings (before ++ after)) (start.run before).nextVar (start.run before).tree →
      Forked (Siblings (before ++ after)) (start.run (before ++ after)).nextVar (start.run (before ++ after)).tree
  | [], before, h => by simpa using h
  | op :: after, before, h => by
    -- the relation is that of all operations, so it does not change from step to step
    have hrun : start.run (before ++ [op]) = (start.run before).step op := by simp [run_append]
    have hstep := step_forked (start.run before) op (fun k l hkl => hkl.numbered_iff) (fun c labels hop i hi j hj =>
      ⟨before, c, labels, after, by rw [hop], mem_branchVars_snd.2 ⟨i, hi, rfl⟩, mem_branchVars_snd.2 ⟨j, hj, rfl⟩⟩) h
    rw [← hrun] at hstep
    have hrest := run_forked after (before ++ [op])
    rw [List.append_assoc, List.singleton_append] at hrest
    exact hrest hstep

theorem start_forked (ops : List (ScopeOp δ ℓ)) :
    Forked (Siblings ops) (start.run ops).nextVar (start.run ops).tree := by
  refine run_forked ops [] (ScopeTree.forked_childless Condition.numbered_always ?_ _ _)
  intro k hk
  simp [Condition.always] at hk

/-- **Numbers stay small.** The next number is one more than the labels numbered so far, and every literal of a
scope lies below it. While fewer than `2 ^ 31 - 1` labels are numbered, all of them are 32-bit integers. -/
theorem run_fits (ops : List (ScopeOp δ ℓ)) (hfew : ScopeOp.widths ops < 0x7fffffff) :
    (start.run ops).nextVar ≤ 0x7fffffff ∧
      ∀ s ∈ (start.run ops).tree.scopes, ∀ k ∈ s.condition.literals, 0 ≤ k ∧ k ≤ 0x7fffffff := by
  have hnext : (start.run ops).nextVar = 1 + ScopeOp.widths ops := run_nextVar start ops
  refine ⟨by omega, fun s hs k hk => ?_⟩
  obtain ⟨-, hnumbered, -⟩ := (start_forked ops).scopes s hs
  have hbelow := hnumbered.below k hk
  exact ⟨hnumbered.nonneg k hk, by omega⟩

/-- **Forks are exclusive.** No scope has taken two branches of one fork. Two scopes without children
have taken different branches of one fork, so neither condition implies the other. What is defined under
the conditions of two branches of one fork at once reaches no scope, at any later time. -/
theorem run_exclusive (ops : List (ScopeOp δ ℓ)) :
    (∀ s ∈ (start.run ops).tree.scopes, s.condition.IsPath ∧ s.condition.Single (Siblings ops)) ∧
    ((start.run ops).tree.childless.Pairwise fun s t =>
      (∃ k l, Siblings ops k l ∧ k ∈ s.condition.literals ∧ l ∉ s.condition.literals ∧
        l ∈ t.condition.literals ∧ k ∉ t.condition.literals) ∧
      s.condition.implies t.condition = false ∧ t.condition.implies s.condition = false) ∧
    ∀ before c labels after, ops = before ++ .fork c labels :: after → ∀ (i j : Nat) (ci cj : Condition), i ≠ j →
      ((start.run before).branchConditions c labels)[i]? = some ci →
      ((start.run before).branchConditions c labels)[j]? = some cj →
      (start.run ops).receiving (ci.and cj) = 0 ∧ ∀ d, (start.run ops).define (ci.and cj) d = start.run ops := by
  have hforked := start_forked ops
  refine ⟨fun s hs => ?_, ?_, ?_⟩
  · obtain ⟨-, hnum, hsingle⟩ := hforked.scopes s hs
    exact ⟨hnum.isPath, hsingle⟩
  · refine hforked.childless_parted.imp_of_mem fun {s t} hs ht hparted => ?_
    obtain ⟨-, hsnum, hssingle⟩ := hforked.scopes s (List.mem_filter.1 hs).1
    obtain ⟨-, htnum, htsingle⟩ := hforked.scopes t (List.mem_filter.1 ht).1
    exact hparted.exclusive (fun k l => .symm) hssingle htsingle hsnum.isPath htnum.isPath
  · intro before c labels after hops i j ci cj hij hci hcj
    obtain ⟨hi, rfl⟩ := branchConditions_getElem?.1 hci
    obtain ⟨hj, rfl⟩ := branchConditions_getElem?.1 hcj
    have hsiblings : Siblings ops ((start.run before).nextVar + i : Nat) ((start.run before).nextVar + j : Nat) :=
      ⟨before, c, labels, after, hops, mem_branchVars_snd.2 ⟨i, hi, rfl⟩, mem_branchVars_snd.2 ⟨j, hj, rfl⟩⟩
    have hnone := fun s hs => (hforked.scopes s hs).2.2.not_implies (c := c) (d := c) hsiblings (by omega)
    refine ⟨ScopeTree.count_eq_zero _ _ hnone, fun d => ?_⟩
    rw [define, ScopeTree.update_eq_self _ _ _ hnone]

/-- A fork, one branch closed, and a second fork of the other branch. -/
def nestedForks : List (ScopeOp Nat String) :=
  [.fork .always ["left", "right"], .close (.literal 2), .fork .always ["up", "down"]]

theorem run_exclusive_nestedForks :
    (start.run nestedForks).tree.childless.map (·.condition) = [⟨[[1, 3]]⟩, ⟨[[1, 4]]⟩, ⟨[[2]]⟩] ∧
    (start.run nestedForks).receiving ((Condition.literal 1).and (.literal 2)) = 0 ∧
    (start.run nestedForks).define ((Condition.literal 1).and (.literal 2)) 7 = start.run nestedForks := by
  obtain ⟨-, -, hnone⟩ := run_exclusive nestedForks
  obtain ⟨hreceiving, hdefine⟩ := hnone [] .always ["left", "right"] [.close (.literal 2), .fork .always ["up", "down"]]
    rfl 0 1 (.literal 1) (.literal 2) (by decide) (by decide) (by decide)
  exact ⟨by decide, hreceiving, hdefine 7⟩

end ScopeBuilder

end Dataflow
