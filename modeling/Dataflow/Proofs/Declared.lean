import Dataflow.Eval.Run
import Dataflow.Proofs.Redraw
import Dataflow.Proofs.WalkHistory

/-!
# Functions that texts may name

A named node without input is declared to the texts of the graph as a function. It is a root, so the
plan has a function of that name, and a text that names it calls a function of the plan
(`Program.plan_callee`).
-/

namespace Dataflow

namespace Assoc

variable {κ α : Type} [Ord κ]

theorem mem_ofList {pairs : List (κ × α)} {x : κ × α} (h : x ∈ ofList pairs) : x ∈ pairs := by
  have hall : ∀ (added table : List (κ × α)), x ∈ added.foldl (fun table p => insert p.1 p.2 table) table →
      x ∈ added ∨ x ∈ table := by
    intro added
    induction added with
    | nil => exact fun _ h => Or.inr h
    | cons p added ih =>
      intro table h
      rcases ih _ h with h | h
      · exact Or.inl (List.mem_cons_of_mem p h)
      · rcases mem_insert h with rfl | h
        · exact Or.inl List.mem_cons_self
        · exact Or.inr h
  exact (hall pairs [] h).resolve_right (by simp)

end Assoc

/-! ## Declared names -/

namespace Draft

/-- What the table of functions holds under a name: a function from the type of a node of that name,
which takes no input and is entered by no arrow. -/
theorem functions_find? {d : Draft} {types : List Ty} {name : String} {symbol : Symbol}
    (h : (d.functions types).find? name = some symbol) :
    ∃ i node, d.nodes[i]? = some node ∧ node.name = some name ∧ d.isTargeted i = false ∧
      symbol = ⟨.function, .func (types.getD i .unit) (d.returnType types i)⟩ := by
  obtain ⟨⟨node, i⟩, hmem, hentry⟩ := List.mem_filterMap.1 (Assoc.mem_ofList (Assoc.get?_mem h))
  dsimp only at hentry
  split at hentry
  · rename_i name' hname
    split at hentry
    · rename_i hfree
      cases hentry
      simp only [Bool.and_eq_true, Bool.not_eq_true'] at hfree
      exact ⟨i, node, List.mk_mem_zipIdx_iff_getElem?.1 hmem, hname, hfree.2, rfl⟩
    · cases hentry
  · cases hentry

variable {table : SymbolTable} {d : Draft} {p : Program}

/-- The types of the nodes are read first. Under them the texts of the arrows are read, with the
functions of the graph in front of the resolver. -/
theorem returns_typed {σ : Type} {find : Resolver (StateM σ)} (h : Returns (Program.ofDraft find d) p) :
    Returns (d.readTyped find (p.nodes.map Node.ty)) p := by
  rw [ofDraft_eq] at h
  split at h
  · exact absurd h not_returns_throw
  · obtain ⟨types, htypes, h⟩ := h.of_bind
    rw [(readTyped_shows htypes.of_mapM.length_eq.symm h).1]
    exact h

theorem readsAs_of_readWith (h : d.readWith table = .ok p) : d.ReadsAs p := ⟨Unit, _, readWith_ok.1 h⟩

theorem readWith_consistent (h : d.readWith table = .ok p) : p.Consistent := (readsAs_of_readWith h).consistent

/-- The resolver of the texts of a graph. -/
def texts (d : Draft) (table : SymbolTable) (p : Program) : Resolver (StateM Unit) :=
  (d.functions (p.nodes.map Node.ty)).shadowing table.resolver

theorem readWith_arrow (h : d.readWith table = .ok p) {a : Arrow} (ha : a ∈ p.arrows) :
    Returns (Morphism.read (d.texts table p) a.text) a.morphism := by
  obtain ⟨nodes, _, h⟩ := (returns_typed (readWith_ok.1 h)).of_bind
  obtain ⟨arrows, harrows, h⟩ := h.of_bind
  dsimp only at h
  split at h
  · obtain rfl := h.of_pure
    obtain ⟨k, hk, rfl⟩ := List.mem_iff_getElem.1 ha
    have hlen := harrows.of_mapM.length_eq
    obtain ⟨f, hf, hread⟩ := (harrows.of_mapM.get (by rw [hlen]; exact hk) hk).of_bind
    have harrow : arrows[k] = _ := hread.of_pure
    rw [harrow]
    exact hf
  · exact absurd h not_returns_throw

/-- A node that is named and not entered is a root of that name. -/
theorem ReadsAs.root (h : d.ReadsAs p) {i : Nat} {node : DraftNode} (hnode : d.nodes[i]? = some node)
    (hfree : d.isTargeted i = false) : i ∈ p.roots ∧ (p.node i).name = node.name := by
  obtain ⟨σ, find, h⟩ := h
  obtain ⟨nodes, hnodes, h⟩ := (returns_typed h).of_bind
  obtain ⟨arrows, _, h⟩ := h.of_bind
  dsimp only at h
  split at h
  · obtain rfl := h.of_pure
    obtain ⟨hi, rfl⟩ := List.getElem?_eq_some_iff.1 hnode
    have hlen : d.nodes.length = nodes.length := by simpa using hnodes.of_mapM.length_eq
    have hread := hnodes.of_mapM.get (by simpa using hi) (hlen ▸ hi)
    simp only [List.get_eq_getElem, List.getElem_zipIdx, Nat.zero_add] at hread
    have hget : Program.node ⟨nodes, arrows⟩ i = nodes[i] := Program.node_of_lt (hlen ▸ hi)
    rw [Program.mem_roots, hget, (readNode_returns hread).2, (readNode_shows hread).2.1]
    refine ⟨⟨hlen ▸ hi, ?_⟩, rfl⟩
    simp only [isTargeted, List.any_eq_false] at hfree
    simp only [arrowsWhere, List.map_eq_nil_iff, List.filter_eq_nil_iff]
    exact fun c hc => hfree c.1 (List.fst_mem_of_mem_zipIdx hc)
  · exact absurd h not_returns_throw

end Draft

/-! ## Functions of the plan -/

namespace Program

variable {p : Program}

theorem splitRoots_named {roots : List Nat} {seeds : List Seed} {unnamed : List Nat}
    (h : p.splitRoots roots = .ok (seeds, unnamed)) :
    seeds = roots.filterMap fun i => (p.node i).name.map fun name => ⟨name, [i], some i⟩ := by
  rcases splitRoots_cases roots with ⟨_, hsplit⟩ | ⟨_, _, _, _, hsplit⟩
  · rw [hsplit] at h
    cases h
    rfl
  · rw [hsplit] at h
    cases h

theorem planFunctions_forall₂ : ∀ {seeds : List Seed} {fs : List FunctionPlan}, p.planFunctions seeds = .ok fs →
    List.Forall₂ (fun s f => p.planFunction s = .ok f) seeds fs
  | [], _, h => by
    cases h
    exact .nil
  | s :: rest, _, h => by
    simp only [planFunctions] at h
    split at h
    · cases h
    · rename_i f hf
      split at h
      · rename_i fs hfs
        cases h
        exact .cons hf (planFunctions_forall₂ hfs)
      · cases h

theorem planFunction_ok {s : Seed} {f : FunctionPlan} (h : p.planFunction s = .ok f) :
    f.name = s.name ∧ f.param = s.param.map nodeVar := by
  obtain ⟨w, _, h⟩ := Except.bind_ok.1 h
  split at h
  · cases h
  · cases h
    exact ⟨rfl, rfl⟩

theorem callee?_ok {plan : ProgramPlan} {name : String} {f : FunctionPlan} (h : plan.callee? name = some f) :
    f ∈ plan.functions ∧ f.name = name ∧ f.isMain = false := by
  obtain ⟨hfind, hmain⟩ := Option.filter_eq_some_iff.1 h
  exact ⟨List.mem_of_find?_eq_some hfind, by simpa using List.find?_some hfind, by simpa using hmain⟩

/-- What is found first among lists that go together goes together. -/
theorem find?_of_forall₂ {α β : Type} {R : α → β → Prop} {q : α → Bool} {r : β → Bool} {as : List α} {bs : List β}
    (h : List.Forall₂ R as bs) (hsame : ∀ a b, R a b → r b = q a) {a : α} (hfind : as.find? q = some a) :
    ∃ b, bs.find? r = some b ∧ R a b := by
  induction h with
  | nil => cases hfind
  | @cons a' b' as bs hab _ ih =>
    rw [List.find?_cons] at hfind ⊢
    rw [hsame a' b' hab]
    cases hq : q a' with
    | true =>
      rw [hq] at hfind
      cases hfind
      exact ⟨b', rfl, hab⟩
    | false =>
      rw [hq] at hfind
      exact ih hfind

/-- The first root of a name. -/
def rootNamed? (p : Program) (name : String) : Option Nat := p.roots.find? fun i => (p.node i).name = some name

theorem rootNamed?_ok {name : String} {i : Nat} (h : p.rootNamed? name = some i) :
    i ∈ p.roots ∧ (p.node i).name = some name :=
  ⟨List.mem_of_find?_eq_some h, by simpa using List.find?_some h⟩

/-- The function of a name is the one that starts at the first root of the name. -/
theorem plan_function? {plan : ProgramPlan} (hplan : p.plan = .ok plan) {name : String} {i : Nat}
    (hfirst : p.rootNamed? name = some i) :
    ∃ seeds f, p.seeds = .ok seeds ∧ ⟨name, [i], some i⟩ ∈ seeds ∧ p.planFunction ⟨name, [i], some i⟩ = .ok f ∧
      plan.function? name = some f := by
  obtain ⟨seeds, hseeds, hplan⟩ := Except.bind_ok.1 hplan
  obtain ⟨functions, hfunctions, hplan⟩ := Except.bind_ok.1 hplan
  cases hplan
  obtain ⟨⟨named, unnamed⟩, hsplit, hdivide⟩ := Except.bind_ok.1 hseeds
  obtain ⟨_, _, hdivide⟩ := Except.bind_ok.1 hdivide
  have hnamed : named.find? (fun s => s.name = name) = some ⟨name, [i], some i⟩ := by
    have hsame : (fun i => ((p.node i).name.map fun name => (⟨name, [i], some i⟩ : Seed)).any fun s => s.name = name) =
        fun i => decide ((p.node i).name = some name) := by
      funext i
      cases (p.node i).name <;> simp
    have hpick : (p.roots.find? fun i => decide ((p.node i).name = some name)) = some i := hfirst
    rw [splitRoots_named hsplit, List.find?_filterMap, hsame, hpick]
    simp [(rootNamed?_ok hfirst).2]
  -- the functions of named roots come first
  have hseed : seeds.find? (fun s => s.name = name) = some ⟨name, [i], some i⟩ := by
    cases hdivide
    split
    · exact hnamed
    · rw [List.find?_append, hnamed]
      rfl
  obtain ⟨f, hfind, hf⟩ := find?_of_forall₂ (r := fun f => decide (f.name = name)) (planFunctions_forall₂ hfunctions)
    (fun s f hf => by rw [(planFunction_ok hf).1]) hseed
  exact ⟨seeds, f, hseeds, List.mem_of_find?_eq_some hseed, hf, hfind⟩

theorem exists_rootNamed? {name : String} {i : Nat} (hi : i ∈ p.roots) (hname : (p.node i).name = some name) :
    ∃ j, p.rootNamed? name = some j := by
  rw [← Option.isSome_iff_exists, rootNamed?, List.find?_isSome]
  exact ⟨i, hi, by simpa using hname⟩

/-- The function of a root's name has a parameter, so that it can be called. -/
theorem callee?_of_planFunction {plan : ProgramPlan} {name : String} {i : Nat} {f : FunctionPlan}
    (hf : p.planFunction ⟨name, [i], some i⟩ = .ok f) (hfind : plan.function? name = some f) :
    plan.callee? name = some f := by
  refine Option.filter_eq_some_iff.2 ⟨hfind, ?_⟩
  simp [FunctionPlan.isMain, (planFunction_ok hf).2]

/-- The name of a root calls a function of the plan. -/
theorem plan_callee {plan : ProgramPlan} (hplan : p.plan = .ok plan) {i : Nat} (hi : i ∈ p.roots) {name : String}
    (hname : (p.node i).name = some name) : ∃ f, plan.callee? name = some f := by
  obtain ⟨j, hj⟩ := exists_rootNamed? hi hname
  obtain ⟨_, f, _, _, hf, hfind⟩ := plan_function? hplan hj
  exact ⟨f, callee?_of_planFunction hf hfind⟩

end Program

end Dataflow
