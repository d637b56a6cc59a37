import Dataflow.Proofs.Spelling

/-!
# Graphs drawn from programs

A program can be drawn again, with its types in their canonical spelling. The new drawing differs
from the first one in nothing but the texts of types, and reading it gives the same program
(`Draft.readWith_toDraft`). The texts of types are read first and everything after that depends on
the types alone, so all is said once they are read back (`Ty.read_pretty`).
-/

namespace Dataflow

namespace Draft

/-- The program that the symbols of a table read a graph as. -/
def readWith (table : SymbolTable) (d : Draft) : Except TypingError Program :=
  ((Program.ofDraft (table.resolver : Resolver (StateM Unit)) d).run.run ()).1

theorem readWith_ok {table : SymbolTable} {d : Draft} {p : Program} :
    d.readWith table = .ok p ↔ Returns (Program.ofDraft (table.resolver : Resolver (StateM Unit)) d) p :=
  ⟨fun h => ⟨(), (), Prod.ext h rfl⟩, fun ⟨_, _, h⟩ => congrArg Prod.fst h⟩

/-- The graph without the texts of its types. -/
def untyped (d : Draft) : Draft := { d with nodes := d.nodes.map fun node => { node with type := "" } }

/-! ## What does not look at the texts of types -/

section
variable (d : Draft)

theorem check_untyped (c : Connection) : d.untyped.check c = d.check c := by
  simp only [check, untyped, List.getElem?_map]
  cases d.nodes[c.source]? with
  | none => rfl
  | some source => cases d.nodes[c.target]? <;> rfl

theorem checkAll_untyped (cs : List Connection) : d.untyped.checkAll cs = d.checkAll cs := by
  induction cs with
  | nil => rfl
  | cons c cs ih => simp only [checkAll, check_untyped, ih]

theorem functions_untyped (types : List Ty) : d.untyped.functions types = d.functions types := by
  simp only [functions, untyped, List.zipIdx_map, List.filterMap_map]
  rfl

variable {m : Type → Type} [Monad m]

/-- Reading a graph whose node types are known. -/
def readTyped (find : Resolver m) (types : List Ty) : ExceptT TypingError m Program := do
  let find := (d.functions types).shadowing find
  let nodes ← d.nodes.zipIdx.mapM fun (node, i) => d.readNode find types i node
  let arrows ← d.connections.mapM (readArrow find)
  let p : Program := ⟨nodes, arrows⟩
  match p.checkNodes p.nodes.zipIdx with
  | .ok _ => pure p
  | .error e => throw e

theorem ofDraft_eq (find : Resolver m) :
    Program.ofDraft find d =
      match d.checkAll d.connections with
      | .error e => throw (.draft e)
      | .ok _ => (d.nodes.mapM fun node => Ty.read find node.type) >>= d.readTyped find := rfl

theorem readTyped_untyped [LawfulMonad m] (find : Resolver m) (types : List Ty) :
    d.untyped.readTyped find types = d.readTyped find types := by
  simp only [readTyped, functions_untyped]
  simp only [untyped, List.zipIdx_map, List.mapM_map]
  rfl

end

/-! ## Drawing a program that was read -/

/-- What the elements of two lists have in common, pair by pair, the lists have in common. -/
theorem map_eq_of_forall₂ {α β γ : Type} {R : α → β → Prop} {f : α → γ} {g : β → γ} {as : List α} {bs : List β}
    (h : List.Forall₂ R as bs) (hR : ∀ a b, R a b → g b = f a) : bs.map g = as.map f := by
  induction h with
  | nil => rfl
  | cons hab _ ih => rw [List.map_cons, List.map_cons, hR _ _ hab, ih]

section
variable {σ : Type} {find : Resolver (StateM σ)} {d : Draft}

theorem readPins_labels {i : Nat} {node : DraftNode} {pins : List Pin} (h : Returns (d.readPins find i node) pins) :
    pins.map Pin.label = node.branchers := by
  rw [← List.zipIdx_map_fst 0 node.branchers]
  refine map_eq_of_forall₂ (Returns.of_mapM h) ?_
  rintro ⟨label, k⟩ pin hpin
  dsimp only at hpin
  split at hpin
  · obtain ⟨brancher, _, hpin⟩ := hpin.of_bind
    rw [hpin.of_pure]
  · obtain ⟨brancher, _, hpin⟩ := hpin.of_bind
    rw [hpin.of_pure]

/-- A node shows all of the drawn node that is not the text of its type. -/
theorem readNode_shows {types : List Ty} {i : Nat} {node : DraftNode} {n : Node}
    (h : Returns (d.readNode find types i node) n) :
    n.ty = types.getD i .unit ∧ n.name = node.name ∧ n.hasInput = node.hasInput ∧
      n.pins.map Pin.label = node.branchers := by
  have hlabels := readPins_labels (readNode_returns h).1
  obtain ⟨pins, hpins, h⟩ := Returns.of_bind h
  obtain rfl := h.of_pure
  exact ⟨rfl, rfl, rfl, hlabels⟩

theorem readArrow_shows {c : Connection} {a : Arrow} (h : Returns (readArrow find c) a) :
    ({ source := a.source, target := a.target, pin := a.pin, text := a.text } : Connection) = c := by
  obtain ⟨f, _, h⟩ := Returns.of_bind h
  obtain rfl := h.of_pure
  rfl

/-- The program has the types that were given, and drawn again it is the same graph. -/
theorem readTyped_shows {types : List Ty} (hlen : types.length = d.nodes.length) {p : Program}
    (h : Returns (d.readTyped find types) p) : p.nodes.map Node.ty = types ∧ p.toDraft.untyped = d.untyped := by
  obtain ⟨nodes, hnodes, h⟩ := Returns.of_bind h
  obtain ⟨arrows, harrows, h⟩ := h.of_bind
  dsimp only at h
  split at h
  · obtain rfl := h.of_pure
    have hnodes := hnodes.of_mapM
    have harrows := harrows.of_mapM
    constructor
    · rw [map_eq_of_forall₂ (f := fun x : DraftNode × Nat => types.getD x.2 .unit) hnodes
        fun x n hn => (readNode_shows hn).1]
      refine List.ext_getElem (by simp [hlen]) fun i hi hi' => ?_
      simp [List.getD_eq_getElem?_getD, hi']
    · simp only [Program.toDraft, untyped, List.map_map, Draft.mk.injEq]
      constructor
      · rw [← List.zipIdx_map_fst 0 d.nodes, List.map_map]
        refine map_eq_of_forall₂ hnodes fun x n hn => ?_
        obtain ⟨_, hname, hinput, hlabels⟩ := readNode_shows hn
        simp [hname, hinput, hlabels]
      · have hall := map_eq_of_forall₂ (f := id) harrows fun c a ha => readArrow_shows ha
        rwa [List.map_id] at hall
  · exact absurd h not_returns_throw

end

/-- Reading the types of a program that is drawn again. -/
theorem mapM_read_toDraft {m : Type → Type} [Monad m] [LawfulMonad m] {p : Program}
    (h : ∀ n ∈ p.nodes, n.ty.Written) :
    (p.toDraft.nodes.mapM fun node => Ty.read (SymbolTable.prelude.resolver : Resolver m) node.type) =
      pure (p.nodes.map Node.ty) := by
  simp only [Program.toDraft, List.mapM_map]
  generalize p.nodes = nodes at h
  induction nodes with
  | nil => simp
  | cons n nodes ih =>
    have hn := Ty.read_pretty (m := m) (h n (by simp))
    simp [hn, ih fun n' hn' => h n' (by simp [hn'])]

/-- **Reading undoes drawing.** A program that the prelude reads from a graph is read again from its
own drawing, which is the graph with the types in their canonical spelling. -/
theorem readWith_toDraft {d : Draft} {p : Program} (h : d.readWith .prelude = .ok p) :
    p.toDraft.readWith .prelude = .ok p ∧ p.toDraft.untyped = d.untyped := by
  rw [readWith_ok] at h ⊢
  rw [ofDraft_eq] at h
  split at h
  · exact absurd h not_returns_throw
  · rename_i u hcheck
    obtain ⟨types, htypes, h⟩ := h.of_bind
    have htypes := htypes.of_mapM
    obtain ⟨htys, hsame⟩ := readTyped_shows htypes.length_eq.symm h
    refine ⟨?_, hsame⟩
    have hconnections : p.toDraft.connections = d.connections := by
      have hboth := congrArg Draft.connections hsame
      exact hboth
    have hwritten : ∀ n ∈ p.nodes, n.ty.Written := by
      intro n hn
      have hty : n.ty ∈ types := htys ▸ List.mem_map_of_mem hn
      obtain ⟨i, hi, hget⟩ := List.mem_iff_getElem.1 hty
      rw [← hget]
      exact Ty.read_written (htypes.get (by rw [htypes.length_eq]; exact hi) hi)
    rw [ofDraft_eq, ← checkAll_untyped, hconnections, hsame, checkAll_untyped, hcheck]
    dsimp only
    rw [mapM_read_toDraft hwritten, pure_bind, htys, ← readTyped_untyped, hsame, readTyped_untyped]
    exact h

/-- A graph whose types have synonyms, a list in brackets, a class context and needless parentheses. -/
def loosely : Draft where
  nodes := [⟨"((Integer, [Char]))", some "f", ["(0, _)", "_"], false⟩, ⟨"Eq a =>  Integer", none, [], true⟩,
    ⟨"Int", none, [], true⟩]
  connections := [⟨0, 1, 0, "fst"⟩, ⟨0, 2, 1, "1"⟩]

theorem readWith_toDraft_loosely : ∃ p, loosely.readWith .prelude = .ok p ∧
    p.toDraft.nodes.map DraftNode.type = ["(Int, List Char)", "Int", "Int"] ∧
    p.toDraft.readWith .prelude = .ok p ∧ p.toDraft.untyped = loosely.untyped := by
  have hread : (loosely.readWith .prelude).toOption.any (fun p =>
      p.toDraft.nodes.map DraftNode.type = ["(Int, List Char)", "Int", "Int"]) = true := by decide +kernel
  cases hp : loosely.readWith .prelude with
  | error e =>
    rw [hp] at hread
    cases hread
  | ok p =>
    rw [hp] at hread
    exact ⟨p, rfl, of_decide_eq_true hread, readWith_toDraft hp⟩

end Draft

end Dataflow
