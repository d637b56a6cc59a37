import Dataflow.Program.Typing
import Mathlib.Data.List.Forall2
import Mathlib.Tactic.Common

/-!
# Programs that were read are consistent

A program that comes out of reading a drawn graph lists every arrow where it belongs: at the pin it
leaves and at the node it enters. `Draft.ReadsAs` says that some resolver, which may keep a state and
answer differently each time, reads the graph as the program. Everything else about programs starts
from `Program.Consistent`.
-/

namespace Dataflow

/-! ## Computations that return -/

/-- From some state, the computation ends with the value. -/
def Returns {ε σ α : Type} (x : ExceptT ε (StateM σ) α) (a : α) : Prop :=
  ∃ s s', x.run.run s = (.ok a, s')

section
variable {ε σ α β : Type}

theorem Returns.of_bind {x : ExceptT ε (StateM σ) α} {f : α → ExceptT ε (StateM σ) β} {b : β}
    (h : Returns (x >>= f) b) : ∃ a, Returns x a ∧ Returns (f a) b := by
  obtain ⟨s, s'', h⟩ := h
  rw [ExceptT.run_bind, StateT.run_bind] at h
  rcases hx : StateT.run x.run s with ⟨e | a, s'⟩
  · rw [hx] at h
    cases h
  · rw [hx] at h
    exact ⟨a, ⟨s, s', hx⟩, ⟨s', s'', h⟩⟩

theorem Returns.of_pure {a b : α} (h : Returns (pure a : ExceptT ε (StateM σ) α) b) : b = a := by
  obtain ⟨s, s', h⟩ := h
  cases h
  rfl

theorem not_returns_throw {e : ε} {a : α} : ¬ Returns (throw e : ExceptT ε (StateM σ) α) a := by
  rintro ⟨s, s', h⟩
  cases h

theorem Returns.of_mapM {f : α → ExceptT ε (StateM σ) β} {l : List α} {bs : List β}
    (h : Returns (l.mapM f) bs) : List.Forall₂ (fun a b => Returns (f a) b) l bs := by
  induction l generalizing bs with
  | nil =>
    rw [List.mapM_nil] at h
    obtain rfl := h.of_pure
    exact .nil
  | cons a l ih =>
    rw [List.mapM_cons] at h
    obtain ⟨b, hb, h⟩ := h.of_bind
    obtain ⟨rest, hrest, h⟩ := h.of_bind
    obtain rfl := h.of_pure
    exact .cons hb (ih hrest)

end

theorem Except.bind_ok {ε α β : Type} {x : Except ε α} {f : α → Except ε β} {b : β} :
    (x >>= f) = .ok b ↔ ∃ a, x = .ok a ∧ f a = .ok b := by
  cases x <;> simp [bind, Except.bind]

theorem Except.bind_error {ε α β : Type} {x : Except ε α} {f : α → Except ε β} {e : ε} :
    (x >>= f) = .error e ↔ x = .error e ∨ ∃ a, x = .ok a ∧ f a = .error e := by
  cases x <;> simp [bind, Except.bind]

theorem Except.map_ok {ε α β : Type} {x : Except ε α} {f : α → β} {b : β} :
    x.map f = .ok b ↔ ∃ a, x = .ok a ∧ f a = b := by
  cases x <;> simp [Except.map]

theorem Except.any_toOption {ε α : Type} {x : Except ε α} {q : α → Bool} :
    x.toOption.any q = true ↔ ∃ a, x = .ok a ∧ q a = true := by
  cases x <;> simp [Except.toOption]

/-- Some resolver reads the graph as the program. -/
def Draft.ReadsAs (d : Draft) (p : Program) : Prop :=
  ∃ (σ : Type) (find : Resolver (StateM σ)), Returns (Program.ofDraft find d) p

namespace Program

/-- Arrows join pins and nodes that exist, and the lists of arrows hold what they should: a pin those
that leave it, a node those that enter it, in ascending order. The only pin of a node takes every
value, and the inputs of an intersection fill its slots. -/
structure Consistent (p : Program) : Prop where
  ends : ∀ a < p.arrows.length, (p.arrow a).source < p.nodes.length ∧ (p.arrow a).target < p.nodes.length ∧
    (p.arrow a).pin < (p.node (p.arrow a).source).pins.length
  incoming : ∀ i, (p.node i).incoming =
    (List.range p.arrows.length).filter fun a => (p.arrow a).target = i
  leaving : ∀ i k pin, (p.node i).pins[k]? = some pin →
    pin.arrows = (List.range p.arrows.length).filter fun a => (p.arrow a).source = i ∧ (p.arrow a).pin = k
  onlyPin : ∀ i pin, (p.node i).pins = [pin] → pin.brancher = .any
  slots : ∀ i, p.checkNode i (p.node i) = .ok ()

theorem node_of_ge {p : Program} {i : Nat} (hi : p.nodes.length ≤ i) : p.node i = default := by
  simp [node, List.getD_eq_getElem?_getD, List.getElem?_eq_none hi]

theorem node_of_lt {p : Program} {i : Nat} (hi : i < p.nodes.length) : p.node i = p.nodes[i] := by
  simp [node, List.getD_eq_getElem?_getD, hi]

theorem arrow_of_lt {p : Program} {a : Nat} (ha : a < p.arrows.length) : p.arrow a = p.arrows[a] := by
  simp [arrow, List.getD_eq_getElem?_getD, ha]

end Program

/-! ## Reading gives consistent programs -/

/-- The positions of the elements with a property. -/
theorem filter_zipIdx_positions {α : Type} (l : List α) (q : α → Bool) (r : Nat → Bool)
    (hqr : ∀ i (hi : i < l.length), q l[i] = r i) :
    (l.zipIdx.filter fun x => q x.1).map (·.2) = (List.range l.length).filter r := by
  have hfilter : (l.zipIdx.filter fun x => q x.1) = l.zipIdx.filter (r ∘ Prod.snd) := by
    refine List.filter_congr fun x hx => ?_
    obtain ⟨hlt, hx⟩ := List.mem_zipIdx' hx
    simp only [Function.comp_apply, hx, hqr x.2 hlt]
  rw [hfilter, ← List.filter_map, List.zipIdx_map_snd, List.range_eq_range']

namespace Draft

theorem checkAll_ok {d : Draft} {cs : List Connection} : d.checkAll cs = .ok () ↔ ∀ c ∈ cs, d.check c = .ok () := by
  induction cs with
  | nil => simp [checkAll]
  | cons c cs ih =>
    rw [checkAll, List.forall_mem_cons, ← ih]
    cases d.check c <;> simp

/-- A connection that fits has both its ends. -/
theorem check_ok {d : Draft} {c : Connection} (h : d.check c = .ok ()) :
    ∃ source target, d.nodes[c.source]? = some source ∧ c.pin < source.branchers.length ∧
      d.nodes[c.target]? = some target ∧ target.hasInput = true := by
  unfold check at h
  split at h
  · cases h
  · rename_i source hsource
    split at h
    · cases h
    · rename_i hpin
      split at h
      · cases h
      · rename_i target htarget
        split at h
        · rename_i hinput
          exact ⟨source, target, hsource, by omega, htarget, hinput⟩
        · cases h

section
variable {σ : Type} {find : Resolver (StateM σ)} {d : Draft}

theorem readArrow_returns {c : Connection} {a : Arrow} (h : Returns (readArrow find c) a) :
    a.source = c.source ∧ a.pin = c.pin ∧ a.target = c.target := by
  obtain ⟨f, _, h⟩ := Returns.of_bind h
  obtain rfl := h.of_pure
  exact ⟨rfl, rfl, rfl⟩

/-- The pins of a node are its branchers, with the arrows that leave each. -/
theorem readPins_returns {i : Nat} {node : DraftNode} {pins : List Pin} (h : Returns (d.readPins find i node) pins) :
    pins.length = node.branchers.length ∧
    (∀ k pin, pins[k]? = some pin → pin.arrows = d.arrowsWhere fun c => c.source = i && c.pin = k) ∧
    ∀ pin, pins = [pin] → pin.brancher = .any := by
  have hall := Returns.of_mapM h
  have hlen : pins.length = node.branchers.length := by simpa using hall.length_eq.symm
  have hpin : ∀ k pin, pins[k]? = some pin → pin.arrows = (d.arrowsWhere fun c => c.source = i && c.pin = k) ∧
      (node.branchers.length = 1 → pin.brancher = .any) := by
    intro k pin hk
    obtain ⟨hlt, rfl⟩ := List.getElem?_eq_some_iff.1 hk
    have hget := (List.forall₂_iff_get.1 hall).2 k (by simpa [hlen] using hlt) hlt
    simp only [List.get_eq_getElem, List.getElem_zipIdx, Nat.zero_add] at hget
    split at hget
    · obtain ⟨brancher, hbrancher, hget⟩ := hget.of_bind
      rw [hget.of_pure]
      exact ⟨rfl, fun _ => hbrancher.of_pure⟩
    · rename_i hone
      obtain ⟨brancher, _, hget⟩ := hget.of_bind
      rw [hget.of_pure]
      exact ⟨rfl, fun h => absurd h hone⟩
  refine ⟨hlen, fun k pin hk => (hpin k pin hk).1, fun pin hpins => (hpin 0 pin (by simp [hpins])).2 ?_⟩
  rw [← hlen, hpins]
  rfl

theorem readNode_returns {types : List Ty} {i : Nat} {node : DraftNode} {n : Node}
    (h : Returns (d.readNode find types i node) n) :
    Returns (d.readPins find i node) n.pins ∧ n.incoming = d.arrowsWhere fun c => c.target = i := by
  obtain ⟨pins, hpins, h⟩ := Returns.of_bind h
  obtain rfl := h.of_pure
  exact ⟨hpins, rfl⟩

end

end Draft

namespace Program

theorem checkNodes_ok {p : Program} : ∀ {ns : List (Node × Nat)}, p.checkNodes ns = .ok () →
    ∀ n ∈ ns, p.checkNode n.2 n.1 = .ok ()
  | (n, i) :: ns, h, m, hm => by
    simp only [checkNodes] at h
    split at h
    · rename_i u hu
      rcases List.mem_cons.1 hm with rfl | hm
      · exact hu
      · exact checkNodes_ok h m hm
    · cases h

/-- What reading a graph gives, node by node and arrow by arrow. -/
theorem ofDraft_returns {σ : Type} {find : Resolver (StateM σ)} {d : Draft} {p : Program}
    (h : Returns (ofDraft find d) p) :
    (∀ c ∈ d.connections, d.check c = .ok ()) ∧
    (∃ (find' : Resolver (StateM σ)) (types : List Ty), Returns (d.nodes.mapM fun node => Ty.read find node.type) types ∧
      List.Forall₂ (fun node n => Returns (d.readNode find' types node.2 node.1) n) d.nodes.zipIdx p.nodes ∧
      List.Forall₂ (fun c a => Returns (Draft.readArrow find' c) a) d.connections p.arrows) ∧
    ∀ n ∈ p.nodes.zipIdx, p.checkNode n.2 n.1 = .ok () := by
  unfold ofDraft at h
  split at h
  · exact absurd h not_returns_throw
  · rename_i u hcheck
    obtain ⟨types, htypes, h⟩ := h.of_bind
    obtain ⟨nodes, hnodes, h⟩ := h.of_bind
    obtain ⟨arrows, harrows, h⟩ := h.of_bind
    dsimp only at h
    split at h
    · rename_i u' hslots
      obtain rfl := h.of_pure
      exact ⟨Draft.checkAll_ok.1 hcheck, ⟨_, types, htypes, hnodes.of_mapM, harrows.of_mapM⟩, checkNodes_ok hslots⟩
    · exact absurd h not_returns_throw

end Program

/-- A program that a graph is read as is consistent. -/
theorem Draft.ReadsAs.consistent {d : Draft} {p : Program} (h : d.ReadsAs p) : p.Consistent := by
  obtain ⟨σ, find, h⟩ := h
  obtain ⟨hcheck, ⟨find, types, _, hnodes, harrows⟩, hslots⟩ := Program.ofDraft_returns h
  have hlen : p.nodes.length = d.nodes.length := by simpa using hnodes.length_eq.symm
  have halen : p.arrows.length = d.connections.length := harrows.length_eq.symm
  have harrow : ∀ a (ha : a < d.connections.length), (p.arrow a).source = d.connections[a].source ∧
      (p.arrow a).pin = d.connections[a].pin ∧ (p.arrow a).target = d.connections[a].target := by
    intro a ha
    have hget := (List.forall₂_iff_get.1 harrows).2 a ha (by omega)
    rw [Program.arrow_of_lt (by omega)]
    exact Draft.readArrow_returns hget
  have hnode : ∀ i (hi : i < d.nodes.length), Returns (d.readNode find types i d.nodes[i]) (p.node i) := by
    intro i hi
    have hget := (List.forall₂_iff_get.1 hnodes).2 i (by simpa using hi) (by omega)
    rw [Program.node_of_lt (by omega)]
    simpa using hget
  have hwhere : ∀ (q : Connection → Bool) (r : Nat → Bool),
      (∀ a (ha : a < d.connections.length), q d.connections[a] = r a) →
      d.arrowsWhere q = (List.range p.arrows.length).filter r := by
    intro q r hqr
    rw [halen]
    exact filter_zipIdx_positions d.connections q r hqr
  have hends : ∀ a < p.arrows.length, (p.arrow a).source < p.nodes.length ∧ (p.arrow a).target < p.nodes.length ∧
      (p.arrow a).pin < (p.node (p.arrow a).source).pins.length := by
    intro a ha
    rw [halen] at ha
    obtain ⟨hs, hpin, ht⟩ := harrow a ha
    obtain ⟨source, target, hsource, hlt, htarget, _⟩ := Draft.check_ok (hcheck _ (List.getElem_mem ha))
    obtain ⟨hsl, hsource⟩ := List.getElem?_eq_some_iff.1 hsource
    obtain ⟨htl, _⟩ := List.getElem?_eq_some_iff.1 htarget
    have hpins := (Draft.readPins_returns (Draft.readNode_returns (hnode _ hsl)).1).1
    rw [hs, ht, hpin, hlen]
    refine ⟨hsl, htl, ?_⟩
    rw [hpins, hsource]
    exact hlt
  refine ⟨hends, fun i => ?_, fun i k pin hk => ?_, fun i pin hpins => ?_, fun i => ?_⟩
  · by_cases hi : i < d.nodes.length
    · rw [(Draft.readNode_returns (hnode i hi)).2]
      exact hwhere _ _ fun a ha => by rw [(harrow a ha).2.2]
    · rw [Program.node_of_ge (by omega)]
      refine (List.filter_eq_nil_iff.2 fun a ha => ?_).symm
      have := (hends a (by simpa using ha)).2.1
      simp only [decide_eq_true_eq]
      omega
  · have hi : i < d.nodes.length := by
      by_contra hi
      rw [Program.node_of_ge (by omega)] at hk
      cases hk
    rw [(Draft.readPins_returns (Draft.readNode_returns (hnode i hi)).1).2.1 k pin hk]
    exact hwhere _ _ fun a ha => by simp [(harrow a ha).1, (harrow a ha).2.1]
  · have hi : i < d.nodes.length := by
      by_contra hi
      rw [Program.node_of_ge (by omega)] at hpins
      cases hpins
    exact (Draft.readPins_returns (Draft.readNode_returns (hnode i hi)).1).2.2 pin hpins
  · by_cases hi : i < p.nodes.length
    · rw [Program.node_of_lt hi]
      exact hslots (p.nodes[i], i) (by simp [List.mk_mem_zipIdx_iff_getElem?])
    · rw [Program.node_of_ge (by omega)]
      rfl

end Dataflow
