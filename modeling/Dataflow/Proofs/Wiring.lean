import Dataflow.Proofs.Reaching
import Dataflow.Proofs.Redraw
import Mathlib.Data.List.Nodup
import Mathlib.Data.Set.Function

/-!
# Wiring

A program lists its arrows twice: a pin has those that leave it and a node those that enter it. In a
program that was read both kinds of lists divide the arrows among them, in ascending order
(`Program.WellWired`).

The lists can be made by noting one connection after the other, at a pin that is looked up and then at a
node that is looked up. `wire?` does so and gives up when there is no such pin or node. On a graph whose
connections pass the check it never does, whatever the texts of the graph say, and what it gives are the
lists of the program (`Draft.NodesRead.wires`).
-/

namespace Dataflow

/-! ## Noting connections one by one -/

/-- The node before arrows are noted. -/
def Node.bare (n : Node) : Node := { n with pins := n.pins.map fun pin => { pin with arrows := [] }, incoming := [] }

/-- Notes an arrow at the pin that its connection leaves. -/
def leave? (nodes : List Node) (c : Connection) (a : Nat) : Option (List Node) := do
  let n ← nodes[c.source]?
  let pin ← n.pins[c.pin]?
  pure (nodes.set c.source { n with pins := n.pins.set c.pin { pin with arrows := pin.arrows ++ [a] } })

/-- Notes an arrow at the node that its connection enters. -/
def enter? (nodes : List Node) (c : Connection) (a : Nat) : Option (List Node) := do
  let n ← nodes[c.target]?
  pure (nodes.set c.target { n with incoming := n.incoming ++ [a] })

/-- Notes numbered connections in order. -/
def wire? : List (Connection × Nat) → List Node → Option (List Node)
  | [], nodes => some nodes
  | (c, a) :: rest, nodes => do
    let nodes ← leave? nodes c a
    let nodes ← enter? nodes c a
    wire? rest nodes

/-- The node of number `i` once the connections `out` have been noted at the pins they leave and the
connections `into` at the nodes they enter. -/
def Node.noted (out into : List Connection) (i : Nat) (n : Node) : Node :=
  { n with
    pins := n.pins.mapIdx fun k pin =>
      { pin with arrows := Draft.arrowsWhere { connections := out } fun c => c.source = i && c.pin = k }
    incoming := Draft.arrowsWhere { connections := into } fun c => c.target = i }

theorem Draft.arrowsWhere_snoc (cs : List Connection) (c : Connection) (q : Connection → Bool) :
    arrowsWhere { connections := cs ++ [c] } q =
      arrowsWhere { connections := cs } q ++ if q c then [cs.length] else [] := by
  simp only [arrowsWhere, List.zipIdx_append, List.filter_append, List.map_append]
  by_cases hc : q c = true
  · simp [hc]
  · simp [hc]

/-- Two functions of place and element that differ at one place only. -/
theorem set_mapIdx {α β : Type} {f g : Nat → α → β} {l : List α} {k : Nat} {a : α} {b : β} (ha : l[k]? = some a)
    (hb : b = g k a) (hne : ∀ i a, k ≠ i → f i a = g i a) : (l.mapIdx f).set k b = l.mapIdx g := by
  refine List.ext_getElem? fun i => ?_
  rw [List.getElem?_set, List.getElem?_mapIdx, List.getElem?_mapIdx, List.length_mapIdx]
  by_cases hi : k = i
  · subst hi
    rw [if_pos rfl, if_pos (List.getElem?_eq_some_iff.1 ha).1, ha, Option.map_some, hb]
  · rw [if_neg hi]
    exact congrArg (l[i]?.map ·) (funext fun a => hne i a hi)

section
variable {out into : List Connection} {c : Connection} {nodes : List Node} {n : Node}

theorem leave?_noted (hn : nodes[c.source]? = some n) (hpin : c.pin < n.pins.length) :
    leave? (nodes.mapIdx fun i n => n.noted out into i) c out.length =
      some (nodes.mapIdx fun i n => n.noted (out ++ [c]) into i) := by
  have hfound : (nodes.mapIdx fun i n => n.noted out into i)[c.source]? = some (n.noted out into c.source) := by
    rw [List.getElem?_mapIdx, hn, Option.map_some]
  obtain ⟨pin, hpin⟩ : ∃ pin, n.pins[c.pin]? = some pin := ⟨_, List.getElem?_eq_getElem hpin⟩
  have hpins : (n.noted out into c.source).pins[c.pin]? = some { pin with
      arrows := Draft.arrowsWhere { connections := out } fun b => b.source = c.source && b.pin = c.pin } := by
    rw [Node.noted, List.getElem?_mapIdx, hpin, Option.map_some]
  simp only [leave?, hfound, hpins, Option.bind_eq_bind, Option.bind_some, Option.pure_def, Option.some.injEq]
  -- one node changes, and of its pins one
  refine set_mapIdx hn ?_ fun i b hi => by simp [Node.noted, Draft.arrowsWhere_snoc, hi]
  simp only [Node.noted, Node.mk.injEq, true_and, and_true]
  refine set_mapIdx hpin ?_ fun k b hk => by simp [Draft.arrowsWhere_snoc, hk]
  simp [Draft.arrowsWhere_snoc]

theorem enter?_noted (hn : nodes[c.target]? = some n) :
    enter? (nodes.mapIdx fun i n => n.noted out into i) c into.length =
      some (nodes.mapIdx fun i n => n.noted out (into ++ [c]) i) := by
  have hfound : (nodes.mapIdx fun i n => n.noted out into i)[c.target]? = some (n.noted out into c.target) := by
    rw [List.getElem?_mapIdx, hn, Option.map_some]
  simp only [enter?, hfound, Option.bind_eq_bind, Option.bind_some, Option.pure_def, Option.some.injEq]
  refine set_mapIdx hn ?_ fun i b hi => by simp [Node.noted, Draft.arrowsWhere_snoc, hi]
  simp [Node.noted, Draft.arrowsWhere_snoc]

end

/-- The ends of a connection are among the nodes. -/
def Connection.Fits (nodes : List Node) (c : Connection) : Prop :=
  (∃ n, nodes[c.source]? = some n ∧ c.pin < n.pins.length) ∧ ∃ n, nodes[c.target]? = some n

/-- Connections whose ends are there are noted to the last one. -/
theorem wire?_noted {nodes : List Node} : ∀ (rest done : List Connection), (∀ c ∈ rest, c.Fits nodes) →
    wire? (rest.zipIdx done.length) (nodes.mapIdx fun i n => n.noted done done i) =
      some (nodes.mapIdx fun i n => n.noted (done ++ rest) (done ++ rest) i)
  | [], done, _ => by rw [List.append_nil]; rfl
  | c :: rest, done, hfits => by
    obtain ⟨⟨source, hsource, hpin⟩, target, htarget⟩ := hfits c List.mem_cons_self
    have hrest := wire?_noted rest (done ++ [c]) fun c' hc' => hfits c' (List.mem_cons_of_mem _ hc')
    rw [List.length_append, List.length_singleton, List.append_assoc, List.singleton_append] at hrest
    rw [List.zipIdx_cons, wire?, leave?_noted hsource hpin]
    simp only [Option.bind_eq_bind, Option.bind_some]
    rw [enter?_noted htarget]
    exact hrest

theorem map_bare (nodes : List Node) : nodes.map Node.bare = nodes.mapIdx fun i n => n.noted [] [] i := by
  refine List.ext_getElem? fun i => ?_
  rw [List.getElem?_map, List.getElem?_mapIdx]
  refine congrArg (nodes[i]?.map ·) (funext fun n => ?_)
  have hpins : (n.pins.map fun pin => { pin with arrows := [] }) = (n.noted [] [] i).pins := by
    refine List.ext_getElem? fun k => ?_
    rw [Node.noted, List.getElem?_map, List.getElem?_mapIdx]
    rfl
  rw [Node.bare, hpins]
  rfl

namespace Draft

/-- The nodes are read off the drawn ones, with types that may be any. -/
def NodesRead {σ : Type} (d : Draft) (find : Resolver (StateM σ)) (types : List Ty) (nodes : List Node) : Prop :=
  List.Forall₂ (fun node n => Returns (d.readNode find types node.2 node.1) n) d.nodes.zipIdx nodes

variable {σ : Type} {find : Resolver (StateM σ)} {d : Draft} {types : List Ty} {nodes : List Node}

theorem NodesRead.length_eq (h : d.NodesRead find types nodes) : nodes.length = d.nodes.length := by
  simpa using (List.Forall₂.length_eq h).symm

theorem NodesRead.get (h : d.NodesRead find types nodes) {i : Nat} {node : DraftNode} {n : Node}
    (hnode : d.nodes[i]? = some node) (hn : nodes[i]? = some n) : Returns (d.readNode find types i node) n := by
  obtain ⟨hi, rfl⟩ := List.getElem?_eq_some_iff.1 hnode
  obtain ⟨hi', rfl⟩ := List.getElem?_eq_some_iff.1 hn
  have hget := (List.forall₂_iff_get.1 h).2 i (by simpa using hi) hi'
  simpa using hget

/-- The nodes have a pin for every brancher, so connections that pass the check have their ends. -/
theorem NodesRead.fits (h : d.NodesRead find types nodes) {c : Connection} (hcheck : d.check c = .ok ()) :
    c.Fits nodes := by
  have hsome : ∀ (i : Nat) (node : DraftNode), d.nodes[i]? = some node → ∃ n, nodes[i]? = some n := by
    intro i node hnode
    have hlt := (List.getElem?_eq_some_iff.1 hnode).1
    exact ⟨_, List.getElem?_eq_getElem (by rw [h.length_eq]; exact hlt)⟩
  obtain ⟨source, target, hsource, hpin, htarget, _⟩ := check_ok hcheck
  obtain ⟨n, hn⟩ := hsome c.source source hsource
  have hpins := (readPins_returns (readNode_returns (h.get hsource hn)).1).1
  exact ⟨⟨n, hn, by omega⟩, hsome c.target target htarget⟩

/-- The lists of the nodes are what noting all connections gives. -/
theorem NodesRead.noted_eq (h : d.NodesRead find types nodes) :
    (nodes.mapIdx fun i n => n.noted d.connections d.connections i) = nodes := by
  refine List.ext_getElem? fun i => ?_
  rw [List.getElem?_mapIdx]
  cases hn : nodes[i]? with
  | none => rfl
  | some n =>
    have hlt := (List.getElem?_eq_some_iff.1 hn).1
    rw [h.length_eq] at hlt
    obtain ⟨hpins, hincoming⟩ := readNode_returns (h.get (List.getElem?_eq_getElem hlt) hn)
    have harrows : (n.noted d.connections d.connections i).pins = n.pins := by
      refine List.ext_getElem? fun k => ?_
      rw [Node.noted, List.getElem?_mapIdx]
      cases hk : n.pins[k]? with
      | none => rfl
      | some pin =>
        rw [Option.map_some, Option.some.injEq, Pin.mk.injEq, (readPins_returns hpins).2.1 k pin hk]
        exact ⟨rfl, rfl, rfl⟩
    rw [Option.map_some, Option.some.injEq]
    calc n.noted d.connections d.connections i
        = { n with
            pins := (n.noted d.connections d.connections i).pins
            incoming := d.arrowsWhere fun c => c.target = i } := rfl
      _ = n := by rw [harrows, ← hincoming]

/-- **No lookup fails** when the connections of a graph that passes the check are noted one by one, and
they make the lists that the nodes are read with. -/
theorem NodesRead.wires (h : d.NodesRead find types nodes) (hcheck : d.checkAll d.connections = .ok ()) :
    wire? d.connections.zipIdx (nodes.map Node.bare) = some nodes := by
  have hwired := wire?_noted d.connections [] fun c hc => h.fits (checkAll_ok.1 hcheck c hc)
  rw [List.nil_append, h.noted_eq] at hwired
  rw [map_bare]
  exact hwired

/-- Search in the graph stays among its nodes. -/
theorem reach_lt (hcheck : d.checkAll d.connections = .ok ()) {i j : Nat} (hi : i < d.nodes.length)
    (hj : j ∈ reach d.successors d.connections.length [i]) : j < d.nodes.length := by
  obtain ⟨k, hk, hway⟩ := (reachWithin_sound hj).resolve_left (by simp)
  rw [List.mem_singleton.1 hk] at hway
  rcases Relation.ReflTransGen.cases_tail hway with rfl | ⟨m, _, hedge⟩
  · exact hi
  · obtain ⟨c, hc, rfl⟩ := List.mem_map.1 hedge
    obtain ⟨_, target, _, _, htarget, _⟩ := check_ok (checkAll_ok.1 hcheck c (List.mem_filter.1 hc).1)
    exact (List.getElem?_eq_some_iff.1 htarget).1

end Draft

/-! ## The lists divide the arrows -/

/-- Sorted by a key that is less than `n`, the numbers less than `m` are divided among `n` lists. -/
theorem flatMap_range_perm {f : Nat → List Nat} {key : Nat → Nat} {m n : Nat} (hnodup : ∀ i, (f i).Nodup)
    (hmem : ∀ i a, a ∈ f i ↔ a < m ∧ key a = i) (hkey : ∀ a < m, key a < n) :
    ((List.range n).flatMap f).Perm (List.range m) := by
  have hall : ((List.range n).flatMap f).Nodup := by
    refine List.nodup_flatMap.2 ⟨fun i _ => hnodup i, List.nodup_range.imp fun {i j} hij a hi hj => ?_⟩
    exact hij (((hmem i a).1 hi).2.symm.trans ((hmem j a).1 hj).2)
  refine (List.perm_ext_iff_of_nodup hall List.nodup_range).2 fun a => ?_
  simp only [List.mem_flatMap, List.mem_range, hmem]
  constructor
  · rintro ⟨i, _, ha, _⟩
    exact ha
  · intro ha
    exact ⟨key a, hkey a ha, ha, rfl⟩

namespace Program

variable {p : Program}

theorem nodes_eq_map (p : Program) : p.nodes = (List.range p.nodes.length).map p.node := by
  refine List.ext_getElem (by simp) fun i hi _ => ?_
  rw [List.getElem_map, List.getElem_range, node_of_lt hi]

section
variable (hp : p.Consistent)
include hp

theorem outgoing_divides : (p.nodes.flatMap Node.outgoing).Perm (List.range p.arrows.length) := by
  rw [nodes_eq_map, List.flatMap_map]
  refine flatMap_range_perm (fun i => ?_) (fun i a => mem_outgoing hp) fun a ha => (hp.ends a ha).1
  exact (outgoing_perm hp i).nodup_iff.2 (List.nodup_range.filter _)

theorem incoming_divides : (p.nodes.flatMap Node.incoming).Perm (List.range p.arrows.length) := by
  rw [nodes_eq_map, List.flatMap_map]
  refine flatMap_range_perm (fun i => ?_) (fun i a => History.mem_incoming hp) fun a ha => (hp.ends a ha).2.1
  rw [hp.incoming]
  exact List.nodup_range.filter _

/-- The arrows into an intersection go to its slots one to one. -/
theorem slots_bijOn {n : Nat} (hpos : ∃ a ∈ (p.node n).incoming, (p.arrow a).isPositional = true) :
    ∃ slot : Nat → Nat, (∀ a ∈ (p.node n).incoming, (p.arrow a).morphism = .slot (some (slot a))) ∧
      Set.BijOn slot { a | a ∈ (p.node n).incoming } { k | k < (p.node n).ty.components.length } := by
  have hslot : ∀ a ∈ (p.node n).incoming,
      (p.arrow a).morphism = .slot (some ((p.arrow a).morphism.slot?.join.getD 0)) := by
    intro a ha
    obtain ⟨k, hk⟩ := isPositional_iff.1 (all_positional hp hpos a ha)
    simp [hk, Morphism.slot?]
  have hmap : (p.node n).incoming.map (fun a => (p.arrow a).morphism.slot?.join.getD 0) = p.slots (p.node n) := by
    rw [slots, ← List.filterMap_eq_map]
    refine List.filterMap_congr fun a ha => ?_
    rw [hslot a ha]
    simp [Morphism.slot?]
  have hperm := slots_perm hp hpos
  have hnodup := (slots_filled hp hpos).1
  rw [(slots_filled hp hpos).2.2.2] at hperm
  rw [← hmap] at hnodup
  refine ⟨_, hslot, fun a ha => ?_, fun a ha b hb => List.inj_on_of_nodup_map hnodup ha hb, fun k hk => ?_⟩
  · have hmem := hperm.mem_iff.1 (hmap ▸ List.mem_map_of_mem ha)
    exact List.mem_range.1 hmem
  · have hmem := hperm.mem_iff.2 (List.mem_range.2 hk)
    rw [← hmap] at hmem
    exact List.mem_map.1 hmem

end

/-- Every arrow is listed once at the pins, at the pin it leaves, and once at the nodes, at the node it
enters, which takes input. The lists are ascending, the only pin of a node takes every value, and the
arrows into a node fill the slots of its type one to one unless none of them is positional. -/
structure WellWired (p : Program) : Prop where
  leaving : (p.nodes.flatMap Node.outgoing).Perm (List.range p.arrows.length)
  entering : (p.nodes.flatMap Node.incoming).Perm (List.range p.arrows.length)
  source : ∀ a < p.arrows.length, ∃ n pin, p.nodes[(p.arrow a).source]? = some n ∧
    n.pins[(p.arrow a).pin]? = some pin ∧ a ∈ pin.arrows
  target : ∀ a < p.arrows.length, ∃ n, p.nodes[(p.arrow a).target]? = some n ∧ a ∈ n.incoming ∧ n.hasInput = true
  ascending : ∀ n ∈ p.nodes, n.incoming.Pairwise (· < ·) ∧ ∀ pin ∈ n.pins, pin.arrows.Pairwise (· < ·)
  onlyPin : ∀ n ∈ p.nodes, ∀ pin, n.pins = [pin] → pin.brancher = .any
  slots : ∀ n ∈ p.nodes, (∀ a ∈ n.incoming, (p.arrow a).isPositional = false) ∨
    ∃ slot : Nat → Nat, (∀ a ∈ n.incoming, (p.arrow a).morphism = .slot (some (slot a))) ∧
      Set.BijOn slot { a | a ∈ n.incoming } { k | k < n.ty.components.length }

theorem Consistent.wellWired (hp : p.Consistent)
    (hinput : ∀ a < p.arrows.length, (p.node (p.arrow a).target).hasInput = true) : p.WellWired := by
  have hnode : ∀ n ∈ p.nodes, ∃ i, n = p.node i := by
    intro n hn
    obtain ⟨i, hi, rfl⟩ := List.mem_iff_getElem.1 hn
    exact ⟨i, (node_of_lt hi).symm⟩
  have hget : ∀ i < p.nodes.length, p.nodes[i]? = some (p.node i) := by
    intro i hi
    rw [node_of_lt hi, List.getElem?_eq_getElem]
  refine ⟨outgoing_divides hp, incoming_divides hp, fun a ha => ?_, fun a ha => ?_, fun n hn => ?_, fun n hn => ?_,
    fun n hn => ?_⟩
  · obtain ⟨hsource, _, hpin⟩ := hp.ends a ha
    refine ⟨_, _, hget _ hsource, List.getElem?_eq_getElem hpin, ?_⟩
    rw [hp.leaving _ _ _ (List.getElem?_eq_getElem hpin)]
    simp [ha]
  · exact ⟨_, hget _ (hp.ends a ha).2.1, (History.mem_incoming hp).2 ⟨ha, rfl⟩, hinput a ha⟩
  · obtain ⟨i, rfl⟩ := hnode n hn
    refine ⟨?_, fun pin hpin => ?_⟩
    · rw [hp.incoming]
      exact List.pairwise_lt_range.filter _
    · obtain ⟨k, hk⟩ := List.mem_iff_getElem?.1 hpin
      rw [hp.leaving i k pin hk]
      exact List.pairwise_lt_range.filter _
  · obtain ⟨i, rfl⟩ := hnode n hn
    exact hp.onlyPin i
  · obtain ⟨i, rfl⟩ := hnode n hn
    by_cases hpos : ∃ a ∈ (p.node i).incoming, (p.arrow a).isPositional = true
    · exact Or.inr (slots_bijOn hp hpos)
    · refine Or.inl fun a ha => ?_
      simpa using fun h => hpos ⟨a, ha, h⟩

end Program

namespace Draft

variable {d : Draft} {p : Program}

/-- Arrows enter nodes that take input. -/
theorem ReadsAs.hasInput (h : d.ReadsAs p) {a : Nat} (ha : a < p.arrows.length) :
    (p.node (p.arrow a).target).hasInput = true := by
  obtain ⟨σ, find, h⟩ := h
  obtain ⟨hcheck, ⟨find, types, _, hread, harrows⟩, _⟩ := Program.ofDraft_returns h
  have hread : d.NodesRead find types p.nodes := hread
  have ha' : a < d.connections.length := by
    rw [harrows.length_eq]
    exact ha
  obtain ⟨_, target, _, _, htarget, hinput⟩ := check_ok (hcheck _ (List.getElem_mem ha'))
  have hsame := (readArrow_returns ((List.forall₂_iff_get.1 harrows).2 a ha' ha)).2.2
  have hlt : d.connections[a].target < p.nodes.length := by
    rw [hread.length_eq]
    exact (List.getElem?_eq_some_iff.1 htarget).1
  have hshows := readNode_shows (hread.get htarget (List.getElem?_eq_getElem hlt))
  rw [Program.arrow_of_lt ha]
  simp only [List.get_eq_getElem] at hsame
  rw [hsame, Program.node_of_lt hlt, hshows.2.2.1]
  exact hinput

/-- **Programs that were read are wired.** Nothing that is looked up on the way is missing: once the
connections have passed the check, whatever the texts of the graph are read as, there is a type for every
node and for every node that a search comes to, and the connections can be noted one by one. -/
theorem reads_wired (d : Draft) :
    (∀ p, d.ReadsAs p → p.WellWired) ∧
    (d.checkAll d.connections = .ok () → ∀ (σ : Type) (find find' : Resolver (StateM σ)) (types : List Ty),
      Returns (d.nodes.mapM fun node => Ty.read find node.type) types →
        types.length = d.nodes.length ∧
        (∀ i < d.nodes.length, ∀ j ∈ reach d.successors d.connections.length [i], j < types.length) ∧
        ∀ nodes, d.NodesRead find' types nodes → wire? d.connections.zipIdx (nodes.map Node.bare) = some nodes) := by
  refine ⟨fun p hread => hread.consistent.wellWired fun a => hread.hasInput, fun hcheck σ find find' types htypes => ?_⟩
  have hlen : types.length = d.nodes.length := htypes.of_mapM.length_eq.symm
  refine ⟨hlen, fun i hi j hj => ?_, fun nodes hnodes => hnodes.wires hcheck⟩
  rw [hlen]
  exact reach_lt hcheck hi hj

theorem reads_wired_spreadSum : ∃ p, spreadSum.ReadsAs p ∧ spreadSum.checkAll spreadSum.connections = .ok () ∧
    (p.nodes.flatMap Node.incoming).Perm (List.range 7) ∧
    (∃ slot : Nat → Nat, (p.arrow 4).morphism = .slot (some (slot 4)) ∧ (p.arrow 5).morphism = .slot (some (slot 5)) ∧
      Set.BijOn slot { a | a ∈ [4, 5] } { k | k < (p.node 4).ty.components.length }) ∧
    wire? spreadSum.connections.zipIdx (p.nodes.map Node.bare) = some p.nodes := by
  have hcheck : spreadSum.checkAll spreadSum.connections = .ok () := by decide +kernel
  obtain ⟨p, _, hread, _, hfacts⟩ := spreadSum.exists_planned
    (fun p _ => p.nodes.length = 6 ∧ p.arrows.length = 7 ∧ (p.node 4).incoming = [4, 5] ∧
      (p.arrow 4).isPositional = true) (by decide +kernel)
  obtain ⟨hnodes, harrows, hincoming, hpositional⟩ := of_decide_eq_true hfacts
  obtain ⟨hwired, hlookups⟩ := reads_wired spreadSum
  have hentering := (hwired p hread).entering
  rw [harrows] at hentering
  have hmem : p.node 4 ∈ p.nodes := by
    rw [Program.node_of_lt (by omega)]
    exact List.getElem_mem _
  have hslots := (hwired p hread).slots _ hmem
  rw [hincoming] at hslots
  obtain ⟨slot, hslot, hbij⟩ := hslots.resolve_left fun hnone => by
    rw [hnone 4 (by simp)] at hpositional
    cases hpositional
  have ⟨σ, find, hreturns⟩ := hread
  obtain ⟨_, ⟨find', types, htypes, hnodesRead, _⟩, _⟩ := Program.ofDraft_returns hreturns
  obtain ⟨_, _, hwire⟩ := hlookups hcheck σ find find' types htypes
  exact ⟨p, hread, hcheck, hentering, ⟨slot, hslot 4 (by simp), hslot 5 (by simp), hbij⟩, hwire _ hnodesRead⟩

end Draft

end Dataflow
