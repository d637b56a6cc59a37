import Dataflow.Layout.Basic
import Dataflow.Proofs.Brackets
import Dataflow.Proofs.Occurrences
import Dataflow.Proofs.TextFaults
import Mathlib.Data.List.Nodup
import Mathlib.Data.List.TakeWhile

/-!
# Layouts that load

Loading a layout numbers its nodes in the order of the document and puts these numbers in the place of
identities. `Layout.toDraft_exact` says which layouts load and what comes out: the nodes and the
connections of the document, each in its order, with every connection led to the node of its identity. A
connection is refused only if its node is unknown or takes no input, and a graph that was loaded is
refused later for its texts only.
-/

namespace Dataflow

/-- Every element of a list can be matched exactly if the list can. -/
theorem exists_forall₂ {α β : Type} {R : α → β → Prop} {as : List α} :
    (∃ bs, List.Forall₂ R as bs) ↔ ∀ a ∈ as, ∃ b, R a b := by
  induction as with
  | nil => simp
  | cons a as ih =>
    rw [List.forall_mem_cons, ← ih]
    constructor
    · rintro ⟨bs, h⟩
      cases h with
      | cons hab hrest => exact ⟨⟨_, hab⟩, _, hrest⟩
    · rintro ⟨⟨b, hab⟩, bs, hrest⟩
      exact ⟨b :: bs, .cons hab hrest⟩

theorem forall₂_getElem? {α β : Type} {R : α → β → Prop} {as : List α} {bs : List β} (h : List.Forall₂ R as bs)
    {i : Nat} {a : α} (ha : as[i]? = some a) : ∃ b, bs[i]? = some b ∧ R a b := by
  induction h generalizing i with
  | nil => cases ha
  | cons hab _ ih =>
    cases i with
    | zero =>
      cases ha
      exact ⟨_, rfl, hab⟩
    | succ i => exact ih ha

/-! ## Texts of nodes -/

namespace Text

/-- White space only. -/
def Blank (cs : List Char) : Prop := ∀ c ∈ cs, isBlank c = true

theorem trimBlank_eq_nil {cs : List Char} : trimBlank cs = [] ↔ Blank cs := by
  constructor
  · intro h c hc
    by_contra hblank
    have hmem := mem_trimBlank (Bool.eq_false_iff.2 hblank) hc
    rw [h] at hmem
    cases hmem
  · intro h
    rw [trimBlank, List.dropWhile_eq_nil_iff.2 h]
    rfl

end Text

namespace Layout

open Text (Blank First)

/-- Stands between a name and a type. -/
def colons : List Char := [':', ':']

/-- The text is not blank, nor is what stands before and behind its first two colons. -/
structure TextFits (text : String) : Prop where
  whole : ¬ Blank text.toList
  sides : ∀ before after, text.toList = before ++ (colons ++ after) → First colons before →
    ¬ Blank before ∧ ¬ Blank after

/-- The node of a graph is the node of a document: its pins and its input, and what its text says, which
is a name and a type around the first two colons, or else a type. -/
structure Draws (n : LayoutNode) (node : DraftNode) : Prop where
  branchers : node.branchers = n.pins.map LayoutPin.label
  hasInput : node.hasInput = n.hasInput
  named : ∀ before after, n.text.toList = before ++ (colons ++ after) → First colons before →
    node.name = some (String.ofList (Text.trimBlank before)) ∧ node.type = String.ofList (Text.trimBlank after)
  unnamed : ¬ colons <:+: n.text.toList → node.name = none ∧ node.type = Text.trim n.text

/-- A text with two colons. -/
theorem splitText?_named {text : String} {before after : List Char} (h : text.toList = before ++ (colons ++ after))
    (hfirst : First colons before) :
    splitText? text =
      if (Text.trimBlank before).isEmpty || (Text.trimBlank after).isEmpty then none
      else some (some (String.ofList (Text.trimBlank before)), String.ofList (Text.trimBlank after)) := by
  rw [splitText?, show [':', ':'] = colons from rfl, Text.splitOnce_eq_some.2 ⟨h, hfirst⟩]

theorem splitText?_unnamed {text : String} (h : ¬ colons <:+: text.toList) :
    splitText? text = if (Text.trimBlank text.toList).isEmpty then none else some (none, Text.trim text) := by
  rw [splitText?, show [':', ':'] = colons from rfl, Text.splitOnce_eq_none.2 h]
  rfl

theorem exists_splitText? {text : String} : (∃ r, splitText? text = some r) ↔ TextFits text := by
  by_cases hcolons : colons <:+: text.toList
  · obtain ⟨before, after, htext, hfirst⟩ := Text.exists_first hcolons
    have hfits : TextFits text ↔ ¬ Blank before ∧ ¬ Blank after := by
      refine ⟨fun h => h.sides before after htext hfirst, fun h => ⟨fun hblank => h.1 fun c hc => ?_, ?_⟩⟩
      · exact hblank c (by simp [htext, hc])
      · intro b a heq hb
        obtain ⟨rfl, rfl⟩ := hfirst.unique hb (htext.symm.trans heq)
        exact h
    rw [splitText?_named htext hfirst, hfits, ← Text.trimBlank_eq_nil, ← Text.trimBlank_eq_nil]
    split_ifs with hempty
    · simpa [List.isEmpty_iff, or_iff_not_imp_left] using hempty
    · simpa [List.isEmpty_iff, not_or] using hempty
  · have hfits : TextFits text ↔ ¬ Blank text.toList := by
      refine ⟨TextFits.whole, fun h => ⟨h, fun b a heq _ => absurd ⟨b, a, ?_⟩ hcolons⟩⟩
      rw [heq, List.append_assoc]
    rw [splitText?_unnamed hcolons, hfits, ← Text.trimBlank_eq_nil]
    split_ifs with hempty
    · simpa [List.isEmpty_iff] using hempty
    · simpa [List.isEmpty_iff] using hempty

/-! ## Nodes -/

theorem exists_draftNode {n : LayoutNode} : (∃ node, draftNode n = .ok node) ↔ TextFits n.text := by
  rw [← exists_splitText?, draftNode]
  cases splitText? n.text <;> simp

theorem draws_of_draftNode {n : LayoutNode} {node : DraftNode} (h : draftNode n = .ok node) : Draws n node := by
  unfold draftNode at h
  split at h
  · cases h
  · rename_i name type hsplit
    cases h
    refine ⟨rfl, rfl, fun before after htext hfirst => ?_, fun hcolons => ?_⟩
    · rw [splitText?_named htext hfirst] at hsplit
      split_ifs at hsplit
      cases hsplit
      exact ⟨rfl, rfl⟩
    · rw [splitText?_unnamed hcolons] at hsplit
      split_ifs at hsplit
      cases hsplit
      exact ⟨rfl, rfl⟩

theorem draftNodes_cons {seen : List Nat} {n : LayoutNode} {ns : List LayoutNode} {nodes : List DraftNode} :
    draftNodes seen (n :: ns) = .ok nodes ↔ ∃ node nodes', nodes = node :: nodes' ∧ draftNode n = .ok node ∧
      n.id ∉ seen ∧ draftNodes (n.id :: seen) ns = .ok nodes' := by
  rw [draftNodes]
  constructor
  · intro h
    obtain ⟨node, hnode, h⟩ := Except.bind_ok.1 h
    split_ifs at h with hseen
    · obtain ⟨_, hthrow, _⟩ := Except.bind_ok.1 h
      cases hthrow
    · obtain ⟨nodes', hrest, h⟩ := Except.bind_ok.1 h
      cases h
      exact ⟨node, nodes', rfl, hnode, hseen, hrest⟩
  · rintro ⟨node, nodes', rfl, hnode, hseen, hrest⟩
    rw [hnode]
    simp only [hseen, if_false]
    rw [Except.bind_ok]
    exact ⟨node, rfl, Except.bind_ok.2 ⟨nodes', hrest, rfl⟩⟩

/-- The nodes of a layout are read if each can be and no identity comes again. -/
theorem draftNodes_ok {seen : List Nat} {ns : List LayoutNode} {nodes : List DraftNode} :
    draftNodes seen ns = .ok nodes ↔ List.Forall₂ (fun n node => draftNode n = .ok node) ns nodes ∧
      (ns.map LayoutNode.id).Nodup ∧ ∀ n ∈ ns, n.id ∉ seen := by
  induction ns generalizing seen nodes with
  | nil => simp [draftNodes, eq_comm]
  | cons n ns ih =>
    rw [draftNodes_cons, List.forall₂_cons_left_iff, List.map_cons, List.nodup_cons, List.forall_mem_cons]
    constructor
    · rintro ⟨node, nodes', rfl, hnode, hseen, hrest⟩
      obtain ⟨hnodes, hnodup, hfresh⟩ := ih.1 hrest
      refine ⟨⟨node, nodes', hnode, hnodes, rfl⟩, ⟨fun hmem => ?_, hnodup⟩, hseen, fun m hm => ?_⟩
      · obtain ⟨m, hm, hid⟩ := List.mem_map.1 hmem
        exact hfresh m hm (by simp [hid])
      · exact fun hmem => hfresh m hm (List.mem_cons_of_mem _ hmem)
    · rintro ⟨⟨node, nodes', hnode, hnodes, rfl⟩, ⟨hnew, hnodup⟩, hseen, hfresh⟩
      refine ⟨node, nodes', rfl, hnode, hseen, ih.2 ⟨hnodes, hnodup, fun m hm hmem => ?_⟩⟩
      rcases List.mem_cons.1 hmem with hid | hmem
      · exact hnew (List.mem_map.2 ⟨m, hm, hid⟩)
      · exact hfresh m hm hmem

theorem draftNodes_error {seen : List Nat} {ns : List LayoutNode} {e : DraftError} :
    draftNodes seen ns ≠ .error (.draft e) := by
  induction ns generalizing seen with
  | nil => simp [draftNodes]
  | cons n ns ih =>
    intro h
    rw [draftNodes] at h
    rcases Except.bind_error.1 h with hnode | ⟨node, _, h⟩
    · unfold draftNode at hnode
      split at hnode <;> cases hnode
    · split_ifs at h with hseen
      · rcases Except.bind_error.1 h with hthrow | ⟨_, hthrow, _⟩ <;> cases hthrow
      · rcases Except.bind_error.1 h with hrest | ⟨_, _, hpure⟩
        · exact ih hrest
        · cases hpure

theorem draws_of_draftNodes {ns : List LayoutNode} {nodes : List DraftNode} (h : draftNodes [] ns = .ok nodes) :
    List.Forall₂ Draws ns nodes :=
  (draftNodes_ok.1 h).1.imp fun _ _ => draws_of_draftNode

theorem exists_draftNodes {ns : List LayoutNode} : (∃ nodes, draftNodes [] ns = .ok nodes) ↔
    (∀ n ∈ ns, TextFits n.text) ∧ (ns.map LayoutNode.id).Nodup := by
  simp only [draftNodes_ok, exists_and_right, exists_forall₂, exists_draftNode]
  simp

/-! ## Identities -/

section
variable {l : Layout}

theorem indexOf?_eq_some {id i : Nat} (h : l.indexOf? id = some i) : ∃ m, l.nodes[i]? = some m ∧ m.id = id := by
  obtain ⟨hi, hid, _⟩ := List.findIdx?_eq_some_iff_getElem.1 h
  exact ⟨l.nodes[i], List.getElem?_eq_getElem hi, of_decide_eq_true hid⟩

theorem exists_indexOf? {m : LayoutNode} (hm : m ∈ l.nodes) : ∃ i, l.indexOf? m.id = some i := by
  cases h : l.indexOf? m.id with
  | some i => exact ⟨i, rfl⟩
  | none =>
    have hne := List.findIdx?_eq_none_iff.1 h m hm
    simp at hne

/-! ## Connections -/

theorem wires_eq : l.wires = l.nodes.zipIdx.flatMap fun x =>
    x.1.pins.zipIdx.flatMap fun y => y.1.connections.map fun c => (x.1, x.2, y.2, c) := rfl

theorem mem_wires {w : LayoutNode × Nat × Nat × LayoutConnection} : w ∈ l.wires ↔
    l.nodes[w.2.1]? = some w.1 ∧ ∃ pin, w.1.pins[w.2.2.1]? = some pin ∧ w.2.2.2 ∈ pin.connections := by
  rw [wires_eq]
  simp only [List.mem_flatMap, List.mem_map, List.mem_zipIdx_iff_getElem?]
  constructor
  · rintro ⟨x, hx, y, hy, c, hc, rfl⟩
    exact ⟨hx, y.1, hy, hc⟩
  · rintro ⟨hx, pin, hy, hc⟩
    exact ⟨(w.1, w.2.1), hx, (pin, w.2.2.1), hy, w.2.2.2, hc, rfl⟩

theorem forall_wires {P : LayoutConnection → Prop} :
    (∀ w ∈ l.wires, P w.2.2.2) ↔ ∀ n ∈ l.nodes, ∀ pin ∈ n.pins, ∀ c ∈ pin.connections, P c := by
  constructor
  · intro h n hn pin hpin c hc
    obtain ⟨i, hi⟩ := List.mem_iff_getElem?.1 hn
    obtain ⟨k, hk⟩ := List.mem_iff_getElem?.1 hpin
    exact h (n, i, k, c) (mem_wires.2 ⟨hi, pin, hk, hc⟩)
  · intro h w hw
    obtain ⟨hn, pin, hpin, hc⟩ := mem_wires.1 hw
    exact h w.1 (List.mem_of_getElem? hn) pin (List.mem_of_getElem? hpin) w.2.2.2 hc

/-- The connection leaves where the wire leaves, and enters the node that the wire names. -/
structure Leads (l : Layout) (w : LayoutNode × Nat × Nat × LayoutConnection) (c : Connection) : Prop where
  source : c.source = w.2.1
  pin : c.pin = w.2.2.1
  text : c.text = w.2.2.2.text
  target : l.indexOf? w.2.2.2.target = some c.target

theorem Leads.unique {w : LayoutNode × Nat × Nat × LayoutConnection} {c c' : Connection} (h : Leads l w c)
    (h' : Leads l w c') : c = c' := by
  obtain ⟨source, target, pin, text⟩ := c
  obtain ⟨rfl, rfl, rfl, htarget⟩ := h
  obtain ⟨source, target', pin, text⟩ := c'
  obtain ⟨rfl, rfl, rfl, htarget'⟩ := h'
  cases htarget.symm.trans htarget'
  rfl

/-- What becomes of the first wire: it is added, it does not fit, or it enters no node. -/
theorem connectAll_step (l : Layout) (d : Draft) (w : LayoutNode × Nat × Nat × LayoutConnection)
    (ws : List (LayoutNode × Nat × Nat × LayoutConnection)) :
    (∃ c, Leads l w c ∧ d.check c = .ok () ∧
      l.connectAll d (w :: ws) = l.connectAll { d with connections := d.connections ++ [c] } ws) ∨
    (∃ c e, Leads l w c ∧ d.check c = .error e ∧ l.connectAll d (w :: ws) = .error (.draft e)) ∨
    (l.indexOf? w.2.2.2.target = none ∧ l.connectAll d (w :: ws) = .error (.unknownTarget w.1.id w.2.2.2.target)) := by
  rw [connectAll]
  cases htarget : l.indexOf? w.2.2.2.target with
  | none => exact .inr (.inr ⟨rfl, rfl⟩)
  | some target =>
    have hc : Leads l w { source := w.2.1, target, pin := w.2.2.1, text := w.2.2.2.text } := ⟨rfl, rfl, rfl, htarget⟩
    dsimp only
    rw [Draft.connect]
    cases hcheck : d.check { source := w.2.1, target, pin := w.2.2.1, text := w.2.2.2.text } with
    | ok => exact .inl ⟨_, hc, hcheck, rfl⟩
    | error e => exact .inr (.inl ⟨_, e, hc, hcheck, rfl⟩)

/-- Wires are added to a draft one by one, each if the connection fits. -/
theorem connectAll_ok {d d' : Draft} {ws : List (LayoutNode × Nat × Nat × LayoutConnection)} :
    l.connectAll d ws = .ok d' ↔ ∃ cs, d' = { d with connections := d.connections ++ cs } ∧
      List.Forall₂ (fun w c => Leads l w c ∧ d.check c = .ok ()) ws cs := by
  induction ws generalizing d with
  | nil => simp [connectAll, eq_comm]
  | cons w ws ih =>
    simp only [List.forall₂_cons_left_iff]
    rcases connectAll_step l d w ws with ⟨c, hc, hcheck, hstep⟩ | ⟨c, e, hc, hcheck, hstep⟩ | ⟨htarget, hstep⟩
    · rw [hstep, ih]
      constructor
      · rintro ⟨cs, rfl, hcs⟩
        exact ⟨c :: cs, by simp, c, cs, ⟨hc, hcheck⟩, hcs, rfl⟩
      · rintro ⟨_, rfl, c', cs, hc', hcs, rfl⟩
        cases hc.unique hc'.1
        exact ⟨cs, by simp, hcs⟩
    · rw [hstep]
      refine ⟨nofun, ?_⟩
      rintro ⟨_, _, c', _, hc', _, _⟩
      cases hc.unique hc'.1
      cases hcheck.symm.trans hc'.2
    · rw [hstep]
      refine ⟨nofun, ?_⟩
      rintro ⟨_, _, c', _, hc', _, _⟩
      cases htarget.symm.trans hc'.1.target

theorem connectAll_error {d : Draft} {ws : List (LayoutNode × Nat × Nat × LayoutConnection)} {e : DraftError}
    (h : l.connectAll d ws = .error (.draft e)) : ∃ w ∈ ws, ∃ c, Leads l w c ∧ d.check c = .error e := by
  induction ws generalizing d with
  | nil => cases h
  | cons w ws ih =>
    rcases connectAll_step l d w ws with ⟨c, _, _, hstep⟩ | ⟨c, e', hc, hcheck, hstep⟩ | ⟨_, hstep⟩
    · rw [hstep] at h
      obtain ⟨w', hw', hrefused⟩ := ih h
      exact ⟨w', List.mem_cons_of_mem _ hw', hrefused⟩
    · cases hstep.symm.trans h
      exact ⟨w, List.mem_cons_self, c, hc, hcheck⟩
    · cases hstep.symm.trans h

/-- A wire of the layout leaves a pin of a node, so its connection fits if the other end takes an input. -/
theorem check_wire {d : Draft} (hnodes : List.Forall₂ Draws l.nodes d.nodes)
    {w : LayoutNode × Nat × Nat × LayoutConnection} (hw : w ∈ l.wires) {c : Connection} (hc : Leads l w c) :
    ∃ m, l.nodes[c.target]? = some m ∧ m.id = w.2.2.2.target ∧
      d.check c = if m.hasInput then .ok () else .error (.noInput c.target) := by
  obtain ⟨hn, pin, hpin, _⟩ := mem_wires.1 hw
  obtain ⟨source, hsource, hdraws⟩ := forall₂_getElem? hnodes hn
  obtain ⟨m, hm, hid⟩ := indexOf?_eq_some hc.target
  obtain ⟨target, htarget, hdraws'⟩ := forall₂_getElem? hnodes hm
  have hpins : ¬ source.branchers.length ≤ c.pin := by
    rw [hdraws.branchers, List.length_map, hc.pin, not_le]
    exact (List.getElem?_eq_some_iff.1 hpin).1
  refine ⟨m, hm, hid, ?_⟩
  rw [Draft.check, hc.source, hsource]
  dsimp only
  rw [if_neg hpins, htarget]
  dsimp only
  rw [hdraws'.hasInput]

/-! ## Layouts -/

theorem toDraft_ok {d : Draft} : l.toDraft = .ok d ↔ draftNodes [] l.nodes = .ok d.nodes ∧
    List.Forall₂ (fun w c => Leads l w c ∧ d.check c = .ok ()) l.wires d.connections := by
  rw [toDraft, Except.bind_ok]
  simp only [connectAll_ok]
  constructor
  · rintro ⟨nodes, hnodes, cs, rfl, hcs⟩
    exact ⟨hnodes, hcs⟩
  · rintro ⟨hnodes, hcs⟩
    exact ⟨d.nodes, hnodes, d.connections, by simp, hcs⟩

/-- The wire can be added if it enters a node that takes an input. -/
theorem exists_leads {d : Draft} (hnodes : List.Forall₂ Draws l.nodes d.nodes) (hnodup : (l.nodes.map LayoutNode.id).Nodup)
    {w : LayoutNode × Nat × Nat × LayoutConnection} (hw : w ∈ l.wires) :
    (∃ c, Leads l w c ∧ d.check c = .ok ()) ↔ ∃ m ∈ l.nodes, m.id = w.2.2.2.target ∧ m.hasInput = true := by
  constructor
  · rintro ⟨c, hc, hcheck⟩
    obtain ⟨m, hm, hid, hm'⟩ := check_wire hnodes hw hc
    refine ⟨m, List.mem_of_getElem? hm, hid, ?_⟩
    by_contra hinput
    rw [hcheck, if_neg hinput] at hm'
    cases hm'
  · rintro ⟨m, hm, hid, hinput⟩
    obtain ⟨i, hi⟩ := exists_indexOf? hm
    rw [hid] at hi
    have hc : Leads l w { source := w.2.1, target := i, pin := w.2.2.1, text := w.2.2.2.text } := ⟨rfl, rfl, rfl, hi⟩
    obtain ⟨m', hm', hid', hcheck⟩ := check_wire hnodes hw hc
    obtain rfl : m' = m := List.inj_on_of_nodup_map hnodup (List.mem_of_getElem? hm') hm (hid'.trans hid.symm)
    rw [if_pos hinput] at hcheck
    exact ⟨_, hc, hcheck⟩

theorem exists_toDraft : (∃ d, l.toDraft = .ok d) ↔
    (∀ n ∈ l.nodes, TextFits n.text) ∧ (l.nodes.map LayoutNode.id).Nodup ∧
      ∀ n ∈ l.nodes, ∀ pin ∈ n.pins, ∀ c ∈ pin.connections, ∃ m ∈ l.nodes, m.id = c.target ∧ m.hasInput = true := by
  rw [← and_assoc, ← exists_draftNodes,
    ← forall_wires (l := l) (P := fun c => ∃ m ∈ l.nodes, m.id = c.target ∧ m.hasInput = true)]
  constructor
  · rintro ⟨d, hd⟩
    obtain ⟨hnodes, hwires⟩ := toDraft_ok.1 hd
    refine ⟨⟨_, hnodes⟩, fun w hw => ?_⟩
    rw [← exists_leads (draws_of_draftNodes hnodes) (draftNodes_ok.1 hnodes).2.1 hw]
    exact exists_forall₂.1 ⟨_, hwires⟩ w hw
  · rintro ⟨⟨nodes, hnodes⟩, hwires⟩
    have hdraws : List.Forall₂ Draws l.nodes ({ nodes } : Draft).nodes := draws_of_draftNodes hnodes
    obtain ⟨cs, hcs⟩ := exists_forall₂.2 fun w hw =>
      (exists_leads hdraws (draftNodes_ok.1 hnodes).2.1 hw).2 (hwires w hw)
    exact ⟨{ nodes, connections := cs }, toDraft_ok.2 ⟨hnodes, hcs⟩⟩

/-- The connections of the draft are the wires, each with the identity of the node that it enters. -/
theorem connections_eq_wires {d : Draft} (hd : l.toDraft = .ok d) :
    d.connections.map (fun c => (c.source, c.pin, c.text, (l.nodes.map LayoutNode.id)[c.target]?)) =
      l.wires.map fun w => (w.2.1, w.2.2.1, w.2.2.2.text, some w.2.2.2.target) := by
  rw [← List.forall₂_eq_eq_eq, List.forall₂_map_left_iff, List.forall₂_map_right_iff]
  refine (toDraft_ok.1 hd).2.flip.imp fun c w hc => ?_
  obtain ⟨⟨hsource, hpin, htext, htarget⟩, _⟩ := hc
  obtain ⟨m, hm, hid⟩ := indexOf?_eq_some htarget
  rw [hsource, hpin, htext, List.getElem?_map, hm, ← hid]
  rfl

theorem checkAll_of_toDraft {d : Draft} (hd : l.toDraft = .ok d) : d.checkAll d.connections = .ok () := by
  rw [Draft.checkAll_ok]
  intro c hc
  obtain ⟨w, hw⟩ := exists_forall₂.1 ⟨_, (toDraft_ok.1 hd).2.flip⟩ c hc
  exact hw.2

theorem toDraft_error {e : DraftError} (h : l.toDraft = .error (.draft e)) :
    ∃ i m, e = .noInput i ∧ l.nodes[i]? = some m ∧ m.hasInput = false := by
  rcases Except.bind_error.1 h with hnodes | ⟨nodes, hnodes, hconnect⟩
  · exact absurd hnodes draftNodes_error
  · obtain ⟨w, hw, c, hc, hcheck⟩ := connectAll_error hconnect
    obtain ⟨m, hm, _, hm'⟩ := check_wire (d := { nodes }) (draws_of_draftNodes hnodes) hw hc
    rw [hcheck] at hm'
    split_ifs at hm' with hinput
    cases hm'
    exact ⟨c.target, m, rfl, hm, Bool.eq_false_iff.2 hinput⟩

end

/-- **Loading a layout is faithful.** It succeeds exactly if every text is well formed, identities are
distinct, and every connection enters a node that takes an input. The graph then has the nodes of the layout in
their order, and its connections in their order, node by node and pin by pin, each led to the place of the
identity it names. Reading that graph never fails for its shape, and the only fault of shape that loading
finds is a connection to a node without input. -/
theorem toDraft_exact (l : Layout) :
    ((∃ d, l.toDraft = .ok d) ↔
      (∀ n ∈ l.nodes, TextFits n.text) ∧ (l.nodes.map LayoutNode.id).Nodup ∧
        ∀ n ∈ l.nodes, ∀ pin ∈ n.pins, ∀ c ∈ pin.connections, ∃ m ∈ l.nodes, m.id = c.target ∧ m.hasInput = true) ∧
    (∀ d, l.toDraft = .ok d →
      List.Forall₂ Draws l.nodes d.nodes ∧
      (d.connections.map (fun c => (c.source, c.pin, c.text, (l.nodes.map LayoutNode.id)[c.target]?)) =
        l.nodes.zipIdx.flatMap fun n => n.1.pins.zipIdx.flatMap fun pin =>
          pin.1.connections.map fun c => (n.2, pin.2, c.text, some c.target)) ∧
      ∀ (σ : Type) (find : Resolver (StateM σ)) (s : σ) (e : DraftError),
        ((Program.ofDraft find d).run.run s).1 ≠ .error (.draft e)) ∧
    ∀ e, l.toDraft = .error (.draft e) → ∃ i m, e = .noInput i ∧ l.nodes[i]? = some m ∧ m.hasInput = false := by
  refine ⟨exists_toDraft, fun d hd => ⟨draws_of_draftNodes (toDraft_ok.1 hd).1, ?_, ?_⟩, fun _ => toDraft_error⟩
  · rw [connections_eq_wires hd, wires_eq]
    simp only [List.map_flatMap, List.map_map]
    rfl
  · intro σ find s e herror
    exact Program.ofDraft_fails find (checkAll_of_toDraft hd) s (.draft e) _ (Prod.ext herror rfl) e rfl

-- A connection to a later node and one back to its own; the type has colons of its own.
example :
    (toDraft { nodes :=
      [{ id := 7, text := " f :: a::b", pins := [{ label := "_", connections := [⟨"$", 2⟩, ⟨"id", 7⟩] }] },
       { id := 2, text := "Int " }] }).toOption =
    some { nodes := [⟨"a::b", some "f", ["_"], true⟩, ⟨"Int", none, [], true⟩],
           connections := [⟨0, 1, 0, "$"⟩, ⟨0, 0, 0, "id"⟩] } := by decide +kernel

end Layout

end Dataflow
