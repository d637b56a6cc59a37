import Dataflow.Proofs.Signatures
import Dataflow.Proofs.Wiring

/-!
# The type that a node returns

A node returns the type of the sinks it reaches. `Draft.returnType_exact` says so for every graph with
connections that fit, cyclic or not: the search from a node comes by every sink that connections lead to
and by no others, so the types it collects are those of the reached sinks.
-/

namespace Dataflow.Draft

variable {d : Draft} {types : List Ty} {i j n : Nat}

/-! ## Sinks of a drawn graph -/

/-- A connection leads from the first node to the second. -/
def Leads (d : Draft) (i j : Nat) : Prop := ∃ c ∈ d.connections, c.source = i ∧ c.target = j

/-- No connection leaves the node. -/
def IsSink (d : Draft) (n : Nat) : Prop := ∀ c ∈ d.connections, c.source ≠ n

/-- The types of the sinks that a node reaches; a sink reaches itself. -/
def reachedTypes (d : Draft) (types : List Ty) (i : Nat) : Set Ty :=
  { t | ∃ n, Relation.ReflTransGen d.Leads i n ∧ d.IsSink n ∧ types[n]? = some t }

theorem mem_successors_iff : j ∈ d.successors i ↔ d.Leads i j := by
  simp [successors, outgoing, Leads, and_assoc]

theorem successors_isEmpty : (d.successors n).isEmpty = true ↔ d.IsSink n := by
  rw [List.isEmpty_iff, List.eq_nil_iff_forall_not_mem]
  constructor
  · intro hnone c hc hsource
    exact hnone c.target (mem_successors_iff.2 ⟨c, hc, hsource, rfl⟩)
  · intro hsink j hj
    obtain ⟨c, hc, hsource, -⟩ := mem_successors_iff.1 hj
    exact hsink c hc hsource

theorem mem_reach_iff : n ∈ reach d.successors d.connections.length [i] ↔ Relation.ReflTransGen d.Leads i n :=
  mem_reach_single d.successors_bounds fun _ _ => mem_successors_iff

/-- What the search collects are the types of the reached sinks. -/
theorem mem_sinkTypes_iff (hcheck : d.checkAll d.connections = .ok ()) (hlen : types.length = d.nodes.length)
    (hi : i < d.nodes.length) {t : Ty} : t ∈ d.sinkTypes types i ↔ t ∈ d.reachedTypes types i := by
  have hget : ∀ n ∈ reach d.successors d.connections.length [i],
      types[n]? = some (types.getD n .unit) := by
    intro n hn
    have hlt : n < types.length := hlen ▸ reach_lt hcheck hi hn
    simp [List.getD_eq_getElem?_getD, List.getElem?_eq_getElem hlt]
  simp only [sinkTypes, List.mem_map, List.mem_filter, reachedTypes, Set.mem_ofPred_eq, and_assoc]
  refine exists_congr fun n => ?_
  rw [← mem_reach_iff, ← successors_isEmpty]
  refine and_congr_right fun hn => and_congr_right fun _ => ?_
  rw [hget n hn, Option.some_inj]

/-! ## None, one and several types -/

theorem returnType_of_nil (h : d.sinkTypes types i = []) : d.returnType types i = .var ("r" ++ toString i) := by
  simp [returnType, h]

theorem returnType_of_ne {t u : Ty} (ht : t ∈ d.sinkTypes types i) (hu : u ∈ d.sinkTypes types i) (hne : t ≠ u) :
    d.returnType types i = .var ("r" ++ toString i) := by
  unfold returnType
  cases hsinks : d.sinkTypes types i with
  | nil => rfl
  | cons first rest =>
    rw [hsinks] at ht hu
    have hall : rest.all (fun v => v = first) = false := by
      rw [← Bool.not_eq_true, List.all_eq_true]
      intro hsame
      have heq : ∀ v ∈ first :: rest, v = first := by
        intro v hv
        rcases List.mem_cons.1 hv with rfl | hv
        · rfl
        · simpa using hsame v hv
      exact hne ((heq t ht).trans (heq u hu).symm)
    simp only [hall, Bool.false_eq_true, if_false]

/-- The sinks that a node reaches have one type, or there is none of them, or there are two that differ. -/
theorem returnType_cases (hcheck : d.checkAll d.connections = .ok ()) (hlen : types.length = d.nodes.length)
    (hi : i < d.nodes.length) :
    (∃ t, d.reachedTypes types i = {t} ∧ d.returnType types i = t) ∨
      (d.reachedTypes types i = ∅ ∨ (d.reachedTypes types i).Nontrivial) ∧
        d.returnType types i = .var ("r" ++ toString i) := by
  have hmem : ∀ t, t ∈ d.sinkTypes types i ↔ t ∈ d.reachedTypes types i := fun t =>
    mem_sinkTypes_iff hcheck hlen hi
  rcases (d.reachedTypes types i).eq_empty_or_nonempty with hnone | ⟨t, ht⟩
  · have hnil : d.sinkTypes types i = [] := by
      rw [List.eq_nil_iff_forall_not_mem]
      intro t ht
      rw [hmem, hnone] at ht
      exact ht
    exact Or.inr ⟨Or.inl hnone, returnType_of_nil hnil⟩
  · rcases Set.eq_singleton_or_nontrivial ht with hone | ⟨u, hu, v, hv, hne⟩
    · refine Or.inl ⟨t, hone, returnType_eq ((hmem t).2 ht) fun u hu => ?_⟩
      rw [hmem, hone] at hu
      exact hu
    · exact Or.inr ⟨Or.inr ⟨u, hu, v, hv, hne⟩, returnType_of_ne ((hmem u).2 hu) ((hmem v).2 hv) hne⟩

/-- **A node returns the type of the sinks it reaches**, and a variable named after it if it reaches no
sink or sinks of different types. -/
theorem returnType_exact (hcheck : d.checkAll d.connections = .ok ()) (hlen : types.length = d.nodes.length)
    (hi : i < d.nodes.length) (t : Ty) :
    d.returnType types i = t ↔ d.reachedTypes types i = {t} ∨
      (d.reachedTypes types i = ∅ ∨ (d.reachedTypes types i).Nontrivial) ∧ t = .var ("r" ++ toString i) := by
  rcases returnType_cases hcheck hlen hi with ⟨u, hone, hreturn⟩ | ⟨hother, hreturn⟩
  · rw [hone, hreturn, Set.singleton_eq_singleton_iff]
    simp
  · have hnot : d.reachedTypes types i ≠ {t} := by
      intro hone
      rw [hone] at hother
      simp at hother
    rw [hreturn]
    constructor
    · rintro rfl
      exact Or.inr ⟨hother, rfl⟩
    · rintro (hone | ⟨-, rfl⟩)
      · exact absurd hone hnot
      · rfl

/-- Two connections lead from the first node into a cycle, which one sink leaves; the other function
ends in that sink or in one of another type. -/
def tangled : Draft where
  nodes := [⟨"()", none, ["_", "_"], false⟩, ⟨"Bool", none, ["_"], true⟩, ⟨"Char", none, ["_", "_"], true⟩,
    ⟨"Int", none, [], true⟩, ⟨"Int", some "f", ["_", "_"], false⟩, ⟨"Bool", none, [], true⟩]
  connections := [⟨0, 1, 0, "$"⟩, ⟨0, 1, 1, "$"⟩, ⟨1, 2, 0, "$"⟩, ⟨2, 1, 0, "$"⟩, ⟨2, 3, 1, "$"⟩, ⟨4, 3, 0, "$"⟩,
    ⟨4, 5, 1, "$"⟩]

theorem returnType_exact_tangled :
    tangled.checkAll tangled.connections = .ok () ∧
    tangled.reachedTypes [.unit, .bool, .char, .int, .int, .bool] 0 = {.int} ∧
    tangled.returnType [.unit, .bool, .char, .int, .int, .bool] 4 = .var "r4" := by
  have hcheck : tangled.checkAll tangled.connections = .ok () := rfl
  refine ⟨hcheck, ?_, ?_⟩
  · have hreturn : tangled.returnType [.unit, .bool, .char, .int, .int, .bool] 0 = .int := by decide
    refine ((returnType_exact hcheck rfl (by decide) _).1 hreturn).resolve_right ?_
    rintro ⟨-, hvar⟩
    cases hvar
  · have hfirst : Ty.int ∈ tangled.reachedTypes [.unit, .bool, .char, .int, .int, .bool] 4 :=
      ⟨3, .single ⟨⟨4, 3, 0, "$"⟩, by decide, rfl, rfl⟩, by unfold IsSink; decide, rfl⟩
    have hsecond : Ty.bool ∈ tangled.reachedTypes [.unit, .bool, .char, .int, .int, .bool] 4 :=
      ⟨5, .single ⟨⟨4, 5, 1, "$"⟩, by decide, rfl, rfl⟩, by unfold IsSink; decide, rfl⟩
    have hname : Ty.var "r4" = .var ("r" ++ toString 4) := by decide
    exact (returnType_exact hcheck rfl (by decide) _).2 (Or.inr ⟨Or.inr ⟨_, hfirst, _, hsecond, by decide⟩, hname⟩)

end Dataflow.Draft
