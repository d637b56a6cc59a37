import Dataflow.Proofs.Piecewise
import Mathlib.Data.Nat.Nth

/-!
# Partial application

Binding arguments in two steps gives what binding them at once gives, or fails where that fails; the second
step counts only the parameters that the first one left open. What the constructors of morphisms build
is never a partial application of a partial application, and it has as many parameters as its arguments
leave open, so a position among them always names one of the base (`Morphism.bind_stepwise`).
-/

namespace Dataflow.Morphism

/-- No partial application. -/
def Unbound (f : Morphism) : Prop := ∀ b bs ps r, f ≠ .bound b bs ps r

/-- Arguments for some of `n` parameters, in order. -/
structure Arguments (n : Nat) (args : List (Nat × Morphism)) : Prop where
  ascending : Assoc.Ascending args
  nonempty : args ≠ []
  below : ∀ x ∈ args, x.1 < n

/-- The arguments of a second step at the positions that they have for the base: position `k` is the `k`-th
of those that the first step left open. -/
noncomputable def relocate (first second : List (Nat × Morphism)) : List (Nat × Morphism) :=
  second.map fun x => (Nat.nth (fun i => i ∉ first.map (·.1)) x.1, x.2)

/-- Whatever the constructors, `bind` and `applyAt` build. -/
inductive Constructed : Morphism → Prop
  | ofFunction (name : String) (ty : Ty) : Constructed (ofFunction name ty)
  | ofValue (name : String) (ty : Ty) : Constructed (ofValue name ty)
  | slot (index : Option Nat) : Constructed (.slot index)
  | literal (l : Literal) : Constructed (.literal l)
  | ofParts {parts : List Morphism} {m : Morphism} (hparts : ∀ part ∈ parts, Constructed part)
      (h : ofParts parts = .ok m) : Constructed m
  | bind {m f : Morphism} {args : List (Nat × Morphism)} (hm : Constructed m) (hargs : ∀ x ∈ args, Constructed x.2)
      (hascending : Assoc.Ascending args) (h : m.bind args = .ok f) : Constructed f
  | applyAt {m f arg : Morphism} {index : Nat} (hm : Constructed m) (harg : Constructed arg)
      (h : m.applyAt index arg = .ok f) : Constructed f

variable {f g h base : Morphism} {first second bindings args : List (Nat × Morphism)}

/-! ## Open positions -/

/-- The `k`-th of the numbers that are left by a filter. -/
theorem filter_range_getElem? {p : Nat → Prop} [DecidablePred p] {n k i : Nat}
    (h : ((List.range n).filter (p ·))[k]? = some i) : Nat.nth p k = i := by
  have hlength : ∀ n, ((List.range n).filter (p ·)).length = Nat.count p n := fun n => by
    rw [Nat.count, List.countP_eq_length_filter]
  induction n with
  | zero => simp at h
  | succ n ih =>
    rw [List.range_succ, List.filter_append, List.getElem?_append, hlength] at h
    split at h
    · exact ih h
    · rename_i hk
      by_cases hn : p n
      · have hlast : k = Nat.count p n ∧ n = i := by
          simp only [List.filter_singleton, hn, decide_true, cond_true, List.getElem?_singleton] at h
          split at h
          · cases h
            omega
          · cases h
        rw [← hlast.2, hlast.1, Nat.nth_count hn]
      · simp [hn] at h

/-- Every parameter is bound or open. -/
theorem length_openPositions (hasc : Assoc.Ascending bindings) (hbelow : ∀ x ∈ bindings, x.1 < base.arity) :
    (openPositions base bindings).length + bindings.length = base.arity := by
  have hbound : ((List.range base.arity).filter fun i => i ∈ bindings.map (·.1)).Perm (bindings.map (·.1)) := by
    refine (List.perm_ext_iff_of_nodup (List.nodup_range.filter _) hasc.nodup_keys).2 fun i => ?_
    rw [List.mem_filter, List.mem_range, decide_eq_true_iff]
    refine ⟨And.right, fun hi => ⟨?_, hi⟩⟩
    obtain ⟨x, hx, rfl⟩ := List.mem_map.1 hi
    exact hbelow x hx
  have hsplit := List.length_eq_length_filter_add (l := List.range base.arity) fun i => i ∈ bindings.map (·.1)
  have hlength := hbound.length_eq
  rw [List.length_map] at hlength
  simp only [← decide_not] at hsplit
  rw [List.length_range, hlength] at hsplit
  rw [openPositions_eq]
  omega

theorem getElem?_openPositions (base : Morphism) (bindings : List (Nat × Morphism)) {k : Nat}
    (hk : k < (openPositions base bindings).length) :
    (openPositions base bindings)[k]? = some (Nat.nth (fun i => i ∉ bindings.map (·.1)) k) := by
  have hsome := List.getElem?_eq_getElem hk
  rw [hsome, Option.some_inj]
  refine (filter_range_getElem? (n := base.arity) (p := fun i => i ∉ bindings.map (·.1)) ?_).symm
  rw [← openPositions_eq, hsome]

theorem length_openParams : (openParams base bindings).length = (openPositions base bindings).length := by
  rw [openPositions_eq_map, openParams, List.length_map, List.length_map]

theorem mem_relocate (hfirst : Arguments f.arity first) (hsecond : Arguments (f.arity - first.length) second)
    {x : Nat × Morphism} (hx : x ∈ relocate first second) : x.1 < f.arity ∧ x.1 ∉ first.map (·.1) := by
  obtain ⟨y, hy, rfl⟩ := List.mem_map.1 hx
  have hlength := length_openPositions hfirst.ascending hfirst.below
  have hbelow := hsecond.below y hy
  have hk := getElem?_openPositions f first (k := y.1) (by omega)
  have hopen := mem_openPositions.1 (List.mem_of_getElem? hk)
  exact ⟨hopen.1, Assoc.get?_eq_none.1 hopen.2⟩

/-! ## One step -/

/-- Arguments for a morphism that is no partial application are bound as they are. -/
theorem Unbound.bind_eq (hf : f.Unbound) (hargs : Arguments f.arity args) : f.bind args = bindBase f args := by
  have hall : (args.filter fun a => a.1 < f.arity) = args :=
    List.filter_eq_self.2 fun x hx => decide_eq_true (hargs.below x hx)
  unfold bind
  simp only [hall]
  rw [if_neg (by simpa using hargs.nonempty)]
  cases f with
  | bound b bs ps r => exact absurd rfl (hf b bs ps r)
  | named | slot | literal | tuple => rfl

/-- Arguments for a partial application join those that its base has already. -/
theorem bind_bound_eq {params : List Ty} {result : Ty} (harity : params.length = (openPositions base bindings).length)
    (hargs : Arguments params.length args) : (Morphism.bound base bindings params result).bind args =
      bindBase base ((relocate bindings args).foldl (fun table x => Assoc.insert x.1 x.2 table) bindings) := by
  have hall : (args.filter fun a => a.1 < arity (.bound base bindings params result)) = args :=
    List.filter_eq_self.2 fun x hx => decide_eq_true (hargs.below x hx)
  have hplaced : (args.filterMap fun a => (openPositions base bindings)[a.1]?.map fun i => (i, a.2)) =
      relocate bindings args := by
    refine (List.filterMap_congr fun x hx => ?_).trans (congrFun List.filterMap_eq_map _)
    rw [getElem?_openPositions base bindings (harity ▸ hargs.below x hx)]
    rfl
  unfold bind
  simp only [hall, hplaced]
  rw [if_neg (by simpa using hargs.nonempty)]

/-- The parameters of a partial application are those that its arguments leave open. -/
theorem bindBase_arity (h : bindBase base bindings = .ok f) : ∃ params result,
    f = .bound base bindings params result ∧ params.length = (openPositions base bindings).length := by
  obtain ⟨s, -, rfl⟩ := bindBase_iff.1 h
  exact ⟨_, _, rfl, by rw [List.length_map, length_openParams]⟩

/-- Fewer arguments can be bound as well. -/
theorem exists_bindBase_of_subset (hsub : bindings ⊆ args) (h : bindBase base args = .ok f) :
    ∃ g, bindBase base bindings = .ok g := by
  obtain ⟨r, hr⟩ := exists_bindBase_iff.1 ⟨f, h⟩
  refine exists_bindBase_iff.2 ⟨r, fun e he => hr e ?_⟩
  obtain ⟨x, hx, hxe⟩ := List.mem_filterMap.1 he
  exact List.mem_filterMap.2 ⟨x, hsub hx, hxe⟩

/-! ## Two steps -/

/-- The arguments of both steps are arguments for the base, those of the first among them. -/
theorem Arguments.join (hfirst : Arguments f.arity first) (hsecond : Arguments (f.arity - first.length) second) :
    Arguments f.arity (Assoc.ofList (first ++ relocate first second)) ∧
      first ⊆ Assoc.ofList (first ++ relocate first second) := by
  rw [Assoc.ofList_append hfirst.ascending]
  obtain ⟨hascending, hbelow, hnonempty⟩ := foldl_insert (P := fun x => x.1 < f.arity) (relocate first second) first
    (fun x hx => (mem_relocate hfirst hsecond hx).1) hfirst.below hfirst.ascending
  refine ⟨⟨hascending, hnonempty hfirst.nonempty, hbelow⟩, fun x hx => ?_⟩
  have hother : x.1 ∉ (relocate first second).map (·.1) := by
    intro hmem
    obtain ⟨y, hy, hyx⟩ := List.mem_map.1 hmem
    exact (mem_relocate hfirst hsecond hy).2 (hyx ▸ List.mem_map_of_mem hx)
  refine Assoc.get?_mem (k := x.1) (a := x.2) ?_
  rw [Assoc.get?_foldl_insert hother, hfirst.ascending.get?_of_mem hx]

/-- Two steps are one. -/
theorem bind_bind_iff (hf : f.Unbound) (hfirst : Arguments f.arity first)
    (hsecond : Arguments (f.arity - first.length) second) :
    f.bind (Assoc.ofList (first ++ relocate first second)) = .ok h ↔
      ∃ g, f.bind first = .ok g ∧ g.bind second = .ok h := by
  obtain ⟨hjoined, hsub⟩ := hfirst.join hsecond
  have hlength := length_openPositions hfirst.ascending hfirst.below
  -- the second step goes back to the base, with all arguments
  have hsecondStep : ∀ {g}, bindBase f first = .ok g →
      g.bind second = bindBase f (Assoc.ofList (first ++ relocate first second)) := by
    intro g hg
    obtain ⟨params, result, rfl, hparams⟩ := bindBase_arity hg
    have harity : params.length = f.arity - first.length := by omega
    rw [bind_bound_eq hparams (harity ▸ hsecond), Assoc.ofList_append hfirst.ascending]
  rw [hf.bind_eq hjoined, hf.bind_eq hfirst]
  constructor
  · intro hh
    obtain ⟨g, hg⟩ := exists_bindBase_of_subset hsub hh
    exact ⟨g, hg, (hsecondStep hg).trans hh⟩
  · rintro ⟨g, hg, hh⟩
    exact (hsecondStep hg).symm.trans hh

/-! ## Any number of steps -/

/-- A partial application, if it is one, has a base that is none, arguments for parameters of that base, and the
other parameters of it as its own. -/
def Flat (m : Morphism) : Prop := ∀ base bindings params result, m = .bound base bindings params result →
  base.Unbound ∧ Arguments base.arity bindings ∧ params.length = base.arity - bindings.length

theorem Unbound.flat (hf : f.Unbound) : f.Flat := fun b bs ps r heq => absurd heq (hf b bs ps r)

theorem bindBase_flat (hbase : base.Unbound) (hargs : Arguments base.arity bindings) (h : bindBase base bindings = .ok f) :
    f.Flat := by
  obtain ⟨params, result, rfl, hparams⟩ := bindBase_arity h
  have hlength := length_openPositions hargs.ascending hargs.below
  intro b bs ps r heq
  cases heq
  exact ⟨hbase, hargs, by omega⟩

/-- Binding looks only at the arguments for parameters that are there, and there must be some. -/
theorem bind_arguments (hasc : Assoc.Ascending args) (h : f.bind args = .ok g) :
    ∃ used, Arguments f.arity used ∧ f.bind used = .ok g := by
  refine ⟨args.filter fun a => a.1 < f.arity, ⟨hasc.filter _, fun hnil => ?_, fun x hx => ?_⟩, ?_⟩
  · simp [bind, hnil] at h
  · simpa using (List.mem_filter.1 hx).2
  · simpa only [bind, List.filter_filter, Bool.and_self] using h

/-- One more step keeps a partial application flat. -/
theorem Flat.bind (hf : f.Flat) (hasc : Assoc.Ascending args) (h : f.bind args = .ok g) : g.Flat := by
  obtain ⟨used, hused, h⟩ := bind_arguments hasc h
  by_cases hunbound : f.Unbound
  · rw [hunbound.bind_eq hused] at h
    exact bindBase_flat hunbound hused h
  · obtain ⟨base, bindings, params, result, rfl⟩ : ∃ b bs ps r, f = .bound b bs ps r := by
      simpa [Unbound] using hunbound
    obtain ⟨hbase, hbindings, hparams⟩ := hf base bindings params result rfl
    have hlength := length_openPositions hbindings.ascending hbindings.below
    have hused : Arguments params.length used := hused
    rw [bind_bound_eq (by omega) hused, ← Assoc.ofList_append hbindings.ascending] at h
    exact bindBase_flat hbase (hbindings.join (hparams ▸ hused)).1 h

theorem Constructed.flat (h : f.Constructed) : f.Flat := by
  induction h with
  | ofFunction name ty | ofValue name ty | slot index | literal l =>
    refine Unbound.flat fun b bs ps r heq => ?_
    cases heq
  | ofParts hparts h ih =>
    obtain ⟨params, result, rfl⟩ := ofParts_shape h
    refine Unbound.flat fun b bs ps r heq => ?_
    cases heq
  | bind hm hargs hasc h ih => exact ih.bind hasc h
  | applyAt hm harg h ih => exact ih.bind (by simp [Assoc.Ascending]) h

/-- **Partial application in steps.** A morphism that is no partial application takes arguments for some of
its parameters, and then for some of those that are left: the outcome is that of taking all of them at once, each
at the position that it has for the base. Whatever is built has a base that is no partial application,
arguments for parameters of it, and its other parameters, each of which is at a position of the base. -/
theorem bind_stepwise :
    (∀ (f : Morphism) (first second : List (Nat × Morphism)), f.Unbound → Arguments f.arity first →
      Arguments (f.arity - first.length) second → ∀ h,
      f.bind (Assoc.ofList (first ++ relocate first second)) = .ok h ↔
        ∃ g, f.bind first = .ok g ∧ g.bind second = .ok h) ∧
    ∀ (base : Morphism) (bindings : List (Nat × Morphism)) (params : List Ty) (result : Ty),
      Constructed (.bound base bindings params result) →
      base.Unbound ∧ Arguments base.arity bindings ∧ params.length = base.arity - bindings.length ∧
      ∀ k < params.length, ∃ i, (openPositions base bindings)[k]? = some i ∧ i < base.arity := by
  refine ⟨fun f first second hf hfirst hsecond h => bind_bind_iff hf hfirst hsecond,
    fun base bindings params result hconstructed => ?_⟩
  obtain ⟨hbase, hargs, hparams⟩ := hconstructed.flat base bindings params result rfl
  have hlength := length_openPositions hargs.ascending hargs.below
  refine ⟨hbase, hargs, hparams, fun k hk => ?_⟩
  have hposition := getElem?_openPositions base bindings (k := k) (by omega)
  exact ⟨_, hposition, (mem_openPositions.1 (List.mem_of_getElem? hposition)).1⟩

/-- Of four parameters the second is bound, and then the second of the three that are left, which is the third. -/
theorem bind_stepwise_quad :
    let quad : Morphism := .named "quad" [.int, .char, .bool, .float] .int
    let first : List (Nat × Morphism) := [(1, .literal (.char 'q'))]
    let second : List (Nat × Morphism) := [(1, .literal (.bool true))]
    let both : List (Nat × Morphism) := [(1, .literal (.char 'q')), (2, .literal (.bool true))]
    (quad.Unbound ∧ Arguments quad.arity first ∧ Arguments (quad.arity - first.length) second ∧
      quad.bind (Assoc.ofList (first ++ relocate first second)) = .ok (.bound quad both [.int, .float] .int)) ∧
    Constructed (.bound quad both [.int, .float] .int) ∧ Arguments quad.arity both ∧
      [Ty.int, Ty.float].length = quad.arity - both.length := by
  intro quad first second both
  obtain ⟨hsteps, hbuilt⟩ := bind_stepwise
  have hquad : quad.Unbound := fun b bs ps r heq => by simp [quad] at heq
  have hfirst : Arguments quad.arity first :=
    ⟨by simp [Assoc.Ascending, first], by simp [first], by simp [first, quad, arity, params]⟩
  have hsecond : Arguments (quad.arity - first.length) second :=
    ⟨by simp [Assoc.Ascending, second], by simp [second], by simp [first, second, quad, arity, params]⟩
  have hone : quad.bind first = .ok (.bound quad first [.int, .bool, .float] .int) := by rfl
  have htwo : (Morphism.bound quad first [.int, .bool, .float] .int).bind second =
      .ok (.bound quad both [.int, .float] .int) := by rfl
  have hconstructed : Constructed (.bound quad both [.int, .float] .int) := by
    have hbase : Constructed quad := .ofFunction "quad" (.curried [.int, .char, .bool, .float] .int)
    exact .applyAt (.applyAt hbase (.literal (.char 'q')) hone) (.literal (.bool true)) htwo
  obtain ⟨-, hargs, hparams, -⟩ := hbuilt quad both _ _ hconstructed
  exact ⟨⟨hquad, hfirst, hsecond, (hsteps quad first second hquad hfirst hsecond _).2 ⟨_, hone, htwo⟩⟩,
    hconstructed, hargs, hparams⟩

end Dataflow.Morphism
