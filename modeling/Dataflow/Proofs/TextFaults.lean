import Dataflow.Proofs.Consistent

/-!
# Faults of texts

Reading a graph checks the shape of its connections first, and then reads one text after the other. No text
gives a fault of shape, whatever the symbols mean, so a graph whose connections fit is refused for its
texts only (`Program.ofDraft_fails`).
-/

namespace Dataflow

/-! ## Computations that fail -/

section
variable {ε σ α β : Type} {P : ε → Prop}

/-- In whatever state it starts, the computation fails with such errors only. -/
def FailsOnly (P : ε → Prop) (x : ExceptT ε (StateM σ) α) : Prop := ∀ s e s', x.run.run s = (.error e, s') → P e

namespace FailsOnly

theorem pure (a : α) : FailsOnly P (pure a : ExceptT ε (StateM σ) α) := by
  intro s e s' h
  cases h

theorem throw {e : ε} (he : P e) : FailsOnly P (throw e : ExceptT ε (StateM σ) α) := by
  intro s e' s' h
  cases h
  exact he

theorem lift (x : StateM σ α) : FailsOnly P (liftM x : ExceptT ε (StateM σ) α) := by
  intro s e s' h
  cases h

theorem bind {x : ExceptT ε (StateM σ) α} {f : α → ExceptT ε (StateM σ) β} (hx : FailsOnly P x)
    (hf : ∀ a, FailsOnly P (f a)) : FailsOnly P (x >>= f) := by
  intro s e s'' h
  rw [ExceptT.run_bind, StateT.run_bind] at h
  rcases hrun : StateT.run x.run s with ⟨e' | a, s'⟩
  · rw [hrun] at h
    cases h
    exact hx s e s' hrun
  · rw [hrun] at h
    exact hf a s' e s'' h

theorem mapM {f : α → ExceptT ε (StateM σ) β} (hf : ∀ a, FailsOnly P (f a)) : ∀ l : List α, FailsOnly P (l.mapM f)
  | [] => by
    rw [List.mapM_nil]
    exact pure []
  | a :: l => by
    rw [List.mapM_cons]
    exact bind (hf a) fun b => bind (mapM hf l) fun bs => pure (b :: bs)

end FailsOnly

/-! ## Readers of texts -/

mutual

theorem TyExpr.resolve_fails {P : TypingError → Prop} {con : String → List Ty → ExceptT TypingError (StateM σ) Ty}
    (hcon : ∀ x args, FailsOnly P (con x args)) : ∀ e : TyExpr, FailsOnly P (e.resolve con)
  | .con x args => .bind (TyExpr.resolveList_fails hcon args) fun ts => hcon x ts
  | .unit => .pure _
  | .tuple items => .bind (TyExpr.resolveList_fails hcon items) fun _ => .pure _
  | .list item => .bind (TyExpr.resolve_fails hcon item) fun _ => .pure _
  | .func arg result =>
    .bind (TyExpr.resolve_fails hcon arg) fun _ => .bind (TyExpr.resolve_fails hcon result) fun _ => .pure _

theorem TyExpr.resolveList_fails {P : TypingError → Prop} {con : String → List Ty → ExceptT TypingError (StateM σ) Ty}
    (hcon : ∀ x args, FailsOnly P (con x args)) : ∀ es : List TyExpr, FailsOnly P (TyExpr.resolveList con es)
  | [] => .pure _
  | e :: es => .bind (TyExpr.resolve_fails hcon e) fun _ => .bind (TyExpr.resolveList_fails hcon es) fun _ => .pure _

end

end

/-- An error that is not about the shape of a graph. -/
def TypingError.OfTexts (e : TypingError) : Prop := ∀ cause, e ≠ .draft cause

open TypingError (OfTexts)

section
variable {σ : Type} (find : Resolver (StateM σ))

theorem Ty.meaning_fails (text x : String) (args : List Ty) : FailsOnly OfTexts (Ty.meaning find text x args) := by
  unfold Ty.meaning
  split
  · exact .pure _
  · refine .bind (.lift (find x)) fun found => ?_
    split
    · exact .throw (by simp [OfTexts])
    · split
      · exact .pure _
      · exact .pure _
      · exact .throw (by simp [OfTexts])
    · exact .throw (by simp [OfTexts])

theorem Ty.read_fails (text : String) : FailsOnly OfTexts (Ty.read find text) := by
  unfold Ty.read
  split
  · exact TyExpr.resolve_fails (Ty.meaning_fails find text) _
  · exact .throw (by simp [OfTexts])

namespace Term

theorem lookup_fails (whole name : String) : FailsOnly OfTexts (lookup find whole name) := by
  unfold lookup
  refine .bind (.lift (find name)) fun found => ?_
  split
  · exact .throw (by simp [OfTexts])
  · exact .pure _
  · exact .pure _
  · exact .throw (by simp [OfTexts])

theorem building_fails (text : String) (built : Except BindError Morphism) :
    FailsOnly OfTexts (building text built : ExceptT TypingError (StateM σ) Morphism) := by
  unfold building
  split
  · exact .pure _
  · exact .throw (by simp [OfTexts])

mutual

theorem elaborate_fails (whole : String) : ∀ t : Term, FailsOnly OfTexts (elaborate find whole t)
  | .fault e => .throw (by simp [OfTexts])
  | .identity => .pure _
  | .literal l => .pure _
  | .symbol name => lookup_fails find whole name
  | .tuple text parts => .bind (elaborateList_fails whole parts) fun _ => building_fails text _
  | .apply text op head given args => by
    refine .bind (elaborate_fails whole head) fun head => ?_
    split
    · exact .throw (by simp [OfTexts])
    · refine .bind (elaborateArgs_fails whole args) fun args => ?_
      split
      · exact .pure _
      · exact building_fails text _

theorem elaborateList_fails (whole : String) : ∀ ts : List Term, FailsOnly OfTexts (elaborateList find whole ts)
  | [] => .pure _
  | t :: ts => .bind (elaborate_fails whole t) fun _ => .bind (elaborateList_fails whole ts) fun _ => .pure _

theorem elaborateArgs_fails (whole : String) :
    ∀ args : List (Nat × Term), FailsOnly OfTexts (elaborateArgs find whole args)
  | [] => .pure _
  | (_, t) :: args => .bind (elaborate_fails whole t) fun _ => .bind (elaborateArgs_fails whole args) fun _ => .pure _

end

end Term

theorem Morphism.read_fails (text : String) : FailsOnly OfTexts (Morphism.read find text) := by
  unfold Morphism.read
  dsimp only
  split
  · split
    · exact .pure _
    · exact .throw (by simp [OfTexts])
  · exact Term.elaborate_fails find text _

theorem Brancher.read_fails (text : String) : FailsOnly OfTexts (Brancher.read find text) := by
  unfold Brancher.read
  dsimp only
  split
  · exact .pure _
  · exact .pure _
  · refine .bind (Term.elaborate_fails find text _) fun test => ?_
    split
    · exact .pure _
    · exact .throw (by simp [OfTexts])
  · split
    · exact .pure _
    · exact .throw (by simp [OfTexts])

theorem Draft.readNode_fails (d : Draft) (types : List Ty) (i : Nat) (node : DraftNode) :
    FailsOnly OfTexts (d.readNode find types i node) := by
  have hpins : FailsOnly OfTexts (d.readPins find i node) := by
    unfold Draft.readPins
    refine .mapM (fun pin => ?_) _
    dsimp only
    split
    · exact .bind (.pure _) fun _ => .pure _
    · exact .bind (Brancher.read_fails find _) fun _ => .pure _
  exact .bind hpins fun _ => .pure _

theorem Program.checkNodes_fails (p : Program) : ∀ {ns : List (Node × Nat)} {e : TypingError},
    p.checkNodes ns = .error e → OfTexts e
  | (n, i) :: ns, e, h => by
    simp only [checkNodes] at h
    split at h
    · exact checkNodes_fails p h
    · rename_i e' he
      cases h
      unfold checkNode at he
      dsimp only at he
      split_ifs at he
      · cases he
        simp [OfTexts]
      · split at he
        · cases he
          simp [OfTexts]
        · split_ifs at he
          cases he
          simp [OfTexts]

/-- **A graph whose connections fit is refused for its texts only.** -/
theorem Program.ofDraft_fails {d : Draft} (hcheck : d.checkAll d.connections = .ok ()) :
    FailsOnly OfTexts (Program.ofDraft find d) := by
  unfold Program.ofDraft
  rw [hcheck]
  refine .bind (.mapM (fun node : DraftNode => Ty.read_fails find node.type) _) fun types => ?_
  refine .bind (.mapM (fun node : DraftNode × Nat => Draft.readNode_fails _ d types node.2 node.1) _) fun nodes => ?_
  refine .bind (.mapM (fun c => ?_) _) fun arrows => ?_
  · exact .bind (Morphism.read_fails _ c.text) fun _ => .pure _
  · dsimp only
    split
    · exact .pure _
    · rename_i e he
      exact .throw (Program.checkNodes_fails _ he)

end

end Dataflow
