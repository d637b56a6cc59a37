import Dataflow.Oracle.Script
import Dataflow.Proofs.Variables

/-!
# The life of an oracle

An oracle answers names one after the other, for any tool: one that answers anything, falls silent or
ends at any point. The names that were answered are those that it remembers, and it answers them again
without asking; a question that fails stops the tool, and then no other name is answered any more
(`Oracle.after_consistent`).

A question changes nothing that is remembered (`Kept`), so what a query does to the oracle is said by
one lemma about asking (`Oracle.askBoth_kept`) and one about dead oracles (`Oracle.askBoth_dead`).
-/

namespace Dataflow.Oracle

variable {σ α : Type}

/-! ## Asking -/

/-- The tool is stopped exactly if the oracle is dead. -/
def Settled (o : Oracle σ) : Prop := o.session = none ↔ o.dead = true

/-- What asking leaves: the answers so far, and a stopped tool if it failed. -/
structure Kept (o : Oracle σ) (x : Except OracleError α × Oracle σ) : Prop where
  cache : x.2.cache = o.cache
  settled : x.2.Settled
  failed : ∀ e, x.1 = .error e → x.2.dead = true

theorem Kept.ok {o : Oracle σ} (h : o.Settled) (a : α) : Kept o (.ok a, o) :=
  ⟨rfl, h, fun _ he => by cases he⟩

theorem ask_dead {o : Oracle σ} (h : o.dead = true) (text : String) : o.ask text = (.error .closed, o) := by
  simp [ask, h]

theorem ask_kept {o : Oracle σ} (h : o.Settled) (text : String) : Kept o (o.ask text) := by
  by_cases hdead : o.dead = true
  · rw [ask_dead hdead]
    exact ⟨rfl, h, fun _ _ => hdead⟩
  · unfold ask
    rw [if_neg hdead]
    cases hs : o.session with
    | none => exact absurd (h.1 hs) hdead
    | some s =>
      dsimp only
      split
      · refine ⟨rfl, ?_, fun _ he => by cases he⟩
        simpa [Settled] using hdead
      · exact ⟨rfl, by simp [Settled], fun _ _ => rfl⟩

theorem askKind_kept {o : Oracle σ} (h : o.Settled) (name : String) : Kept o (o.askKind name) := by
  unfold askKind
  split
  · have hask := ask_kept h (question o.config.kindTemplate name)
    split
    · rename_i heq
      rw [heq] at hask
      exact ⟨hask.cache, hask.settled, fun _ he => by cases he⟩
    · rename_i heq
      rw [heq] at hask
      exact ⟨hask.cache, hask.settled, fun _ _ => hask.failed _ rfl⟩
  · exact .ok h none

theorem askType_kept {o : Oracle σ} (h : o.Settled) (name : String) : Kept o (o.askType name) := by
  have hask := ask_kept h (question o.config.queryTemplate (Ty.parenthesize (isOperatorName name) name))
  unfold askType
  split
  · rename_i heq
    rw [heq] at hask
    exact ⟨hask.cache, hask.settled, fun _ he => by cases he⟩
  · rename_i heq
    rw [heq] at hask
    exact ⟨hask.cache, hask.settled, fun _ _ => hask.failed _ rfl⟩

/-- The second question is put to the oracle that the first one left. -/
theorem askBoth_kept {o : Oracle σ} (h : o.Settled) (name : String) : Kept o (o.askBoth name) := by
  have hkind := askKind_kept h name
  unfold askBoth
  split
  · rename_i o' heq
    rw [heq] at hkind
    have htype := askType_kept hkind.settled name
    exact ⟨htype.cache.trans hkind.cache, htype.settled, htype.failed⟩
  · exact hkind

/-- A dead oracle asks nothing. -/
theorem askBoth_dead {o : Oracle σ} (h : o.dead = true) (name : String) : o.askBoth name = (.error .closed, o) := by
  by_cases hupper : name.toList.head?.any Text.isUppercase = true
  · simp [askBoth, askKind, hupper, ask_dead h]
  · simp [askBoth, askKind, hupper, askType, ask_dead h]

/-! ## Queries -/

theorem query_cached {o : Oracle σ} {name : String} {a : Option Symbol} (h : Assoc.get? name o.cache = some a) :
    o.query name = (.ok a, o) := by
  simp [query, h]

theorem query_dead {o : Oracle σ} (hdead : o.dead = true) {name : String} (h : Assoc.get? name o.cache = none) :
    o.query name = (.error .closed, o) := by
  simp [query, h, askBoth_dead hdead]

/-- A name that is not remembered is asked for: its answer is remembered, or the oracle is dead and
remembers what it did before. -/
theorem query_asked {o : Oracle σ} (hsettled : o.Settled) {name : String} (h : Assoc.get? name o.cache = none) :
    (o.query name).2.Settled ∧
      ((∃ a, (o.query name).1 = .ok a ∧ (o.query name).2.cache = Assoc.insert name a o.cache) ∨
        ∃ e, (o.query name).1 = .error e ∧ (o.query name).2.cache = o.cache ∧ (o.query name).2.dead = true) := by
  have hkept := askBoth_kept hsettled name
  unfold query
  rw [h]
  dsimp only
  rcases hboth : o.askBoth name with ⟨e | a, o'⟩ <;> rw [hboth] at hkept
  · exact ⟨hkept.settled, Or.inr ⟨e, rfl, hkept.cache, hkept.failed e rfl⟩⟩
  · exact ⟨hkept.settled, Or.inl ⟨a, rfl, by rw [← hkept.cache]⟩⟩

/-- An oracle behind some queries. -/
def after (o : Oracle σ) : List String → Oracle σ
  | [] => o
  | name :: rest => (o.query name).2.after rest

/-- The names that were asked for and what came back. -/
def transcript (o : Oracle σ) : List String → List (String × Except OracleError (Option Symbol))
  | [] => []
  | name :: rest => (name, (o.query name).1) :: (o.query name).2.transcript rest

/-- An oracle that has a history: it is alive exactly if the tool is running, and it remembers exactly
what was answered. -/
structure Consistent (o : Oracle σ) (log : List (String × Except OracleError (Option Symbol))) : Prop where
  settled : o.Settled
  cache : ∀ name a, Assoc.get? name o.cache = some a ↔ (name, .ok a) ∈ log

theorem Consistent.query {o : Oracle σ} {log : List (String × Except OracleError (Option Symbol))}
    (h : o.Consistent log) (name : String) :
    (o.query name).2.Consistent (log ++ [(name, (o.query name).1)]) := by
  cases hcached : Assoc.get? name o.cache with
  | some a =>
    have hlog := (h.cache name a).1 hcached
    rw [query_cached hcached]
    refine ⟨h.settled, fun other b => ?_⟩
    rw [h.cache, List.mem_append, List.mem_singleton]
    refine ⟨Or.inl, ?_⟩
    rintro (hmem | heq)
    · exact hmem
    · cases heq
      exact hlog
  | none =>
    obtain ⟨hsettled, ⟨a, hok, hcache⟩ | ⟨e, herror, hcache, -⟩⟩ := query_asked h.settled hcached
    · refine ⟨hsettled, fun other b => ?_⟩
      rw [hcache, hok, Assoc.get?_insert, List.mem_append, List.mem_singleton, ← h.cache]
      by_cases hother : other = name
      · subst hother
        simp [hcached, eq_comm]
      · simp [hother]
    · refine ⟨hsettled, fun other b => ?_⟩
      rw [hcache, herror, List.mem_append, List.mem_singleton, ← h.cache]
      simp

theorem Consistent.after {o : Oracle σ} (names : List String) {log : List (String × Except OracleError (Option Symbol))}
    (h : o.Consistent log) : (o.after names).Consistent (log ++ o.transcript names) := by
  induction names generalizing o log with
  | nil => simpa [Oracle.after, transcript] using h
  | cons name rest ih => simpa [Oracle.after, transcript] using ih (h.query name)

theorem after_dead {o : Oracle σ} (h : o.dead = true) (names : List String) : o.after names = o := by
  induction names with
  | nil => rfl
  | cons name rest ih =>
    have hsame : (o.query name).2 = o := by
      cases hcached : Assoc.get? name o.cache with
      | some a => rw [query_cached hcached]
      | none => rw [query_dead h hcached]
    rw [after, hsame, ih]

theorem start_consistent {config : OracleConfig} {tool : Tool σ} {launch : Reaction σ} {o : Oracle σ}
    (h : start config tool launch = .ok o) : o.Consistent [] := by
  obtain ⟨s, rfl⟩ : ∃ s, o = ⟨config, tool, some s, false, []⟩ := by
    simp only [start, bind, Except.bind] at h
    split at h <;> split at h <;> cases h <;> exact ⟨_, rfl⟩
  exact ⟨by simp [Settled], by simp [Assoc.get?]⟩

/-- **An oracle is consistent over its whole life.** Take one that has started, with any tool, behind any
queries. The tool is stopped exactly if the oracle is dead. It remembers exactly the answers it gave, and
gives them again. A query that fails adds nothing to them. A dead oracle stays dead and refuses every
name that it has not answered. Neither a remembered answer nor a refusal changes anything, the state of
the tool included: nothing is written to it. -/
theorem after_consistent {config : OracleConfig} {tool : Tool σ} {launch : Reaction σ} {o : Oracle σ}
    (h : start config tool launch = .ok o) (names : List String) :
    let now := o.after names
    (now.session = none ↔ now.isAlive = false) ∧
    (∀ name a, Assoc.get? name now.cache = some a ↔ (name, .ok a) ∈ o.transcript names) ∧
    (∀ name a, (name, .ok a) ∈ o.transcript names → now.query name = (.ok a, now)) ∧
    (∀ name e, (now.query name).1 = .error e →
      (now.query name).2.cache = now.cache ∧ (now.query name).2.isAlive = false) ∧
    (now.isAlive = false → ∀ later,
      (now.after later).isAlive = false ∧
      ∀ name, Assoc.get? name (now.after later).cache = none →
        (now.after later).query name = (.error .closed, now.after later)) := by
  intro now
  have hnow : now.Consistent (o.transcript names) := by
    simpa using (start_consistent h).after names
  have halive : ∀ o' : Oracle σ, o'.isAlive = false ↔ o'.dead = true := fun o' => by simp [isAlive]
  refine ⟨?_, hnow.cache, fun name a hmem => query_cached ((hnow.cache name a).2 hmem), ?_, ?_⟩
  · rw [halive]
    exact hnow.settled
  · intro name e herror
    cases hcached : Assoc.get? name now.cache with
    | some a =>
      rw [query_cached hcached] at herror
      cases herror
    | none =>
      obtain ⟨-, ⟨a, hok, -⟩ | ⟨e', -, hcache, hdead⟩⟩ := query_asked hnow.settled hcached
      · rw [hok] at herror
        cases herror
      · exact ⟨hcache, (halive _).2 hdead⟩
  · intro hdead later
    rw [after_dead ((halive _).1 hdead) later]
    exact ⟨hdead, fun name hnone => query_dead ((halive _).1 hdead) hnone⟩

/-- What can be checked of an oracle that starts. -/
theorem exists_started (config : OracleConfig) (tool : Tool σ) (launch : Reaction σ) (check : Oracle σ → Bool)
    (h : (start config tool launch).toOption.any check = true) :
    ∃ o, start config tool launch = .ok o ∧ check o = true := by
  cases hstart : start config tool launch with
  | error e =>
    rw [hstart] at h
    cases h
  | ok o =>
    rw [hstart] at h
    exact ⟨o, rfl, h⟩

/-- A tool that knows the type of `succ` and ends when it is asked for the type of `Foo`. -/
def brittle : Script where
  prompt := "<p>"
  banner := "hello <p>"
  answers := [(":type succ", ["succ :: Int -> Int\n"])]
  fallback := "not in scope\n"
  die := [":type Foo"]

/-- `Foo` has no kind, and the tool ends at the second question for it. `succ` and the unknown `nope` stay
answered, and `pred` is refused. -/
theorem after_consistent_brittle :
    ∃ o, start { setup := [], prompt := "<p>" } brittle.tool brittle.launch = .ok o ∧
      let now := o.after ["succ", "nope", "Foo"]
      now.session = none ∧ now.isAlive = false ∧
      now.query "succ" = (.ok (some ⟨.function, .func .int .int⟩), now) ∧ now.query "nope" = (.ok none, now) ∧
      (now.after ["succ", "Foo"]).query "pred" = (.error .closed, now.after ["succ", "Foo"]) := by
  obtain ⟨o, hstart, hcheck⟩ := exists_started { setup := [], prompt := "<p>" } brittle.tool brittle.launch
    (fun o => decide (o.transcript ["succ", "nope", "Foo"] =
        [("succ", .ok (some ⟨.function, .func .int .int⟩)), ("nope", .ok none), ("Foo", .error .closed)] ∧
      (o.after ["succ", "nope", "Foo"]).isAlive = false ∧
      Assoc.get? "pred" ((o.after ["succ", "nope", "Foo"]).after ["succ", "Foo"]).cache = none)) (by decide +kernel)
  obtain ⟨hlog, hdead, hpred⟩ := of_decide_eq_true hcheck
  obtain ⟨hsession, -, hknown, -, hrefused⟩ := after_consistent hstart ["succ", "nope", "Foo"]
  exact ⟨o, hstart, hsession.2 hdead, hdead, hknown _ _ (by simp [hlog]), hknown _ _ (by simp [hlog]),
    (hrefused hdead ["succ", "Foo"]).2 "pred" hpred⟩

end Dataflow.Oracle
