import Dataflow.Oracle.Session
import Dataflow.Proofs.Occurrences

/-!
# Answers between prompts

What a tool prints is one stream of octets, and the prompts divide it into answers. The stream arrives in chunks
that may be cut anywhere, inside a prompt or a character too, and some of it may arrive only between two
answers. None of this shows in the answers (`Session.listen_exact`): an answer is taken at the first prompt of
what has arrived, and that is the first prompt of the whole stream.
-/

namespace Dataflow

/-- What happens to a session: a chunk arrives, or the answer to a query is awaited. A chunk that
arrives while an answer is awaited stands before it. -/
inductive Turn where
  | arrives (chunk : List UInt8)
  | awaits (query : String)
deriving Repr

namespace Turn

/-- The octets that arrive. -/
def stream : List Turn → List UInt8
  | [] => []
  | .arrives chunk :: turns => chunk ++ stream turns
  | .awaits _ :: turns => stream turns

/-- How many answers are awaited. -/
def awaited : List Turn → Nat
  | [] => 0
  | .arrives _ :: turns => awaited turns
  | .awaits _ :: turns => awaited turns + 1

end Turn

namespace Session

variable {σ : Type}

/-- The octets that have arrived and do not belong to an answer yet. -/
def unread (s : Session σ) : List UInt8 := s.pending ++ s.inbox.flatten

/-- A chunk is put behind those that wait. -/
def receive (s : Session σ) (chunk : List UInt8) : Session σ := { s with inbox := s.inbox ++ [chunk] }

/-- The answers that a session gives in turn; the first one that fails to come ends it. -/
def listen (prompt : String) (timeout : Nat) (s : Session σ) : List Turn → Except OracleError (List String × Session σ)
  | [] => .ok ([], s)
  | .arrives chunk :: turns => (s.receive chunk).listen prompt timeout turns
  | .awaits query :: turns =>
    match s.untilPrompt prompt timeout query with
    | .error e => .error e
    | .ok (answer, s) =>
      match s.listen prompt timeout turns with
      | .error e => .error e
      | .ok (answers, s) => .ok (answer :: answers, s)

theorem unread_receive (s : Session σ) (chunk : List UInt8) : (s.receive chunk).unread = s.unread ++ chunk := by
  simp [unread, receive]

/-! ## One answer -/

section
variable {prompt pending pending' : List UInt8} {inbox inbox' : List (List UInt8)}

/-- An answer ends at the first prompt, and what follows the prompt is kept. -/
theorem takeAnswer_eq_some {answer : String} (h : takeAnswer prompt pending inbox = some (answer, pending', inbox')) :
    ∃ before, pending ++ inbox.flatten = before ++ (prompt ++ (pending' ++ inbox'.flatten)) ∧
      Text.First prompt before ∧ answer = Text.decodeLossy before := by
  induction inbox generalizing pending with
  | nil =>
    rw [takeAnswer, Option.map_eq_some_iff] at h
    obtain ⟨⟨before, after⟩, hsplit, heq⟩ := h
    cases heq
    obtain ⟨rfl, hfirst⟩ := Text.splitOnce_eq_some.1 hsplit
    exact ⟨before, by simp, hfirst, rfl⟩
  | cons chunk inbox ih =>
    rw [takeAnswer] at h
    split at h
    · rename_i before after hsplit
      cases h
      obtain ⟨rfl, hfirst⟩ := Text.splitOnce_eq_some.1 hsplit
      exact ⟨before, by simp, hfirst, rfl⟩
    · simpa using ih h

/-- Chunks are taken until there is a prompt, so none is found only if there is none. -/
theorem takeAnswer_eq_none : takeAnswer prompt pending inbox = none ↔ ¬ prompt <:+: pending ++ inbox.flatten := by
  induction inbox generalizing pending with
  | nil => rw [takeAnswer, Option.map_eq_none_iff, Text.splitOnce_eq_none, List.flatten_nil, List.append_nil]
  | cons chunk inbox ih =>
    rw [takeAnswer]
    split
    · rename_i before after hsplit
      obtain ⟨rfl, -⟩ := Text.splitOnce_eq_some.1 hsplit
      simp
    · rw [ih, List.flatten_cons, List.append_assoc]

end

section
variable {prompt query answer : String} {timeout : Nat} {s s' : Session σ}

theorem untilPrompt_ok (h : s.untilPrompt prompt timeout query = .ok (answer, s')) :
    ∃ before, s.unread = before ++ (Text.encode prompt ++ s'.unread) ∧ Text.First (Text.encode prompt) before ∧
      answer = Text.decodeLossy before := by
  unfold untilPrompt at h
  split at h
  · rename_i htake
    cases h
    exact takeAnswer_eq_some htake
  · cases h

theorem exists_untilPrompt :
    (∃ r, s.untilPrompt prompt timeout query = .ok r) ↔ Text.encode prompt <:+: s.unread := by
  rw [← not_iff_not, unread, ← takeAnswer_eq_none]
  unfold untilPrompt
  split
  · rename_i htake
    simp [htake]
  · rename_i htake
    simp [htake]

end

/-! ## Answers in turn -/

section
variable {prompt : String} {timeout : Nat}

theorem listen_awaits {query : String} {turns : List Turn} {s s' : Session σ} {answers : List String} :
    s.listen prompt timeout (.awaits query :: turns) = .ok (answers, s') ↔
      ∃ answer t more, s.untilPrompt prompt timeout query = .ok (answer, t) ∧
        t.listen prompt timeout turns = .ok (more, s') ∧ answers = answer :: more := by
  rw [listen]
  cases hanswer : s.untilPrompt prompt timeout query with
  | error e => simp
  | ok r =>
    obtain ⟨answer, t⟩ := r
    cases hmore : t.listen prompt timeout turns with
    | error e => simp [hmore]
    | ok r => simp [hmore, Prod.ext_iff, eq_comm, and_comm]

/-- The answers are the first pieces of the stream, as many as are awaited, and the others are left. -/
theorem listen_ok {turns : List Turn} {s s' : Session σ} {answers : List String} {pieces : List (List UInt8)}
    {rest : List UInt8} (h : s.listen prompt timeout turns = .ok (answers, s'))
    (hstream : Text.Divided (Text.encode prompt) (s.unread ++ Turn.stream turns) pieces rest) :
    ∃ taken left, pieces = taken ++ left ∧ taken.length = Turn.awaited turns ∧ answers = taken.map Text.decodeLossy ∧
      Text.Divided (Text.encode prompt) s'.unread left rest := by
  induction turns generalizing s answers pieces with
  | nil =>
    cases h
    exact ⟨[], pieces, rfl, rfl, rfl, by simpa [Turn.stream] using hstream⟩
  | cons turn turns ih =>
    cases turn with
    | arrives chunk =>
      refine ih h ?_
      rw [unread_receive, List.append_assoc]
      exact hstream
    | awaits query =>
      obtain ⟨answer, t, more, hanswer, hmore, rfl⟩ := listen_awaits.1 h
      obtain ⟨before, hunread, hfirst, rfl⟩ := untilPrompt_ok hanswer
      -- the first prompt of what has arrived is the first prompt of the stream
      have hcut : s.unread ++ Turn.stream turns = before ++ (Text.encode prompt ++ (t.unread ++ Turn.stream turns)) := by
        simp [hunread]
      obtain ⟨pieces, rfl, hpieces⟩ := hstream.of_piece hcut hfirst
      obtain ⟨taken, left, rfl, hlen, rfl, hleft⟩ := ih hmore hpieces
      exact ⟨before :: taken, left, rfl, by simp [Turn.awaited, hlen], rfl, hleft⟩

/-- By the time an answer is awaited, a prompt for it has arrived. -/
def Prompted (prompt : String) (s : Session σ) (turns : List Turn) : Prop :=
  ∀ before query after, turns = before ++ .awaits query :: after →
    ∃ pieces rest, Text.Divided (Text.encode prompt) (s.unread ++ Turn.stream before) pieces rest ∧
      Turn.awaited before < pieces.length

theorem prompted_arrives {chunk : List UInt8} {turns : List Turn} {s : Session σ} :
    Prompted prompt s (.arrives chunk :: turns) ↔ Prompted prompt (s.receive chunk) turns := by
  constructor
  · rintro h before query after rfl
    simpa [unread_receive, Turn.stream, Turn.awaited] using h (.arrives chunk :: before) query after rfl
  · intro h before query after heq
    cases before with
    | nil => cases heq
    | cons turn before =>
      cases heq
      simpa [unread_receive, Turn.stream, Turn.awaited] using h before query after rfl

/-- Once the first answer is taken, the prompts behind it are left for the others. -/
theorem prompted_awaits {query : String} {turns : List Turn} {s t : Session σ} {before : List UInt8}
    (hprompt : Text.encode prompt ≠ []) (hunread : s.unread = before ++ (Text.encode prompt ++ t.unread))
    (hfirst : Text.First (Text.encode prompt) before) :
    Prompted prompt s (.awaits query :: turns) ↔ Prompted prompt t turns := by
  have hcut : ∀ more, s.unread ++ more = before ++ (Text.encode prompt ++ (t.unread ++ more)) := by
    intro more
    simp [hunread]
  constructor
  · rintro h earlier query' after rfl
    obtain ⟨pieces, rest, hdivided, hlt⟩ := h (.awaits query :: earlier) query' after rfl
    obtain ⟨more, rfl, hmore⟩ := hdivided.of_piece (hcut _) hfirst
    exact ⟨more, rest, hmore, by simpa [Turn.awaited] using hlt⟩
  · intro h earlier query' after heq
    cases earlier with
    | nil =>
      obtain ⟨pieces, rest, hdivided⟩ := Text.exists_divided hprompt (t.unread ++ [])
      exact ⟨before :: pieces, rest, hdivided.piece (hcut _) hfirst, by simp [Turn.awaited]⟩
    | cons turn earlier =>
      cases heq
      obtain ⟨pieces, rest, hdivided, hlt⟩ := h earlier query' after rfl
      exact ⟨before :: pieces, rest, hdivided.piece (hcut _) hfirst, by simpa [Turn.awaited] using hlt⟩

/-- All answers come exactly if there are prompts for them. -/
theorem exists_listen (hprompt : Text.encode prompt ≠ []) {turns : List Turn} {s : Session σ} :
    (∃ answers s', s.listen prompt timeout turns = .ok (answers, s')) ↔ Prompted prompt s turns := by
  induction turns generalizing s with
  | nil => simp [listen, Prompted]
  | cons turn turns ih =>
    cases turn with
    | arrives chunk => rw [listen, ih, prompted_arrives]
    | awaits query =>
      constructor
      · rintro ⟨answers, s', h⟩
        obtain ⟨answer, t, more, hanswer, hmore, -⟩ := listen_awaits.1 h
        obtain ⟨before, hunread, hfirst, -⟩ := untilPrompt_ok hanswer
        exact (prompted_awaits hprompt hunread hfirst).2 (ih.1 ⟨more, s', hmore⟩)
      · intro h
        obtain ⟨pieces, rest, hdivided, hlt⟩ := h [] query turns rfl
        have hoccurs : Text.encode prompt <:+: s.unread := by
          simpa [Turn.stream] using hdivided.occurs (List.length_pos_iff.1 hlt)
        obtain ⟨⟨answer, t⟩, hanswer⟩ := exists_untilPrompt.2 hoccurs
        obtain ⟨before, hunread, hfirst, -⟩ := untilPrompt_ok hanswer
        obtain ⟨more, s', hmore⟩ := ih.2 ((prompted_awaits hprompt hunread hfirst).1 h)
        exact ⟨answer :: more, s', listen_awaits.2 ⟨answer, t, more, hanswer, hmore, rfl⟩⟩

end

/-! ## The stream as a whole -/

theorem encode_ne_nil {text : String} (h : text ≠ "") : Text.encode text ≠ [] := by
  have hchars : text.toList ≠ [] := by simpa using h
  obtain ⟨c, cs, hcs⟩ := List.exists_cons_of_ne_nil hchars
  rw [Text.encode, hcs, List.flatMap_cons]
  intro hnil
  have hc := (List.append_eq_nil_iff.1 hnil).1
  simp only [Text.encodeChar] at hc
  split_ifs at hc

/-- **Answers do not depend on how the output arrives.** The prompts divide the stream of a tool, whatever the
chunks, and in whatever order chunks arrive and answers are awaited: all answers come exactly if prompts
for them arrive in time, and then they are the first pieces of the stream, decoded. The octets of the
other pieces are kept, none lost and none repeated. -/
theorem listen_exact (prompt : String) (hprompt : prompt ≠ "") (timeout : Nat) (stream : List UInt8) :
    ∃ pieces rest, Text.Divided (Text.encode prompt) stream pieces rest ∧
      ∀ (s : Session σ) (turns : List Turn), s.unread ++ Turn.stream turns = stream →
        ((∃ answers s', s.listen prompt timeout turns = .ok (answers, s')) ↔ Prompted prompt s turns) ∧
        ∀ answers s', s.listen prompt timeout turns = .ok (answers, s') →
          ∃ taken left, pieces = taken ++ left ∧ taken.length = Turn.awaited turns ∧
            answers = taken.map Text.decodeLossy ∧ s'.unread = left.flatMap (· ++ Text.encode prompt) ++ rest := by
  have hne := encode_ne_nil hprompt
  obtain ⟨pieces, rest, hdivided⟩ := Text.exists_divided hne stream
  refine ⟨pieces, rest, hdivided, fun s turns hstream => ⟨exists_listen hne, fun answers s' h => ?_⟩⟩
  rw [← hstream] at hdivided
  obtain ⟨taken, left, hpieces, hlen, hanswers, hleft⟩ := listen_ok h hdivided
  exact ⟨taken, left, hpieces, hlen, hanswers, hleft.joined⟩

/-- The prompt `--` is torn, and so is the arrow; the prompt stands at an earlier place of `---` than its end. -/
theorem listen_exact_torn : ∃ pieces rest,
    Text.Divided (Text.encode "--") [0xe2, 0x86, 0x92, 0x2d, 0x2d, 0x2d, 0x78, 0x2d, 0x2d] pieces rest ∧
      ∃ s' : Session Unit, Session.listen "--" 5000 ⟨(), false, [], []⟩
          [.arrives [0xe2, 0x86], .arrives [0x92, 0x2d], .arrives [0x2d, 0x2d], .awaits ":type x",
            .arrives [0x78, 0x2d], .arrives [0x2d], .awaits ":type y"] = .ok (["→", "-x"], s') ∧
        (pieces.take 2).map Text.decodeLossy = ["→", "-x"] := by
  obtain ⟨pieces, rest, hdivided, hall⟩ :=
    listen_exact (σ := Unit) "--" (by decide) 5000 [0xe2, 0x86, 0x92, 0x2d, 0x2d, 0x2d, 0x78, 0x2d, 0x2d]
  have hlisten : Session.listen "--" 5000 (⟨(), false, [], []⟩ : Session Unit)
      [.arrives [0xe2, 0x86], .arrives [0x92, 0x2d], .arrives [0x2d, 0x2d], .awaits ":type x",
        .arrives [0x78, 0x2d], .arrives [0x2d], .awaits ":type y"] = .ok (["→", "-x"], ⟨(), false, [], []⟩) := by rfl
  obtain ⟨taken, left, rfl, hlen, hanswers, -⟩ := (hall _ _ rfl).2 _ _ hlisten
  have htaken : (taken ++ left).take 2 = taken := List.take_left' hlen
  exact ⟨_, rest, hdivided, _, hlisten, by rw [htaken, hanswers]⟩

end Session

end Dataflow
