import Dataflow.Proofs.Octets
import Dataflow.Shell.Run
import Dataflow.Toolchain

/-!
# Paths in build commands

A build command is a template with marks for two paths. The paths are put in one after the other, so the second
replacement looks at the first path as well. `Toolchain.expand_exact` says what comes out for every
template and all paths: every mark of the template is filled, and a mark for the program in the path of the
source is filled too. That happens inside of quotes, so what is put there stands outside of them, and the shell
reads it. A path in quotes on its own is read by the shell as one word. A command is a text and a path is a list
of octets, so the word is the path only if the octets are those of a text.
-/

namespace Dataflow

/-! ## Replacement -/

namespace Text

variable {p v : List Char}

theorem toList_replace (s pattern value : String) :
    (replace s pattern value).toList = replaceFrom pattern.toList value.toList 0 s.toList := by
  rw [replace, String.toList_ofList]

theorem replaceFrom_skip : ∀ (k : Nat) (cs : List Char), replaceFrom p v k cs = replaceFrom p v 0 (cs.drop k)
  | 0, _ => rfl
  | _ + 1, [] => rfl
  | k + 1, _ :: cs => replaceFrom_skip k cs

theorem replaceFrom_start (hp : p ≠ []) (cs : List Char) :
    replaceFrom p v 0 (p ++ cs) = v ++ replaceFrom p v 0 cs := by
  obtain ⟨c, p, rfl⟩ := List.exists_cons_of_ne_nil hp
  rw [List.cons_append, replaceFrom, if_pos (by simp [List.isPrefixOf_iff_prefix]), replaceFrom_skip]
  simp

theorem replaceFrom_cons {c : Char} {cs : List Char} (h : ¬ p <+: c :: cs) :
    replaceFrom p v 0 (c :: cs) = c :: replaceFrom p v 0 cs := by
  rw [replaceFrom, if_neg (by simp [List.isPrefixOf_iff_prefix, h])]

/-- Nothing changes before the first occurrence. -/
theorem replaceFrom_first (hp : p ≠ []) {before : List Char} (h : First p before) (after : List Char) :
    replaceFrom p v 0 (before ++ (p ++ after)) = before ++ (v ++ replaceFrom p v 0 after) := by
  induction before with
  | nil => exact replaceFrom_start hp after
  | cons c before ih =>
    rw [List.cons_append, replaceFrom_cons (h.not_start after), ih h.tail]
    rfl

theorem replaceFrom_absent {cs : List Char} (h : ¬ p <:+: cs) : replaceFrom p v 0 cs = cs := by
  induction cs with
  | nil => rfl
  | cons c cs ih =>
    rw [List.infix_cons_iff, not_or] at h
    rw [replaceFrom_cons h.1, ih h.2]

/-- Every occurrence of a sign is replaced. -/
theorem replaceFrom_singleton (c : Char) (cs : List Char) :
    replaceFrom [c] v 0 cs = cs.flatMap fun d => if d = c then v else [d] := by
  induction cs with
  | nil => rfl
  | cons d cs ih =>
    rw [List.flatMap_cons, ← ih]
    split_ifs with hd
    · rw [hd]
      exact replaceFrom_start (by simp) cs
    · rw [replaceFrom_cons (by simpa using Ne.symm hd)]
      rfl

/-- A sign that the pattern does not have divides a text into parts that do not see each other. -/
theorem replaceFrom_divided (hp : p ≠ []) {d : Char} (hd : d ∉ p) (ys : List Char) : ∀ xs : List Char,
    replaceFrom p v 0 (xs ++ d :: ys) = replaceFrom p v 0 xs ++ d :: replaceFrom p v 0 ys
  | [] => by
    refine replaceFrom_cons fun h => ?_
    exact hp (List.prefix_nil.1 (prefix_of_divided hd h))
  | c :: xs => by
    by_cases hstart : p <+: c :: xs
    · obtain ⟨rest, hrest⟩ := hstart
      have hshort : rest.length < (c :: xs).length := by
        rw [← hrest, List.length_append]
        exact Nat.lt_add_of_pos_left (List.length_pos_iff.2 hp)
      rw [← hrest, List.append_assoc, replaceFrom_start hp, replaceFrom_start hp, replaceFrom_divided hp hd ys rest,
        List.append_assoc]
    · have hnot : ¬ p <+: c :: (xs ++ d :: ys) := fun h => hstart (prefix_of_divided hd h)
      rw [List.cons_append, replaceFrom_cons hnot, replaceFrom_cons hstart, replaceFrom_divided hp hd ys xs]
      rfl
termination_by xs => xs.length
decreasing_by
  · exact hshort
  · exact Nat.lt_succ_self xs.length

theorem replaceFrom_append {d : Char} (hp : p ≠ []) (hd : d ∉ p) (xs ys : List Char) :
    replaceFrom p v 0 (xs ++ [d] ++ ys) = replaceFrom p v 0 (xs ++ [d]) ++ replaceFrom p v 0 ys := by
  rw [List.append_assoc, List.singleton_append, replaceFrom_divided hp hd, replaceFrom_divided hp hd,
    List.append_assoc]
  rfl

end Text

/-! ## Templates -/

namespace Toolchain

open Text (replaceFrom)

/-- What a template has a place for. -/
inductive Mark where
  | input
  | output

/-- One value for each mark. -/
def Mark.pick {α : Type} (input output : α) : Mark → α
  | .input => input
  | .output => output

def Mark.text : Mark → List Char :=
  pick ['\x7b', 'i', 'n', 'p', 'u', 't', '\x7d'] ['\x7b', 'o', 'u', 't', 'p', 'u', 't', '\x7d']

/-- A template is a list of signs and marks. -/
inductive Part where
  | sign (c : Char)
  | mark (m : Mark)

def Part.fill (value : Mark → List Char) : Part → List Char
  | .sign c => [c]
  | .mark m => value m

/-- The text with a value in the place of every mark. -/
def filled (value : Mark → List Char) (ps : List Part) : List Char := ps.flatMap (Part.fill value)

theorem filled_sign (value : Mark → List Char) (c : Char) (ps : List Part) :
    filled value (.sign c :: ps) = c :: filled value ps := rfl

theorem filled_mark (value : Mark → List Char) (m : Mark) (ps : List Part) :
    filled value (.mark m :: ps) = value m ++ filled value ps := rfl

/-- The text has these parts: from the left, a mark wherever one is written, and a sign elsewhere. -/
inductive Reads : List Char → List Part → Prop where
  | nil : Reads [] []
  | mark (m : Mark) {cs : List Char} {ps : List Part} : Reads cs ps → Reads (m.text ++ cs) (.mark m :: ps)
  | sign {c : Char} {cs : List Char} {ps : List Part} :
    (∀ m : Mark, ¬ m.text <+: c :: cs) → Reads cs ps → Reads (c :: cs) (.sign c :: ps)

theorem exists_reads : ∀ cs : List Char, ∃ ps, Reads cs ps
  | [] => ⟨[], .nil⟩
  | c :: cs => by
    by_cases hmark : ∃ m : Mark, m.text <+: c :: cs
    · obtain ⟨m, rest, hrest⟩ := hmark
      have hshort : rest.length < (c :: cs).length := by
        rw [← hrest]
        cases m <;> simp [Mark.text, Mark.pick] <;> omega
      obtain ⟨ps, hps⟩ := exists_reads rest
      rw [← hrest]
      exact ⟨_, .mark m hps⟩
    · obtain ⟨ps, hps⟩ := exists_reads cs
      exact ⟨_, .sign (not_exists.1 hmark) hps⟩
termination_by cs => cs.length
decreasing_by
  · exact hshort
  · exact Nat.lt_succ_self cs.length

/-- Signs that begin no mark. -/
theorem Reads.signs (cs : List Char) {rest : List Char} {ps : List Part} (hcs : '\x7b' ∉ cs) (h : Reads rest ps) :
    Reads (cs ++ rest) (cs.map .sign ++ ps) := by
  induction cs with
  | nil => exact h
  | cons c cs ih =>
    rw [List.mem_cons, not_or] at hcs
    refine .sign (fun m hm => ?_) (ih hcs.2)
    cases m <;> exact hcs.1 (List.cons_prefix_cons.1 hm).1

theorem Reads.filled_text {cs : List Char} {ps : List Part} (h : Reads cs ps) : filled Mark.text ps = cs := by
  induction h with
  | nil => rfl
  | mark m _ ih => rw [filled_mark, ih]
  | sign _ _ ih => rw [filled_sign, ih]

/-- The marks for the source are found where the template has them. -/
theorem Reads.replace_input {cs : List Char} {ps : List Part} (h : Reads cs ps) (v : List Char) :
    replaceFrom (Mark.text .input) v 0 cs = filled (Mark.pick v (Mark.text .output)) ps := by
  induction h with
  | nil => rfl
  | mark m _ ih =>
    rw [filled_mark, ← ih]
    cases m with
    | input => exact Text.replaceFrom_start (by simp [Mark.text, Mark.pick]) _
    | output => rfl
  | sign hc _ ih =>
    rw [Text.replaceFrom_cons (hc .input), ih, filled_sign]

/-- Signs that begin no value are the same in every filling. -/
theorem prefix_filled {value value' : Mark → List Char} {xs : List Char}
    (hvalue : ∀ m, ∃ d ds, value m = d :: ds ∧ d ∉ xs) {ps : List Part} (h : xs <+: filled value ps) :
    xs <+: filled value' ps := by
  induction xs generalizing ps with
  | nil => exact List.nil_prefix
  | cons x xs ih =>
    cases ps with
    | nil => cases List.prefix_nil.1 h
    | cons part ps =>
      cases part with
      | sign c =>
        obtain ⟨rfl, hrest⟩ := List.cons_prefix_cons.1 h
        refine List.cons_prefix_cons.2 ⟨rfl, ih (fun m => ?_) hrest⟩
        obtain ⟨d, ds, hm, hd⟩ := hvalue m
        exact ⟨d, ds, hm, List.not_mem_of_not_mem_cons hd⟩
      | mark m =>
        obtain ⟨d, ds, hm, hd⟩ := hvalue m
        rw [filled_mark, hm] at h
        obtain ⟨rfl, _⟩ := List.cons_prefix_cons.1 h
        exact absurd List.mem_cons_self hd

/-- With a value in quotes for the source, the marks for the program are those of the template and those
within that value. -/
theorem Reads.replace_output {cs : List Char} {ps : List Part} (h : Reads cs ps) {v q : List Char}
    (hv : v = '\'' :: (q ++ ['\''])) (w : List Char) :
    replaceFrom (Mark.text .output) w 0 (filled (Mark.pick v (Mark.text .output)) ps) =
      filled (Mark.pick (replaceFrom (Mark.text .output) w 0 v) w) ps := by
  have hmark : Mark.text .output ≠ [] := by simp [Mark.text, Mark.pick]
  induction h with
  | nil => rfl
  | mark m _ ih =>
    rw [filled_mark, filled_mark, ← ih]
    cases m with
    | input =>
      rw [hv]
      exact Text.replaceFrom_append hmark (by decide) ('\'' :: q) _
    | output => exact Text.replaceFrom_start hmark _
  | @sign c cs ps hc hps ih =>
    have hnot : ¬ Mark.text .output <+: c :: filled (Mark.pick v (Mark.text .output)) ps := by
      intro hstart
      obtain ⟨rfl, hrest⟩ := List.cons_prefix_cons.1 hstart
      refine hc .output (List.cons_prefix_cons.2 ⟨rfl, ?_⟩)
      rw [← hps.filled_text]
      refine prefix_filled (fun m => ?_) hrest
      cases m with
      | input => exact ⟨_, _, hv, by decide⟩
      | output => exact ⟨_, _, rfl, by decide⟩
    rw [filled_sign, Text.replaceFrom_cons hnot, ih, filled_sign]

/-! ## Paths in quotes -/

/-- A path as it stands between quotes. -/
def escaped (path : List Char) : List Char :=
  path.flatMap fun c => if c = '\'' then ['\'', '\\', '\'', '\''] else [c]

theorem escaped_quote (path : List Char) : escaped ('\'' :: path) = '\'' :: '\\' :: '\'' :: '\'' :: escaped path := rfl

theorem escaped_cons {c : Char} (hc : c ≠ '\'') (path : List Char) : escaped (c :: path) = c :: escaped path := by
  rw [escaped, List.flatMap_cons, if_neg hc]
  rfl

theorem quote_toList (path : List UInt8) :
    (quote path).toList = '\'' :: (escaped (Text.decodeLossy path).toList ++ ['\'']) := by
  have hreplace : (Text.replace (Text.decodeLossy path) "'" "'\\''").toList =
      escaped (Text.decodeLossy path).toList := by
    rw [Text.toList_replace]
    exact Text.replaceFrom_singleton '\'' _
  rw [quote, String.toList_append, String.toList_append, hreplace]
  rfl

theorem prefix_escaped : ∀ {p path : List Char}, '\'' ∉ p → (p <+: escaped path ↔ p <+: path)
  | [], _, _ => by simp
  | _ :: _, [], _ => by simp [escaped]
  | x :: p, c :: path, hp => by
    rw [List.mem_cons, not_or] at hp
    by_cases hc : c = '\''
    · rw [hc, escaped_quote, List.cons_prefix_cons, List.cons_prefix_cons]
      simp [Ne.symm hp.1]
    · rw [escaped_cons hc, List.cons_prefix_cons, List.cons_prefix_cons, prefix_escaped hp.2]

/-- Quotes do not make a mark and do not break one. -/
theorem infix_escaped {p : List Char} (hp : p ≠ []) (hquote : '\'' ∉ p) (hslash : '\\' ∉ p) (path : List Char) :
    p <:+: escaped path ↔ p <:+: path := by
  induction path with
  | nil => rfl
  | cons c path ih =>
    by_cases hc : c = '\''
    · rw [hc, escaped_quote, Text.infix_cons_of_notMem hp hquote, Text.infix_cons_of_notMem hp hslash,
        Text.infix_cons_of_notMem hp hquote, Text.infix_cons_of_notMem hp hquote, Text.infix_cons_of_notMem hp hquote, ih]
    · rw [escaped_cons hc, List.infix_cons_iff, List.infix_cons_iff, ih, ← escaped_cons hc, prefix_escaped hquote]

/-- A mark is in the quoted path exactly if its octets are in the path. -/
theorem infix_quote {m : Mark} {path : List UInt8} :
    m.text <:+: (quote path).toList ↔ m.text.flatMap Text.encodeChar <:+: path := by
  have hmark : m.text ≠ [] ∧ '\'' ∉ m.text ∧ '\\' ∉ m.text ∧ m.text.all (·.toNat < 0x80) := by cases m <;> decide
  obtain ⟨hp, hquote, hslash, hascii⟩ := hmark
  rw [quote_toList, Text.infix_cons_of_notMem hp hquote, Text.infix_concat_of_notMem hp hquote,
    infix_escaped hp hquote hslash, Text.infix_decodeLossy (by simpa using hascii) hp]

end Toolchain

namespace Shell

/-! ## The shell -/

variable {n : Nat} {rest rest' : List Char} {w : Word}

theorem readWord_run {run : List Char} (hrun : '\'' ∉ run) (h : readWord n rest = .ok (w, rest')) :
    readWord (n + 1) ('\'' :: (run ++ '\'' :: rest)) = .ok (.text (String.ofList run) true :: w, rest') := by
  have hplain : ∀ c ∈ run, (c != '\'') = true := fun c hc => bne_iff_ne.2 fun heq => hrun (heq ▸ hc)
  have htake : (run ++ '\'' :: rest).takeWhile (· != '\'') = run := by
    rw [List.takeWhile_append_of_pos hplain]
    simp
  have hdrop : (run ++ '\'' :: rest).dropWhile (· != '\'') = '\'' :: rest := by
    rw [List.dropWhile_append_of_pos hplain]
    simp
  rw [readWord.eq_def]
  dsimp only
  rw [if_neg (by decide), if_pos (by decide), htake, hdrop]
  dsimp only
  rw [h]
  rfl

theorem readWord_escape {c : Char} (hc : c ≠ '\n') (h : readWord n rest = .ok (w, rest')) :
    readWord (n + 1) ('\\' :: c :: rest) = .ok (.text (String.singleton c) true :: w, rest') := by
  rw [readWord.eq_def]
  dsimp only
  rw [if_neg (by decide), if_neg (by decide), if_neg (by decide), if_neg (by decide), if_neg (by decide),
    if_pos (by decide)]
  split
  · rename_i heq
    exact absurd (List.cons.inj heq).1 hc
  · rename_i heq
    cases heq
    rw [h]
    rfl
  · rename_i heq
    cases heq

theorem Fields.append_append (f : Fields) (a b : String) : (f.append a).append b = f.append (a ++ b) := by
  simp [Fields.append, String.append_assoc]

/-- A path in quotes is read up to its end, and its pieces are put together to the path. The run is the part
of the path from the opening quote up to here. -/
theorem readWord_quoted (path : List Char) {run : List Char} (hrun : '\'' ∉ run) {n : Nat}
    (hn : (Toolchain.escaped path).length < n) :
    ∃ w, readWord n ('\'' :: (run ++ Toolchain.escaped path ++ ['\''])) = .ok (w, []) ∧
      ∀ (interpret : Interpreter) (ports : Ports) (s : State) (f : Fields),
        expandPieces interpret ports w s f = (s, .next, f.append (String.ofList (run ++ path))) := by
  induction path generalizing run n with
  | nil =>
    obtain ⟨n, rfl⟩ := Nat.exists_eq_succ_of_ne_zero (Nat.ne_of_gt hn)
    refine ⟨[.text (String.ofList run) true], ?_, fun interpret ports s f => ?_⟩
    · rw [Toolchain.escaped, List.flatMap_nil, List.append_nil]
      exact readWord_run hrun (by rw [readWord.eq_def]; cases n <;> rfl)
    · rw [List.append_nil]
      rfl
  | cons c path ih =>
    by_cases hc : c = '\''
    · rw [hc, Toolchain.escaped_quote] at hn ⊢
      obtain ⟨n, rfl⟩ : ∃ k, n = k + 2 := ⟨n - 2, by simp only [List.length_cons] at hn; omega⟩
      obtain ⟨w, hread, hexpand⟩ := ih List.not_mem_nil (n := n) (by simp only [List.length_cons] at hn; omega)
      refine ⟨.text (String.ofList run) true :: .text "'" true :: w, ?_, fun interpret ports s f => ?_⟩
      · have hinner := readWord_run hrun (readWord_escape (c := '\'') (by decide) hread)
        simpa using hinner
      · calc expandPieces interpret ports (.text (String.ofList run) true :: .text "'" true :: w) s f
          _ = expandPieces interpret ports w s ((f.append (String.ofList run)).append "'") := rfl
          _ = _ := by
            rw [hexpand, Fields.append_append, Fields.append_append]
            simp
    · have hlonger : '\'' ∉ run ++ [c] := by simp [hrun, Ne.symm hc]
      rw [Toolchain.escaped_cons hc] at hn ⊢
      obtain ⟨w, hread, hexpand⟩ := ih hlonger (n := n) (by simp only [List.length_cons] at hn; omega)
      refine ⟨w, ?_, fun interpret ports s f => ?_⟩
      · simpa using hread
      · rw [hexpand]
        simp

/-- A text that starts with a quote and is one word. -/
theorem scan_quote {cs : List Char} (h : readWord (cs.length + 2) ('\'' :: cs) = .ok (w, [])) (n : Nat) :
    scan (n + 1) ('\'' :: cs) = .ok [.word w] := by
  have hdigits : ('\'' :: cs).dropWhile Char.isDigit = '\'' :: cs := rfl
  have hredirect : sign? redirections ('\'' :: cs) = none := rfl
  have hoperator : sign? operators ('\'' :: cs) = none := rfl
  rw [scan.eq_def]
  dsimp only
  rw [if_neg (by decide), if_neg (by decide), if_neg (by simp), hdigits, hredirect]
  dsimp only
  rw [hoperator]
  dsimp only
  rw [h]
  cases n <;> rfl

/-- **The shell reads a path in quotes as one word, and the word is the text that the path is read as.** -/
theorem tokens_quote (path : List UInt8) : ∃ w, tokens (Toolchain.quote path) = .ok [.word w] ∧
    ∀ (interpret : Interpreter) (ports : Ports) (s : State),
      expandWords interpret ports [w] s = (s, .next, [Text.decodeLossy path]) := by
  have hlen (cs : List Char) : (Toolchain.escaped cs).length < (Toolchain.escaped cs ++ ['\'']).length + 2 := by
    rw [List.length_append]
    omega
  obtain ⟨w, hread, hexpand⟩ := readWord_quoted (Text.decodeLossy path).toList List.not_mem_nil (hlen _)
  rw [List.nil_append] at hread
  refine ⟨w, ?_, fun interpret ports s => ?_⟩
  · rw [tokens, Toolchain.quote_toList]
    exact scan_quote hread _
  · rw [expandWords, hexpand]
    simp [Fields.append, Fields.start, Fields.toList, Fields.finish, expandWords]

end Shell

namespace Toolchain

open Text (replaceFrom)

/-! ## Commands -/

/-- A value that is replaced differs from itself where the first mark was, whatever follows. -/
theorem replaceFrom_append_ne {xs : List Char} (h : Mark.text .output <:+: xs) (w rest rest' : List Char) :
    replaceFrom (Mark.text .output) ('\'' :: w) 0 xs ++ rest ≠ xs ++ rest' := by
  obtain ⟨before, after, rfl, hfirst⟩ := Text.exists_first h
  rw [Text.replaceFrom_first (by decide) hfirst]
  intro heq
  rw [List.append_assoc, List.append_assoc, List.append_assoc, List.append_cancel_left_eq] at heq
  exact absurd (List.cons.inj heq).1 (by decide)

/-- Two values for the source that differ whatever follows show in a template with a mark for it. -/
theorem filled_eq_iff {v v' w : List Char} (hne : ∀ rest rest', v ++ rest ≠ v' ++ rest') (ps : List Part) :
    filled (Mark.pick v w) ps = filled (Mark.pick v' w) ps ↔ Part.mark .input ∉ ps := by
  induction ps with
  | nil => simp [filled]
  | cons part ps ih =>
    rw [List.mem_cons, not_or, ← ih]
    match part with
    | .sign c => simp [filled_sign]
    | .mark .input => simpa [filled_mark, Mark.pick] using hne _ _
    | .mark .output => simp [filled_mark, Mark.pick]

theorem toList_output : "\x7boutput\x7d".toList = Mark.text .output := by decide

theorem expand_toList {template : String} {ps : List Part} (h : Reads template.toList ps) (input output : List UInt8) :
    (expand template input output).toList =
      filled (Mark.pick (Text.replace (quote input) "\x7boutput\x7d" (quote output)).toList (quote output).toList) ps := by
  have hinput : "\x7binput\x7d".toList = Mark.text .input := by decide
  rw [expand, Text.toList_replace, Text.toList_replace, Text.toList_replace, hinput, toList_output, h.replace_input,
    h.replace_output (quote_toList input)]

/-- Both paths are carried as they are, unless a mark in the path of the source was put into the command. -/
theorem expand_eq_filled {template : String} {ps : List Part} (h : Reads template.toList ps)
    (input output : List UInt8) :
    (expand template input output).toList = filled (Mark.pick (quote input).toList (quote output).toList) ps ↔
      (.mark .input ∈ ps → ¬ "\x7boutput\x7d".toUTF8.data.toList <:+: input) := by
  rw [expand_toList h, Text.toList_replace, Text.toUTF8_octets, ← funext Text.encodeChar_eq_utf8EncodeChar,
    toList_output, ← infix_quote]
  by_cases hmark : Mark.text .output <:+: (quote input).toList
  · rw [quote_toList output, filled_eq_iff (replaceFrom_append_ne hmark _)]
    simp [hmark]
  · rw [Text.replaceFrom_absent hmark]
    simp [hmark]

/-- **What a build command carries.** Every template has marks and signs. A command is the template with the
path of the program in quotes in the place of its marks, and the path of the source in quotes, with the
program in the place of marks in it, for the source. So both paths are carried as they are exactly if the
template has no mark for the source or its path has no mark for the program. The shell reads a path in
quotes as one word, and the octets of the word are the path exactly if the path is valid UTF-8. -/
theorem expand_exact (template : String) (input output path : List UInt8) :
    (∃ ps, Reads template.toList ps) ∧
    (∀ ps, Reads template.toList ps →
      (expand template input output).toList =
        filled (Mark.pick (Text.replace (quote input) "\x7boutput\x7d" (quote output)).toList (quote output).toList) ps ∧
      ((expand template input output).toList = filled (Mark.pick (quote input).toList (quote output).toList) ps ↔
        (.mark .input ∈ ps → ¬ "\x7boutput\x7d".toUTF8.data.toList <:+: input))) ∧
    ∃ (w : Shell.Word) (word : String), Shell.tokens (quote path) = .ok [.word w] ∧
      (∀ (interpret : Shell.Interpreter) (ports : Shell.Ports) (s : Shell.State),
        Shell.expandWords interpret ports [w] s = (s, .next, [word])) ∧
      (word.toUTF8.data.toList = path ↔ ∃ text : String, text.toUTF8.data.toList = path) := by
  obtain ⟨w, hword, hexpand⟩ := Shell.tokens_quote path
  refine ⟨exists_reads _, fun ps h => ⟨?_, ?_⟩, w, _, hword, hexpand, ?_⟩
  · exact expand_toList h input output
  · exact expand_eq_filled h input output
  · simpa only [Text.encode_eq_toUTF8] using Text.encode_decodeLossy path

/-- A mark in the path of the source is filled: the path of the program then stands there without quotes. An
octet that spells no character is lost: the word in quotes is another path. -/
theorem expand_mark_in_path : (∃ ps,
    Reads "cc -o \x7boutput\x7d \x7binput\x7d".toList ps ∧
    expand "cc -o \x7boutput\x7d \x7binput\x7d" (Text.encode "/tmp/\x7boutput\x7d/x.c") (Text.encode "/tmp/o") =
      "cc -o '/tmp/o' '/tmp/'/tmp/o'/x.c'" ∧
    String.ofList (filled (Mark.pick (quote (Text.encode "/tmp/\x7boutput\x7d/x.c")).toList
        (quote (Text.encode "/tmp/o")).toList) ps) =
      "cc -o '/tmp/o' '/tmp/\x7boutput\x7d/x.c'") ∧
    quote [0x2f, 0x74, 0x6d, 0x70, 0x2f, 0xff] = "'/tmp/�'" ∧
    Text.encode "/tmp/�" = [0x2f, 0x74, 0x6d, 0x70, 0x2f, 0xef, 0xbf, 0xbd] := by
  refine ⟨⟨"cc -o ".toList.map .sign ++ .mark .output :: (" ".toList.map .sign ++ [.mark .input]), ?_, ?_, ?_⟩, ?_, ?_⟩
  · exact .signs "cc -o ".toList (by decide) (.mark .output (.signs [' '] (by decide) (.mark .input .nil)))
  all_goals decide +kernel

-- The end of the command is then no part of a path.
example : (Shell.tokens (expand "\x7binput\x7d" (Text.encode "\x7boutput\x7d") (Text.encode "a;b"))).toOption =
    some [.word [.text "" true, .text "a" false], .operator ";", .word [.text "b" false, .text "" true]] := by
  decide +kernel

end Toolchain

end Dataflow
