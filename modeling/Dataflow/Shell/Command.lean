import Dataflow.Shell.Word

/-!
# Shell commands

What the tokens of a script mean: simple commands joined by pipes, by `&&` and `||`, and by line
ends and semicolons. This is part of the stand-in for the host's shell (`Dataflow.Shell.Run`); results speak of
words only.
-/

namespace Dataflow.Shell

structure Redirect where
  stream : Nat
  sign : String
  target : Word
deriving DecidableEq, Repr

inductive Command where
  | nothing
  | simple (settings : List (String × Word)) (words : List Word) (redirects : List Redirect)
  | seq (first second : Command)
  | and (first second : Command)
  | or (first second : Command)
  | not (c : Command)
  | pipe (source sink : Command)
  | subshell (c : Command) (redirects : List Redirect)
  | group (c : Command) (redirects : List Redirect)
  | ifThen (test yes no : Command)
  | forEach (name : String) (values : List Word) (body : Command)
deriving Repr

/-- Words that have a meaning of their own at the start of a command. -/
def reserved : List String :=
  ["if", "then", "elif", "else", "fi", "for", "do", "done", "!", "\x7b", "\x7d", "while", "until",
    "case", "esac"]

/-- How a token is called in a complaint. -/
def Token.sign : Token → String
  | .word w => (Word.plain? w).getD "word"
  | .operator "\n" => "newline"
  | .operator s => s
  | .redirect _ _ => "redirection"

abbrev Parse (α : Type) := List Token → Except Fault (α × List Token)

/-- The complaint about the token at hand. -/
def refuse {α : Type} : List Token → Except Fault α
  | [] => .error .unexpectedEnd
  | t :: _ => .error (.unexpected t.sign)

/-- The reserved word at hand. -/
def reserved? : List Token → Option String
  | .word w :: _ => (Word.plain? w).filter reserved.contains
  | _ => none

/-- Passes over the reserved word that has to stand here. -/
def expect (s : String) (ts : List Token) : Except Fault (List Token) :=
  if reserved? ts == some s then .ok ts.tail else refuse ts

def skipLines : List Token → List Token
  | .operator "\n" :: ts => skipLines ts
  | ts => ts

/-- A word that sets a variable: a plain name, an equals sign, and the value. -/
def setting? (w : Word) : Option (String × Word) :=
  let rec split (name : String) : Word → Option (String × Word)
    | .text "=" false :: w => if isName name.toList then some (name, w) else none
    | .text s false :: w => split (name ++ s) w
    | _ => none
  split "" w

/-- The stream that a redirection is for, if none is named. -/
def defaultStream (sign : String) : Nat := if sign.startsWith "<" then 0 else 1

/-- The redirections at hand. -/
def readRedirects : List Token → Except Fault (List Redirect × List Token)
  | .redirect n s :: .word w :: ts => do
    let (rs, rest) ← readRedirects ts
    return (⟨n.getD (defaultStream s), s, w⟩ :: rs, rest)
  | .redirect _ _ :: ts => refuse ts
  | ts => .ok ([], ts)

/-- The words at hand. -/
def readWords : List Token → List Word × List Token
  | .word w :: ts => let (ws, rest) := readWords ts; (w :: ws, rest)
  | ts => ([], ts)

/-- The words, settings and redirections of a simple command. -/
def readSimple (settings : List (String × Word)) (words : List Word) (redirects : List Redirect) :
    List Token → Except Fault (Command × List Token)
  | .redirect n s :: .word w :: ts =>
    readSimple settings words (redirects ++ [⟨n.getD (defaultStream s), s, w⟩]) ts
  | .redirect _ _ :: ts => refuse ts
  | .word w :: ts =>
    match words, setting? w with
    | [], some p => readSimple (settings ++ [p]) [] redirects ts
    | _, _ => readSimple settings (words ++ [w]) redirects ts
  | ts =>
    if settings.isEmpty && words.isEmpty && redirects.isEmpty then refuse ts
    else .ok (.simple settings words redirects, ts)

/-- The levels of the grammar. -/
inductive Level where
  | list
  | chain
  | pipeline
  | command
  | orElse

/-- Whether a list of commands ends here. -/
def endsList (ts : List Token) : Bool :=
  match ts with
  | [] => true
  | .operator s :: _ => s == ")" || s == ";;"
  | _ => ["then", "elif", "else", "fi", "do", "done", "\x7d", "esac"].contains ((reserved? ts).getD "")

/-- What follows a pipeline: more of them, each run or left out by the status of what is before. -/
def joinChain (pipeline : Parse Command) : Nat → Command → Parse Command
  | k + 1, c, .operator "&&" :: ts => do
    let (d, rest) ← pipeline (skipLines ts)
    joinChain pipeline k (.and c d) rest
  | k + 1, c, .operator "||" :: ts => do
    let (d, rest) ← pipeline (skipLines ts)
    joinChain pipeline k (.or c d) rest
  | _, c, ts => .ok (c, ts)

/-- Reads a command of a level. Every call spends one unit of the bound. -/
def readLevel : Nat → Level → Parse Command
  | 0, _, ts => refuse ts
  | n + 1, .list, ts => do
    let ts := skipLines ts
    if endsList ts then return (.nothing, ts)
    let (c, rest) ← readLevel n .chain ts
    match rest with
    | .operator s :: rest =>
      if s == ";" || s == "\n" then
        let (d, rest) ← readLevel n .list rest
        return (.seq c d, rest)
      else if s == ")" || s == ";;" then return (c, .operator s :: rest)
      else refuse (.operator s :: rest)
    | [] => return (c, [])
    | ts => if endsList ts then return (c, ts) else refuse ts
  | n + 1, .chain, ts => do
    let (c, rest) ← readLevel n .pipeline ts
    joinChain (readLevel n .pipeline) (rest.length + 1) c rest
  | n + 1, .pipeline, ts => do
    if reserved? ts == some "!" then
      let (c, rest) ← readLevel n .pipeline ts.tail
      return (.not c, rest)
    let (c, rest) ← readLevel n .command ts
    match rest with
    | .operator "|" :: rest =>
      let (d, rest) ← readLevel n .pipeline (skipLines rest)
      return (.pipe c d, rest)
    | _ => return (c, rest)
  | n + 1, .orElse, ts => do
    match reserved? ts with
    | some "fi" => return (.nothing, ts.tail)
    | some "else" =>
      let (c, rest) ← readLevel n .list ts.tail
      return (c, ← expect "fi" rest)
    | some "elif" =>
      let (test, rest) ← readLevel n .list ts.tail
      let (yes, rest) ← readLevel n .list (← expect "then" rest)
      let (no, rest) ← readLevel n .orElse rest
      return (.ifThen test yes no, rest)
    | _ => refuse ts
  | n + 1, .command, ts => do
    match ts with
    | .operator "(" :: rest =>
      let (c, rest) ← readLevel n .list rest
      match rest with
      | .operator ")" :: rest =>
        let (rs, rest) ← readRedirects rest
        return (.subshell c rs, rest)
      | ts => refuse ts
    | _ =>
      match reserved? ts with
      | none => readSimple [] [] [] ts
      | some "\x7b" =>
        let (c, rest) ← readLevel n .list ts.tail
        let (rs, rest) ← readRedirects (← expect "\x7d" rest)
        return (.group c rs, rest)
      | some "if" =>
        let (test, rest) ← readLevel n .list ts.tail
        let (yes, rest) ← readLevel n .list (← expect "then" rest)
        let (no, rest) ← readLevel n .orElse rest
        return (.ifThen test yes no, rest)
      | some "for" =>
        match ts.tail with
        | .word name :: .word kw :: rest =>
          match Word.plain? name, Word.plain? kw with
          | some name, some "in" =>
            let (values, rest) := readWords rest
            let rest := match rest with
              | .operator ";" :: rest => rest
              | ts => ts
            let (body, rest) ← readLevel n .list (← expect "do" (skipLines rest))
            return (.forEach name values body, ← expect "done" rest)
          | _, _ => refuse (.word kw :: rest)
        | ts => refuse ts
      | some _ => refuse ts

/-- The command that a script spells. -/
def Command.read (script : String) : Except Fault Command := do
  let ts ← tokens script
  let (c, rest) ← readLevel (8 * ts.length + 8) .list ts
  match rest with
  | [] => return c
  | ts => refuse ts

end Dataflow.Shell
