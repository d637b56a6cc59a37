import Dataflow.Shell.State
import Dataflow.Text.Utf8

/-!
# Commands by name

The commands that every system has. Each gets its arguments and its input, and gives a status, output
and complaints, and the files as it leaves them. They stand in for the utilities of the host, so that builds can
run in memory; no result is about them.
-/

namespace Dataflow.Shell

/-- What a command leaves. -/
structure Effect where
  state : State
  status : Nat
  out : Octets
  err : Octets

namespace Utility

def bytes (s : String) : Octets := Text.encode s

def done (s : State) (out : String) : Effect := ⟨s, 0, bytes out, []⟩

def fail (s : State) (status : Nat) (complaint : String) : Effect :=
  ⟨s, status, [], bytes (complaint ++ "\n")⟩

/-- The value of up to `n` octal digits, and what follows them. -/
def octal : Nat → Nat → List Char → Nat × List Char
  | n + 1, v, c :: cs =>
    if '0' ≤ c && c ≤ '7' then octal n (v * 8 + (c.toNat - '0'.toNat)) cs else (v, c :: cs)
  | _, v, cs => (v, cs)

/-- The octet of a sign after a backslash. -/
def escaped? : Char → Option UInt8
  | 'a' => some 7
  | 'b' => some 8
  | 'f' => some 12
  | 'n' => some 10
  | 'r' => some 13
  | 't' => some 9
  | 'v' => some 11
  | '\\' => some 92
  | _ => none

/-- The octets of a text with backslash escapes, and whether it was cut short by `\c`. Octal numbers
begin with a zero if `zero` says so. -/
def unescape (zero : Bool) : Nat → List Char → Octets × Bool
  | 0, _ | _, [] => ([], false)
  | n + 1, '\\' :: c :: cs =>
    let more (bs : Octets) (rest : List Char) : Octets × Bool :=
      let (t, stop) := unescape zero n rest
      (bs ++ t, stop)
    if c == 'c' then ([], true)
    else
      match escaped? c with
      | some b => more [b] cs
      | none =>
        if c == '0' && zero then
          let (v, rest) := octal 3 0 cs
          more [UInt8.ofNat v] rest
        else if '0' ≤ c && c ≤ '7' && !zero then
          let (v, rest) := octal 3 0 (c :: cs)
          more [UInt8.ofNat v] rest
        else more (bytes (String.ofList ['\\', c])) cs
  | n + 1, c :: cs =>
    let (t, stop) := unescape zero n cs
    (Text.encodeChar c ++ t, stop)

def echo (s : State) (args : List String) : Effect :=
  let (line, args) := match args with
    | "-n" :: rest => ("", rest)
    | _ => ("\n", args)
  let text := " ".intercalate args
  let (bs, stop) := unescape true (text.length + 1) text.toList
  ⟨s, 0, bs ++ (if stop then [] else bytes line), []⟩

/-- Fills up to a width. -/
def pad (left zeros : Bool) (width : Nat) (bs : Octets) : Octets :=
  let gap := width - bs.length
  if left then bs ++ List.replicate gap 32
  else if zeros then
    match bs with
    | 45 :: ds => 45 :: (List.replicate gap 48 ++ ds)
    | _ => List.replicate gap 48 ++ bs
  else List.replicate gap 32 ++ bs

/-- A whole number as an argument; a quote before a sign gives the sign's number. -/
def number? (arg : String) : Option Int :=
  match arg.toList with
  | [] => some 0
  | '\'' :: c :: _ | '"' :: c :: _ => some c.toNat
  | '+' :: cs => (String.ofList cs).toNat?.map (Int.ofNat ·)
  | _ => arg.toInt?

/-- Writes a format once. Gives the output, the arguments that are left, whether any was asked for,
whether a number was bad, and whether to stop. -/
def formatOnce : Nat → List Char → List String → Octets × List String × Bool × Bool × Bool
  | 0, _, args | _, [], args => ([], args, false, false, false)
  | n + 1, '%' :: '%' :: cs, args =>
    let (bs, rest, used, bad, stop) := formatOnce n cs args
    (37 :: bs, rest, used, bad, stop)
  | n + 1, '%' :: cs, args =>
    let flags := cs.takeWhile ("-0+ #".toList.contains ·)
    let cs := cs.dropWhile ("-0+ #".toList.contains ·)
    let width := ((String.ofList (cs.takeWhile Char.isDigit)).toNat?).getD 0
    let cs := cs.dropWhile Char.isDigit
    let (precision, cs) : Option Nat × List Char := match cs with
      | '.' :: cs =>
        (some (((String.ofList (cs.takeWhile Char.isDigit)).toNat?).getD 0),
          cs.dropWhile Char.isDigit)
      | _ => (none, cs)
    let arg := args.headD ""
    let left := flags.contains '-'
    let zeros := flags.contains '0'
    let cut (bs : Octets) : Octets := match precision with
      | some p => bs.take p
      | none => bs
    match cs with
    | [] => ([], args, true, true, true)
    | c :: cs =>
      let (piece, bad, stop) : Octets × Bool × Bool :=
        if c == 's' then (pad left false width (cut (bytes arg)), false, false)
        else if c == 'b' then
          let (bs, stop) := unescape true (arg.length + 1) arg.toList
          (pad left false width (cut bs), false, stop)
        else if c == 'c' then (pad left false width (bytes (String.ofList (arg.toList.take 1))), false, false)
        else
          let value := number? arg
          let v := value.getD 0
          let text : String := match c with
            | 'x' => String.ofList (Nat.toDigits 16 v.toNat)
            | 'o' => String.ofList (Nat.toDigits 8 v.toNat)
            | _ => (if flags.contains '+' && v ≥ 0 then "+" else "") ++ toString v
          (pad left zeros width (bytes text), value.isNone, false)
      if stop then (piece, [], true, bad, true)
      else
        let (bs, rest, _, bad', stop) := formatOnce n cs args.tail
        (piece ++ bs, rest, true, bad || bad', stop)
  | n + 1, '\\' :: c :: cs, args =>
    let go (b : Octets) (rest : List Char) : Octets × List String × Bool × Bool × Bool :=
      let (bs, left, used, bad, stop) := formatOnce n rest args
      (b ++ bs, left, used, bad, stop)
    if c == 'c' then ([], [], false, false, true)
    else
      match escaped? c with
      | some b => go [b] cs
      | none =>
        if '0' ≤ c && c ≤ '7' then
          let (v, rest) := octal 3 0 (c :: cs)
          go [UInt8.ofNat v] rest
        else go (bytes (String.ofList ['\\', c])) cs
  | n + 1, c :: cs, args =>
    let (bs, rest, used, bad, stop) := formatOnce n cs args
    (Text.encodeChar c ++ bs, rest, used, bad, stop)

/-- Writes a format until it has taken all arguments. -/
def formatAll (format : List Char) : Nat → List String → Octets × Bool
  | 0, _ => ([], false)
  | n + 1, args =>
    let (bs, rest, used, bad, stop) := formatOnce (format.length + 1) format args
    if rest.isEmpty || !used || stop then (bs, bad)
    else
      let (more, bad') := formatAll format n rest
      (bs ++ more, bad || bad')

def printf (s : State) (args : List String) : Effect :=
  match (if args.head? == some "--" then args.tail else args) with
  | [] => fail s 2 (s.name ++ ": 1: printf: usage: printf format [arg ...]")
  | format :: args =>
    let (bs, bad) := formatAll format.toList (args.length + 1) args
    if bad then ⟨s, 1, bs, bytes (s.name ++ ": 1: printf: expected numeric value\n")⟩ else ⟨s, 0, bs, []⟩

/-- The file or files named, one after another; a dash is the input. -/
def cat (s : State) (args : List String) (input : Octets) : Effect :=
  let args := if args.isEmpty then ["-"] else args
  args.foldl (fun (e : Effect) a =>
    if a == "-" then { e with out := e.out ++ input }
    else
      match s.content a with
      | .ok bs => { e with out := e.out ++ bs }
      | .error cause =>
        { e with status := 1, err := e.err ++ bytes ("cat: " ++ a ++ ": " ++ cause.text ++ "\n") })
    ⟨s, 0, [], []⟩

/-- The arguments without their options. -/
def operands (args : List String) : List String :=
  args.filter fun a => !(a.startsWith "-" && a.length > 1)

/-- The last step of a path. -/
def lastStep (path : String) : String :=
  match ((path.splitOn "/").filter (· != "")).getLast? with
  | some step => step
  | none => if path.isEmpty then "" else "/"

def basename (s : State) (args : List String) : Effect :=
  match args with
  | [p] => done s (lastStep p ++ "\n")
  | [p, suffix] =>
    let b := lastStep p
    done s ((if b.endsWith suffix && b != suffix then (b.dropEnd suffix.length).toString else b) ++ "\n")
  | [] => fail s 1 "basename: missing operand\nTry 'basename --help' for more information."
  | _ :: _ :: extra :: _ =>
    fail s 1 ("basename: extra operand '" ++ extra
      ++ "'\nTry 'basename --help' for more information.")

def dirname (s : State) (args : List String) : Effect :=
  match args with
  | [p] =>
    let steps := (p.splitOn "/").filter (· != "")
    let up := "/".intercalate steps.dropLast
    let dir := if p.startsWith "/" then "/" ++ up else if up.isEmpty then "." else up
    done s (dir ++ "\n")
  | _ => fail s 1 "dirname: missing operand\nTry 'dirname --help' for more information."

/-- The path of a file put at a target, which may be a directory to put it in. -/
def target (s : State) (source dest : String) : String :=
  if s.entry? dest == some .directory then dest ++ "/" ++ lastStep source else dest

/-- Copies one file; the copy may be run if the source may and the target is new. -/
def copy (word : String) (s : State) (source dest : String) : Except String State :=
  let dest := target s source dest
  match s.entry? source with
  | none => .error (word ++ ": cannot stat '" ++ source ++ "': No such file or directory")
  | some .directory => .error (word ++ ": -r not specified; omitting directory '" ++ source ++ "'")
  | some (.file bs x) =>
    match s.write dest bs with
    | .error cause => .error (word ++ ": cannot create regular file '" ++ dest ++ "': " ++ cause.text)
    | .ok t =>
      match s.entry? dest with
      | some _ => .ok t
      | none => .ok (t.put dest (.file bs x))

def copyOrMove (word : String) (move : Bool) (s : State) (args : List String) : Effect :=
  match operands args with
  | [source, dest] =>
    match copy word s source dest with
    | .ok t => ⟨if move then t.remove source else t, 0, [], []⟩
    | .error complaint => fail s 1 complaint
  | [source] =>
    fail s 1 (word ++ ": missing destination file operand after '" ++ source ++ "'\nTry '" ++ word
      ++ " --help' for more information.")
  | _ => fail s 1 (word ++ ": missing file operand\nTry '" ++ word ++ " --help' for more information.")

def rm (s : State) (args : List String) : Effect :=
  let force := args.any fun a => a.startsWith "-" && a.toList.contains 'f'
  let deep := args.any fun a => a.startsWith "-" && (a.toList.contains 'r' || a.toList.contains 'R')
  (operands args).foldl (fun (e : Effect) a =>
    match e.state.entry? a with
    | some (.file _ _) => { e with state := e.state.remove a }
    | some .directory =>
      if deep then { e with state := e.state.remove a }
      else { e with status := 1, err := e.err ++ bytes ("rm: cannot remove '" ++ a ++ "': Is a directory\n") }
    | none =>
      if force then e
      else
        { e with
          status := 1
          err := e.err ++ bytes ("rm: cannot remove '" ++ a ++ "': No such file or directory\n") })
    ⟨s, 0, [], []⟩

def touch (s : State) (args : List String) : Effect :=
  (operands args).foldl (fun (e : Effect) a =>
    if (e.state.entry? a).isSome then e
    else
      match e.state.write a [] with
      | .ok t => { e with state := t }
      | .error cause =>
        { e with status := 1, err := e.err ++ bytes ("touch: cannot touch '" ++ a ++ "': " ++ cause.text ++ "\n") })
    ⟨s, 0, [], []⟩

def mkdir (s : State) (args : List String) : Effect :=
  let deep := args.contains "-p"
  (operands args).foldl (fun (e : Effect) a =>
    if (e.state.entry? a).isSome then
      if deep then e
      else { e with status := 1, err := e.err ++ bytes ("mkdir: cannot create directory '" ++ a ++ "': File exists\n") }
    else if deep || e.state.entry? (State.parent a) == some .directory then
      { e with state := e.state.put a .directory }
    else
      { e with
        status := 1
        err := e.err ++ bytes ("mkdir: cannot create directory '" ++ a ++ "': No such file or directory\n") })
    ⟨s, 0, [], []⟩

/-- Whether a mode lets files be run; `none` if it leaves that as it is. -/
def mayRun? (mode : String) : Option Bool :=
  if mode.toList.all Char.isDigit then
    some (mode.toList.any fun c => (c.toNat - '0'.toNat) % 2 == 1)
  else if !mode.toList.contains 'x' then none
  else some (!mode.toList.contains '-')

def chmod (s : State) (args : List String) : Effect :=
  match args with
  | mode :: files =>
    files.foldl (fun (e : Effect) a =>
      match e.state.entry? a, mayRun? mode with
      | some (.file bs _), some x => { e with state := e.state.put a (.file bs x) }
      | some _, _ => e
      | none, _ =>
        { e with
          status := 1
          err := e.err ++ bytes ("chmod: cannot access '" ++ a ++ "': No such file or directory\n") })
      ⟨s, 0, [], []⟩
  | [] => fail s 1 "chmod: missing operand\nTry 'chmod --help' for more information."

/-- Lines, words and octets of the input are counted by one option each. -/
def wc (s : State) (args : List String) (input : Octets) : Effect :=
  let count (bs : Octets) : Nat :=
    if args.contains "-l" then bs.count 10
    else if args.contains "-w" then
      ((Text.decodeLossy bs).toList.splitBy (fun a b => a.isWhitespace == b.isWhitespace)).countP
        (fun g => !(g.headD ' ').isWhitespace)
    else bs.length
  match operands args with
  | [] => done s (toString (count input) ++ "\n")
  | f :: _ =>
    match s.content f with
    | .ok bs => done s (toString (count bs) ++ " " ++ f ++ "\n")
    | .error cause => fail s 1 ("wc: " ++ f ++ ": " ++ cause.text)

/-- Copies one file and lets the copy be run, as a new program is put in its place. -/
def install (s : State) (args : List String) : Effect :=
  let files := match args with
    | "-m" :: _ :: rest => rest
    | _ => operands args
  match files with
  | [source, dest] =>
    match copy "install" s source dest with
    | .ok t =>
      let mode := if args.head? == some "-m" then (args[1]?).getD "755" else "755"
      chmod t [mode, target s source dest]
    | .error complaint => fail s 1 complaint
  | _ => fail s 1 "install: missing file operand\nTry 'install --help' for more information."

/-- The octets up to and with the `n`-th line end. -/
def firstLines : Nat → Octets → Octets
  | 0, _ | _, [] => []
  | n + 1, b :: bs => b :: (if b == 10 then firstLines n bs else firstLines (n + 1) bs)

/-- How many lines or octets an option asks for: the number, and whether it counts octets. -/
def amount : List String → Nat × Bool × List String
  | "-n" :: n :: rest => (n.toNat?.getD 10, false, rest)
  | "-c" :: n :: rest => (n.toNat?.getD 10, true, rest)
  | args =>
    match args with
    | a :: rest =>
      match a.toList with
      | '-' :: 'n' :: ds => ((String.ofList ds).toNat?.getD 10, false, rest)
      | '-' :: 'c' :: ds => ((String.ofList ds).toNat?.getD 10, true, rest)
      | '-' :: ds =>
        match (String.ofList ds).toNat? with
        | some n => (n, false, rest)
        | none => (10, false, args)
      | _ => (10, false, args)
    | [] => (10, false, [])

/-- The start of a file or of the input. -/
def head (s : State) (args : List String) (input : Octets) : Effect :=
  let (n, octets, files) := amount args
  let cut (bs : Octets) : Octets := if octets then bs.take n else firstLines n bs
  match files with
  | [] => ⟨s, 0, cut input, []⟩
  | f :: _ =>
    match s.content f with
    | .ok bs => ⟨s, 0, cut bs, []⟩
    | .error cause => fail s 1 ("head: cannot open '" ++ f ++ "' for reading: " ++ cause.text)

/-- The end of a file or of the input. -/
def tail (s : State) (args : List String) (input : Octets) : Effect :=
  let (n, octets, files) := amount args
  let cut (bs : Octets) : Octets :=
    if octets then bs.drop (bs.length - n)
    else
      let lines := bs.count 10 + (if bs.getLast? == some 10 || bs.isEmpty then 0 else 1)
      bs.drop (firstLines (lines - n) bs).length
  match files with
  | [] => ⟨s, 0, cut input, []⟩
  | f :: _ =>
    match s.content f with
    | .ok bs => ⟨s, 0, cut bs, []⟩
    | .error cause => fail s 1 ("tail: cannot open '" ++ f ++ "' for reading: " ++ cause.text)

/-- The numbers from the first to the last, a line each. -/
def seq (s : State) (args : List String) : Effect :=
  match args.mapM String.toNat? with
  | some [last] => done s (String.join ((List.range' 1 last).map fun n => toString n ++ "\n"))
  | some [first, last] =>
    done s (String.join ((List.range' first (last + 1 - first)).map fun n => toString n ++ "\n"))
  | _ => fail s 1 "seq: missing operand\nTry 'seq --help' for more information."

/-- The value of a test, or `none` if it is no test. -/
def test? (s : State) : Nat → List String → Option Bool
  | 0, _ => none
  | n + 1, args =>
    match args with
    | [] => some false
    | [a] => some (a != "")
    | ["!", a] => some (a == "")
    | ["-n", a] => some (a != "")
    | ["-z", a] => some (a == "")
    | ["-e", a] => some (s.entry? a).isSome
    | ["-f", a] | ["-r", a] | ["-w", a] =>
      some (match s.entry? a with
        | some (.file _ _) => true
        | _ => false)
    | ["-d", a] => some (s.entry? a == some .directory)
    | ["-s", a] =>
      some (match s.entry? a with
        | some (.file bs _) => !bs.isEmpty
        | some .directory => true
        | none => false)
    | ["-x", a] =>
      some (match s.entry? a with
        | some (.file _ x) => x
        | some .directory => true
        | none => false)
    | [a, "=", b] => some (a == b)
    | [a, "!=", b] => some (a != b)
    | [a, op, b] =>
      match a.toInt?, b.toInt? with
      | some x, some y =>
        match op with
        | "-eq" => some (x == y)
        | "-ne" => some (x != y)
        | "-lt" => some (x < y)
        | "-le" => some (x ≤ y)
        | "-gt" => some (x > y)
        | "-ge" => some (x ≥ y)
        | _ => none
      | _, _ => if a == "!" then (test? s n [op, b]).map (!·) else none
    | "!" :: args => (test? s n args).map (!·)
    | _ => none

def test (s : State) (args : List String) : Effect :=
  match test? s (args.length + 1) args with
  | some true => ⟨s, 0, [], []⟩
  | some false => ⟨s, 1, [], []⟩
  | none => fail s 2 (s.name ++ ": 1: test: " ++ (args[1]?).getD "" ++ ": unexpected operator")

/-- The command of a name. -/
def run (s : State) (name : String) (args : List String) (input : Octets) : Option Effect :=
  match name with
  | "true" | ":" | "sleep" | "sync" => some ⟨s, 0, [], []⟩
  | "false" => some ⟨s, 1, [], []⟩
  | "echo" => some (echo s args)
  | "printf" => some (printf s args)
  | "cat" => some (cat s args input)
  | "cp" => some (copyOrMove "cp" false s args)
  | "mv" => some (copyOrMove "mv" true s args)
  | "rm" => some (rm s args)
  | "touch" => some (touch s args)
  | "mkdir" => some (mkdir s args)
  | "chmod" => some (chmod s args)
  | "basename" => some (basename s args)
  | "dirname" => some (dirname s args)
  | "wc" => some (wc s args input)
  | "install" => some (install s args)
  | "head" => some (head s args input)
  | "tail" => some (tail s args input)
  | "seq" => some (seq s args)
  | "test" => some (test s args)
  | "[" =>
    some (if args.getLast? == some "]" then test s args.dropLast
      else fail s 2 (s.name ++ ": 1: [: missing ]"))
  | _ => none

end Utility

end Dataflow.Shell
