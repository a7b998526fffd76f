import OsCa.Support.Bytes

/-!
# The parser of the shell

This module embeds the parser of `user/sh.c`.  A pointer into the line is the list
of the characters from there to `es`, so `*s` is its head, or the NUL at `es`, and
`s < es` says that it is not empty.  The calls of `malloc` are assumed to succeed.

The functions of the parser have an argument that bounds the depth of the calls and
the rounds of the loops.
-/

namespace OsCa.Shell

open Bytes

def MAXARGS : ℕ := 10

def O_RDONLY : BitVec 32 := 0x000

def O_WRONLY : BitVec 32 := 0x001

def O_CREATE : BitVec 32 := 0x200

def O_TRUNC : BitVec 32 := 0x400

abbrev Str := List Byte

def ch (c : Char) : Byte := BitVec.ofNat 8 c.toNat

/-- A command whose strings are in `α`. -/
inductive Cmd (α : Type) where
  | exec (argv : List α)
  | redir (cmd : Cmd α) (file : α) (mode : BitVec 32) (fd : ℕ)
  | pipe (left right : Cmd α)
  | list (left right : Cmd α)
  | back (cmd : Cmd α)
  deriving DecidableEq

/-- The string from `q` to `eq`. -/
structure Span where
  q : Str
  eq : Str

/-- Why there is no command. -/
inductive Stop where
  | panic (msg : String)
  | fuel
  deriving DecidableEq

/-! ## Tokens -/

def whitespace : List Byte := [ch ' ', ch '\t', ch '\r', ch '\n', 0x0b]

def symbols : List Byte := [ch '<', ch '|', ch '>', ch '&', ch ';', ch '(', ch ')']

def isWhitespace (c : Byte) : Bool := decide (c ∈ whitespace)

/-- The characters that `gettoken` puts into a word. -/
def isWord (c : Byte) : Bool := decide (c ∉ whitespace ∧ c ∉ symbols)

/-- `while(s < es && strchr(whitespace, *s)) s++`. -/
def skip (s : Str) : Str := s.dropWhile isWhitespace

/-- What `gettoken` returns, in `ret`, `*q`, `*eq` and `*ps`. -/
structure Scan where
  ret : Byte
  q : Str
  eq : Str
  rest : Str

/-- The token between `s` and `eq`, and what comes after it. -/
def Scan.of (ret : Byte) (s eq : Str) : Scan := ⟨ret, s, eq, skip eq⟩

def gettoken (s : Str) : Scan :=
  match skip s with
  | [] => .of 0 [] []
  | c :: t =>
    if c ∈ [ch '|', ch '(', ch ')', ch ';', ch '&', ch '<'] then .of c (c :: t) t
    else if c = ch '>' then
      if t.head? = some (ch '>') then .of (ch '+') (c :: t) t.tail
      else .of c (c :: t) t
    else .of (ch 'a') (c :: t) ((c :: t).dropWhile isWord)

/-- `*ps` after `peek`, and what it returns. -/
def peek (s : Str) (toks : List Byte) : Str × Bool :=
  (skip s, (skip s).head?.any fun c => decide (c ∈ toks))

/-! ## The grammar -/

/-- The loop of `parseredirs`. -/
def parseredirs : ℕ → Cmd Span → Str → Except Stop (Cmd Span × Str)
  | 0, _, _ => .error .fuel
  | fuel + 1, cmd, s =>
    let (s, more) := peek s [ch '<', ch '>']
    if more then
      let tok := gettoken s
      let file := gettoken tok.rest
      if file.ret ≠ ch 'a' then .error (.panic "missing file for redirection")
      else
        let name : Span := ⟨file.q, file.eq⟩
        let cmd :=
          if tok.ret = ch '<' then .redir cmd name O_RDONLY 0
          else if tok.ret = ch '>' then
            .redir cmd name (O_WRONLY ||| O_CREATE ||| O_TRUNC) 1
          else if tok.ret = ch '+' then .redir cmd name (O_WRONLY ||| O_CREATE) 1
          else cmd
        parseredirs fuel cmd file.rest
    else .ok (cmd, s)

/-- The loop `while(peek(ps, es, "&"))`. -/
def parseback : ℕ → Cmd Span → Str → Except Stop (Cmd Span × Str)
  | 0, _, _ => .error .fuel
  | fuel + 1, cmd, s =>
    let (s, more) := peek s [ch '&']
    if more then parseback fuel (.back cmd) (gettoken s).rest else .ok (cmd, s)

/-- `cmd->argv[argc] = q` for the command inside of the redirections. -/
def Cmd.pushArg {α : Type} : Cmd α → α → Cmd α
  | .exec argv, a => .exec (argv ++ [a])
  | .redir cmd file mode fd, a => .redir (cmd.pushArg a) file mode fd
  | .pipe left right, _ => .pipe left right
  | .list left right, _ => .list left right
  | .back cmd, _ => .back cmd

/-- The loop of `parseexec`. -/
def parseargs : ℕ → ℕ → Cmd Span → Str → Except Stop (Cmd Span × Str)
  | 0, _, _, _ => .error .fuel
  | fuel + 1, argc, ret, s =>
    let (s, stop) := peek s [ch '|', ch ')', ch '&', ch ';']
    if stop then .ok (ret, s)
    else
      let tok := gettoken s
      if tok.ret = 0 then .ok (ret, tok.rest)
      else if tok.ret ≠ ch 'a' then .error (.panic "syntax")
      else if MAXARGS ≤ argc + 1 then .error (.panic "too many args")
      else do
        let r ← parseredirs fuel (ret.pushArg ⟨tok.q, tok.eq⟩) tok.rest
        parseargs fuel (argc + 1) r.1 r.2

mutual

def parseline : ℕ → Str → Except Stop (Cmd Span × Str)
  | 0, _ => .error .fuel
  | fuel + 1, s => do
      let r ← parsepipe fuel s
      let r ← parseback fuel r.1 r.2
      let (s, more) := peek r.2 [ch ';']
      if more then
        let right ← parseline fuel (gettoken s).rest
        return (.list r.1 right.1, right.2)
      else return (r.1, s)

def parsepipe : ℕ → Str → Except Stop (Cmd Span × Str)
  | 0, _ => .error .fuel
  | fuel + 1, s => do
      let r ← parseexec fuel s
      let (s, more) := peek r.2 [ch '|']
      if more then
        let right ← parsepipe fuel (gettoken s).rest
        return (.pipe r.1 right.1, right.2)
      else return (r.1, s)

def parseexec : ℕ → Str → Except Stop (Cmd Span × Str)
  | 0, _ => .error .fuel
  | fuel + 1, s =>
    let (s, block) := peek s [ch '(']
    if block then parseblock fuel s
    else do
      let r ← parseredirs fuel (.exec []) s
      parseargs fuel 0 r.1 r.2

def parseblock : ℕ → Str → Except Stop (Cmd Span × Str)
  | 0, _ => .error .fuel
  | fuel + 1, s =>
    let (s, opened) := peek s [ch '(']
    if opened = false then .error (.panic "parseblock")
    else do
      let r ← parseline fuel (gettoken s).rest
      let (s, closed) := peek r.2 [ch ')']
      if closed = false then .error (.panic "syntax - missing )")
      else parseredirs fuel r.1 (gettoken s).rest

end

/-! ## The whole line -/

/-- A NUL at the end of every string, in a line of `n` characters. -/
def Cmd.nulterminate (n : ℕ) : Cmd Span → Str → Str
  | .exec argv, buf => argv.foldl (fun buf a => buf.set (n - a.eq.length) 0) buf
  | .redir cmd file _ _, buf => (cmd.nulterminate n buf).set (n - file.eq.length) 0
  | .pipe left right, buf => right.nulterminate n (left.nulterminate n buf)
  | .list left right, buf => right.nulterminate n (left.nulterminate n buf)
  | .back cmd, buf => cmd.nulterminate n buf

/-- The command, and the memory of the line. -/
def parsecmd (line : Str) : Except Stop (Cmd Span × Str) := do
  let r ← parseline (4 * line.length + 4) line
  if (peek r.2 []).1 ≠ [] then .error (.panic "syntax")
  else return (r.1, r.1.nulterminate line.length (line ++ [0]))

/-- The C string at a pointer into a line of `n` characters. -/
def cstring (n : ℕ) (buf : Str) (q : Str) : Str :=
  (buf.drop (n - q.length)).takeWhile fun c => decide (c ≠ 0)

def Cmd.map {α β : Type} (f : α → β) : Cmd α → Cmd β
  | .exec argv => .exec (argv.map f)
  | .redir cmd file mode fd => .redir (cmd.map f) (f file) mode fd
  | .pipe left right => .pipe (left.map f) (right.map f)
  | .list left right => .list (left.map f) (right.map f)
  | .back cmd => .back (cmd.map f)

end OsCa.Shell
