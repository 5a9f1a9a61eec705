import Xv6.Fs.File

/-!
# The shell's parser: `sh.c`

* `gettoken`, `peek`   the scanner, on a line with its terminating NUL;
* `parseline`, `parsepipe`, `parseredirs`, `parseblock`, `parseexec`   the parser, which reads its
  line only through a scanner;
* `nulterminate`, `parsecmd`.

Pointers into the line are indices, and a read or a write after the terminator is a `fault`.
The nodes of a command are taken from a heap that has room for them.
-/

namespace Xv6.Sh
open FileSys (O_RDONLY O_WRONLY O_CREATE O_TRUNC)

def MAXARGS : ℕ := 10

abbrev ch (c : Char) : Byte := .ofNat 8 c.toNat

/-- the ways not to return -/
inductive Halt
  | panic (msg : String)
  /-- `parsecmd` has printed the text as `leftovers` and panics with `syntax` -/
  | leftovers (s : List Byte)
  /-- an access outside of the line -/
  | fault
  /-- the model's bound on rounds and calls is used up -/
  | fuel
deriving DecidableEq

/-- a command; `ω` is what stands for a word -/
inductive Cmd (ω : Type)
  | exec (argv : List ω)
  | redir (cmd : Cmd ω) (file : ω) (mode : BitVec 32) (fd : ℕ)
  | pipe (left right : Cmd ω)
  | list (left right : Cmd ω)
  | back (cmd : Cmd ω)
deriving DecidableEq

/-- `cmd->argv[argc] = q`, where `ret` has redirections around `cmd` -/
def Cmd.pushArg {ω : Type} (w : ω) : Cmd ω → Cmd ω
  | .exec argv => .exec (argv ++ [w])
  | .redir cmd file mode fd => .redir (cmd.pushArg w) file mode fd
  | c => c

def Cmd.map {ω ω' : Type} (f : ω → ω') : Cmd ω → Cmd ω'
  | .exec argv => .exec (argv.map f)
  | .redir cmd file mode fd => .redir (cmd.map f) (f file) mode fd
  | .pipe l r => .pipe (l.map f) (r.map f)
  | .list l r => .list (l.map f) (r.map f)
  | .back c => .back (c.map f)

/-! ## Scanning -/

def whitespace : List Byte := [ch ' ', ch '\t', ch '\r', ch '\n', 11]
def symbols : List Byte := [ch '<', ch '|', ch '>', ch '&', ch ';', ch '(', ch ')']

/-- `strchr(s, c) != 0`, for the bytes `s` of a string without its NUL -/
def strchr (s : List Byte) (c : Byte) : Bool := s.contains c

def isSpace (c : Byte) : Bool := strchr whitespace c
def isWord (c : Byte) : Bool := !strchr whitespace c && !strchr symbols c

/-- `buf[i]` -/
def rd (buf : List Byte) (i : ℕ) : Except Halt Byte :=
  match buf[i]? with
  | some c => .ok c
  | none => .error .fault

/-- `while(s < es && p(*s)) s++`, with `n = es - s` -/
def scanFor (p : Byte → Bool) (buf : List Byte) (es : ℕ) : ℕ → ℕ → Except Halt ℕ
  | 0, s => .ok s
  | n + 1, s =>
    if s < es then do
      let c ← rd buf s
      if p c then scanFor p buf es n (s + 1) else .ok s
    else .ok s

def scan (p : Byte → Bool) (buf : List Byte) (es s : ℕ) : Except Halt ℕ :=
  scanFor p buf es (es - s) s

/-- the `switch` of `gettoken`: what it returns and where the token ends -/
def token (buf : List Byte) (es s : ℕ) : Except Halt (Byte × ℕ) := do
  let c ← rd buf s
  if c = 0 then .ok (c, s)
  else if c ∈ [ch '|', ch '(', ch ')', ch ';', ch '&', ch '<'] then .ok (c, s + 1)
  else if c = ch '>' then do
    let d ← rd buf (s + 1)
    if d = ch '>' then .ok (ch '+', s + 2) else .ok (c, s + 1)
  else do
    let e ← scan isWord buf es s
    .ok (ch 'a', e)

/-- returns the kind of the token, its bounds `q` and `eq`, and the new `*ps` -/
def gettoken (buf : List Byte) (es ps : ℕ) : Except Halt (Byte × (ℕ × ℕ) × ℕ) := do
  let q ← scan isSpace buf es ps
  let (ret, eq) ← token buf es q
  let s ← scan isSpace buf es eq
  .ok (ret, (q, eq), s)

def peek (buf : List Byte) (es ps : ℕ) (toks : List Byte) : Except Halt (Bool × ℕ) := do
  let s ← scan isSpace buf es ps
  let c ← rd buf s
  .ok (c != 0 && strchr toks c, s)

/-! ## Parsing -/

/-- what the parser sees of its line: `σ` is a place in it, `ω` a word of it -/
structure Scanner (σ ω : Type) where
  peek : σ → List Byte → Except Halt (Bool × σ)
  gettoken : σ → Except Halt (Byte × ω × σ)

/-- the `switch` of `parseredirs` -/
def redircmd {ω : Type} (tok : Byte) (cmd : Cmd ω) (file : ω) : Cmd ω :=
  if tok = ch '<' then .redir cmd file O_RDONLY 0
  else if tok = ch '>' then .redir cmd file (O_WRONLY ||| O_CREATE ||| O_TRUNC) 1
  else if tok = ch '+' then .redir cmd file (O_WRONLY ||| O_CREATE) 1
  else cmd

section
variable {σ ω : Type} (inp : Scanner σ ω)

def parseredirs : ℕ → Cmd ω → σ → Except Halt (Cmd ω × σ)
  | 0, _, _ => .error .fuel
  | n + 1, cmd, ps => do
    let (more, ps) ← inp.peek ps [ch '<', ch '>']
    if more then do
      let (tok, _, ps) ← inp.gettoken ps
      let (t, file, ps) ← inp.gettoken ps
      if t ≠ ch 'a' then .error (.panic "missing file for redirection")
      else parseredirs n (redircmd tok cmd file) ps
    else .ok (cmd, ps)

/-- the loop of `parseexec`, when `argc` words are in -/
def parseargs : ℕ → Cmd ω → ℕ → σ → Except Halt (Cmd ω × σ)
  | 0, _, _, _ => .error .fuel
  | n + 1, ret, argc, ps => do
    let (stop, ps) ← inp.peek ps [ch '|', ch ')', ch '&', ch ';']
    if stop then .ok (ret, ps)
    else do
      let (tok, q, ps) ← inp.gettoken ps
      if tok = 0 then .ok (ret, ps)
      else if tok ≠ ch 'a' then .error (.panic "syntax")
      else if argc + 1 ≥ MAXARGS then .error (.panic "too many args")
      else do
        let (ret, ps) ← parseredirs inp n (ret.pushArg q) ps
        parseargs n ret (argc + 1) ps

/-- the loop of `parseline` -/
def parseback : ℕ → Cmd ω → σ → Except Halt (Cmd ω × σ)
  | 0, _, _ => .error .fuel
  | n + 1, cmd, ps => do
    let (more, ps) ← inp.peek ps [ch '&']
    if more then do
      let (_, _, ps) ← inp.gettoken ps
      parseback n (.back cmd) ps
    else .ok (cmd, ps)

mutual

def parseline : ℕ → σ → Except Halt (Cmd ω × σ)
  | 0, _ => .error .fuel
  | n + 1, ps => do
    let (cmd, ps) ← parsepipe n ps
    let (cmd, ps) ← parseback inp n cmd ps
    let (more, ps) ← inp.peek ps [ch ';']
    if more then do
      let (_, _, ps) ← inp.gettoken ps
      let (right, ps) ← parseline n ps
      .ok (.list cmd right, ps)
    else .ok (cmd, ps)

def parsepipe : ℕ → σ → Except Halt (Cmd ω × σ)
  | 0, _ => .error .fuel
  | n + 1, ps => do
    let (cmd, ps) ← parseexec n ps
    let (more, ps) ← inp.peek ps [ch '|']
    if more then do
      let (_, _, ps) ← inp.gettoken ps
      let (right, ps) ← parsepipe n ps
      .ok (.pipe cmd right, ps)
    else .ok (cmd, ps)

def parseblock : ℕ → σ → Except Halt (Cmd ω × σ)
  | 0, _ => .error .fuel
  | n + 1, ps => do
    let (opens, ps) ← inp.peek ps [ch '(']
    if !opens then .error (.panic "parseblock")
    else do
      let (_, _, ps) ← inp.gettoken ps
      let (cmd, ps) ← parseline n ps
      let (closes, ps) ← inp.peek ps [ch ')']
      if !closes then .error (.panic "syntax - missing )")
      else do
        let (_, _, ps) ← inp.gettoken ps
        parseredirs inp n cmd ps

def parseexec : ℕ → σ → Except Halt (Cmd ω × σ)
  | 0, _ => .error .fuel
  | n + 1, ps => do
    let (block, ps) ← inp.peek ps [ch '(']
    if block then parseblock n ps
    else do
      let (ret, ps) ← parseredirs inp n (.exec []) ps
      parseargs inp n ret 0 ps

end

end

/-! ## A line -/

/-- the scanner of the source, with `*ps` as the place and `q`, `eq` for a word -/
def pointers (buf : List Byte) (es : ℕ) : Scanner ℕ (ℕ × ℕ) where
  peek := peek buf es
  gettoken := gettoken buf es

/-- `*p = 0` -/
def putNul (buf : List Byte) (i : ℕ) : Except Halt (List Byte) :=
  if i < buf.length then .ok (buf.set i 0) else .error .fault

def nulterminate : Cmd (ℕ × ℕ) → List Byte → Except Halt (List Byte)
  | .exec argv, buf => argv.foldlM (fun buf w => putNul buf w.2) buf
  | .redir cmd file _ _, buf => do
    let buf ← nulterminate cmd buf
    putNul buf file.2
  | .pipe left right, buf => do
    let buf ← nulterminate left buf
    nulterminate right buf
  | .list left right, buf => do
    let buf ← nulterminate left buf
    nulterminate right buf
  | .back cmd, buf => nulterminate cmd buf

def strlen : List Byte → Except Halt ℕ
  | [] => .error .fault
  | c :: s => if c = 0 then .ok 0 else do
    let n ← strlen s
    .ok (n + 1)

/-- the string at `q` -/
def cstr (buf : List Byte) (q : ℕ) : List Byte := (buf.drop q).takeWhile (· != 0)

/-- `parsecmd` on the line at the start of `buf`, with at most `fuel` calls and rounds nested -/
def parsecmd (fuel : ℕ) (buf : List Byte) : Except Halt (Cmd (ℕ × ℕ) × List Byte) := do
  let es ← strlen buf
  let (cmd, s) ← parseline (pointers buf es) fuel 0
  let (_, s) ← peek buf es s []
  if s ≠ es then .error (.leftovers (cstr buf s))
  else do
    let buf ← nulterminate cmd buf
    .ok (cmd, buf)

/-- the command with the strings its pointers point at -/
def Cmd.strings (buf : List Byte) (cmd : Cmd (ℕ × ℕ)) : Cmd (List Byte) :=
  cmd.map fun w => cstr buf w.1

end Xv6.Sh
