import Xv6.Container.CString

/-!
# Shell — Parse

The parser of `sh.c`.  The input is a string (`Str`), the cursor `*ps` is an index into it, and `es`
is its length; a pointer into the input is an index as well.  The parser builds a tree of nodes
(`Cmd`) whose strings are pairs of pointers, to the first character of a word and to the one after
its last.  `nulterminate` then writes a NUL over the character after each word, and the strings of
the tree are read from the buffer that is left.

The functions that call themselves and each other have a bound on their calls; it is no part of the
code, and reaching it is the outcome `Halt.deep`.
-/

namespace Xv6.Shell

/-- The character `'<'`. -/
def lt : Chr := ⟨60, by decide⟩
/-- The character `'>'`. -/
def gt : Chr := ⟨62, by decide⟩
/-- The character `'|'`. -/
def bar : Chr := ⟨124, by decide⟩
/-- The character `'&'`. -/
def amp : Chr := ⟨38, by decide⟩
/-- The character `';'`. -/
def semi : Chr := ⟨59, by decide⟩
/-- The character `'('`. -/
def lpar : Chr := ⟨40, by decide⟩
/-- The character `')'`. -/
def rpar : Chr := ⟨41, by decide⟩

/-- `" \t\r\n\v"`. -/
def whitespace : Str :=
  [⟨32, by decide⟩, ⟨9, by decide⟩, ⟨13, by decide⟩, ⟨10, by decide⟩, ⟨11, by decide⟩]

/-- `"<|>&;()"`. -/
def symbols : Str := [lt, bar, gt, amp, semi, lpar, rpar]

def isSpace (c : Chr) : Bool := strchr whitespace c

/-- A character of a word. -/
def isWord (c : Chr) : Bool := !strchr whitespace c && !strchr symbols c

def MAXARGS : Nat := 10
def O_RDONLY : Nat := 0x000
def O_WRONLY : Nat := 0x001
def O_CREATE : Nat := 0x200

/-- Why the parser does not return: a panic, or more calls than the bound. -/
inductive Halt where
  | panic (msg : String)
  | deep
  deriving DecidableEq

/-- The nodes that the parser builds. -/
inductive Cmd where
  | exec (args : List (Nat × Nat))
  | redir (cmd : Cmd) (file efile mode fd : Nat)
  | pipe (left right : Cmd)
  | list (left right : Cmd)
  | back (cmd : Cmd)

/-- `cmd->argv[argc] = q; cmd->eargv[argc] = eq` for the `execcmd` under the redirections. -/
def Cmd.addArg (q eq : Nat) : Cmd → Cmd
  | .exec args => .exec (args ++ [(q, eq)])
  | .redir cmd file efile mode fd => .redir (cmd.addArg q eq) file efile mode fd
  | c => c

variable (inp : Str)

/-- `while (s < es && P(*s)) s++`. -/
def skip (P : Chr → Bool) (s : Nat) : Nat := s + ((inp.drop s).takeWhile P).length

/-- What `gettoken` returns, and leaves in `*q`, `*eq` and `*ps`. -/
structure Got where
  ret : UInt8
  q : Nat
  eq : Nat
  ps : Nat

def gettoken (s : Nat) : Got :=
  let q := skip inp isSpace s
  match inp[q]? with
  | none => ⟨0, q, q, skip inp isSpace q⟩
  | some c =>
    if strchr [bar, lpar, rpar, semi, amp, lt] c then ⟨c.1, q, q + 1, skip inp isSpace (q + 1)⟩
    else if c = gt then
      if inp[q + 1]? = some gt then ⟨43, q, q + 2, skip inp isSpace (q + 2)⟩
      else ⟨c.1, q, q + 1, skip inp isSpace (q + 1)⟩
    else
      let eq := skip inp isWord q
      ⟨97, q, eq, skip inp isSpace eq⟩

def peek (s : Nat) (toks : Str) : Bool × Nat :=
  let s := skip inp isSpace s
  (match inp[s]? with
    | none => false
    | some c => strchr toks c, s)

/-- `redircmd` for the token `tok`. -/
def redircmd (cmd : Cmd) (tok : UInt8) (q eq : Nat) : Cmd :=
  if tok = lt.1 then .redir cmd q eq O_RDONLY 0
  else if tok = gt.1 then .redir cmd q eq (O_WRONLY ||| O_CREATE) 1
  else if tok = 43 then .redir cmd q eq (O_WRONLY ||| O_CREATE) 1
  else cmd

def parseredirs : Nat → Cmd → Nat → Except Halt (Cmd × Nat)
  | 0, _, _ => .error .deep
  | n + 1, cmd, s =>
    let p := peek inp s [lt, gt]
    if p.1 then
      let tok := gettoken inp p.2
      let file := gettoken inp tok.ps
      if file.ret ≠ 97 then .error (.panic "missing file for redirection")
      else parseredirs n (redircmd cmd tok.ret file.q file.eq) file.ps
    else .ok (cmd, p.2)

/-- The loop of `parseexec` over the arguments. -/
def parseargs : Nat → Cmd → Nat → Nat → Except Halt (Cmd × Nat)
  | 0, _, _, _ => .error .deep
  | n + 1, ret, argc, s =>
    let p := peek inp s [bar, rpar, amp, semi]
    if p.1 then .ok (ret, p.2)
    else
      let tok := gettoken inp p.2
      if tok.ret = 0 then .ok (ret, tok.ps)
      else if tok.ret ≠ 97 then .error (.panic "syntax")
      else if argc + 1 ≥ MAXARGS then .error (.panic "too many args")
      else do
        let (ret, s) ← parseredirs inp (inp.length + 1) (ret.addArg tok.q tok.eq) tok.ps
        parseargs n ret (argc + 1) s

/-- `while (peek(ps, es, "&")) { gettoken(ps, es, 0, 0); cmd = backcmd(cmd); }` -/
def parseback : Nat → Cmd → Nat → Except Halt (Cmd × Nat)
  | 0, _, _ => .error .deep
  | n + 1, cmd, s =>
    let p := peek inp s [amp]
    if p.1 then parseback n (.back cmd) (gettoken inp p.2).ps else .ok (cmd, p.2)

mutual

def parseline : Nat → Nat → Except Halt (Cmd × Nat)
  | 0, _ => .error .deep
  | n + 1, s => do
    let (cmd, s) ← parsepipe n s
    let (cmd, s) ← parseback inp (inp.length + 1) cmd s
    let p := peek inp s [semi]
    if p.1 then
      let (right, s) ← parseline n (gettoken inp p.2).ps
      return (.list cmd right, s)
    else return (cmd, p.2)

def parsepipe : Nat → Nat → Except Halt (Cmd × Nat)
  | 0, _ => .error .deep
  | n + 1, s => do
    let (cmd, s) ← parseexec n s
    let p := peek inp s [bar]
    if p.1 then
      let (right, s) ← parsepipe n (gettoken inp p.2).ps
      return (.pipe cmd right, s)
    else return (cmd, p.2)

def parseexec : Nat → Nat → Except Halt (Cmd × Nat)
  | 0, _ => .error .deep
  | n + 1, s =>
    let p := peek inp s [lpar]
    if p.1 then parseblock n p.2
    else do
      let (ret, s) ← parseredirs inp (inp.length + 1) (.exec []) p.2
      parseargs inp (inp.length + 1) ret 0 s

def parseblock : Nat → Nat → Except Halt (Cmd × Nat)
  | 0, _ => .error .deep
  | n + 1, s =>
    let p := peek inp s [lpar]
    if p.1 then do
      let (cmd, s) ← parseline n (gettoken inp p.2).ps
      let p := peek inp s [rpar]
      if p.1 then parseredirs inp (inp.length + 1) cmd (gettoken inp p.2).ps
      else .error (.panic "syntax - missing )")
    else .error (.panic "parseblock")

end

/-! ### `nulterminate` -/

/-- The buffer after the words that end at `es` have been terminated. -/
def terminate (es : List Nat) (buf : Bytes) : Bytes := es.foldl (fun b e => b.set e none) buf

def nulterminate : Cmd → Bytes → Bytes
  | .exec args, buf => terminate (args.map (·.2)) buf
  | .redir cmd _ efile _ _, buf => (nulterminate cmd buf).set efile none
  | .pipe left right, buf => nulterminate right (nulterminate left buf)
  | .list left right, buf => nulterminate right (nulterminate left buf)
  | .back cmd, buf => nulterminate cmd buf

/-- `parsecmd(s)`: the tree, and the buffer that its strings point into. -/
def parsecmd : Except Halt (Cmd × Bytes) := do
  let (cmd, s) ← parseline inp (4 * inp.length + 4) 0
  let p := peek inp s []
  if p.2 ≠ inp.length then .error (.panic "syntax")
  else return (cmd, nulterminate cmd inp.bytes)

/-- A tree with its strings. -/
inductive Tree where
  | exec (argv : List Str)
  | redir (cmd : Tree) (file : Str) (mode fd : Nat)
  | pipe (left right : Tree)
  | list (left right : Tree)
  | back (cmd : Tree)

/-- The strings at the pointers `ps`. -/
def readArgs (buf : Bytes) : List Nat → Res (List Str)
  | [] => .ok []
  | q :: qs => do
    let s ← readStr (buf.drop q)
    let ss ← readArgs buf qs
    return s :: ss

/-- The tree as it is read from the buffer. -/
def Cmd.read (buf : Bytes) : Cmd → Res Tree
  | .exec args => do
    let argv ← readArgs buf (args.map (·.1))
    return .exec argv
  | .redir cmd file _ mode fd => do
    let t ← cmd.read buf
    let s ← readStr (buf.drop file)
    return .redir t s mode fd
  | .pipe left right => do
    let l ← left.read buf
    let r ← right.read buf
    return .pipe l r
  | .list left right => do
    let l ← left.read buf
    let r ← right.read buf
    return .list l r
  | .back cmd => do
    let t ← cmd.read buf
    return .back t

end Xv6.Shell
