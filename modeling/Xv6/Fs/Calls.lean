import Xv6.Container.SetPath
import Xv6.Fs.Budget
import Xv6.Fs.Dir
import Xv6.Lib.Routine

/-!
# Fs — Calls

The system calls of `sysfile.c`, with `file.c`, the path walk of `fs.c`, and the parts of `fork`,
`exec` and `exit` that concern files.  A call is a program over the inodes, their sleep locks, the
file table and the processes.  Its actions are the steps that it makes under one lock: a change of
`ip->ref`, of a sleep lock, of `ftable`, of the caller's own slots, or what it does to an inode whose
sleep lock it holds.

What a call finds outside these tables is an argument of the call: whether memory is available, what
the console or a pipe replies, which parts of a program `exec` reads, and the root of the caller's
container.  `begin_op` and `end_op` are left out.
-/

namespace Xv6

open Lib Function

def NFILE : Nat := 100
def NOFILE : Nat := 16
def ROOTINO : Nat := 1
/-- The major number of the console. -/
def CONSOLE : Int := 1

instance : NeZero NFILE := ⟨Nat.succ_ne_zero 99⟩
instance : NeZero NOFILE := ⟨Nat.succ_ne_zero 15⟩

def O_RDONLY : UInt32 := 0x000
def O_WRONLY : UInt32 := 0x001
def O_RDWR : UInt32 := 0x002
def O_CREATE : UInt32 := 0x200

/-- `f->type`, with `f->ip`. -/
inductive FdType where
  | none
  | pipe
  | inode (ip : Fin NINODE)
  deriving DecidableEq

/-- `struct file`. -/
structure File where
  type : FdType
  ref : Int
  readable : Bool
  writable : Bool
  off : Nat

/-- The states of a process that matter here; a slot whose process has exited is `unused`. -/
inductive SlotState where
  | unused
  | embryo
  | live
  deriving DecidableEq

/-- The fields of `struct proc` that the calls use. -/
structure FProc where
  state : SlotState
  ofile : Fin NOFILE → Option (Fin NFILE)
  cwd : Option (Fin NINODE)
  path : Str

/-- The state that the calls share. -/
structure FsState where
  inodes : Inodes
  lock : Fin NINODE → Option (Fin NPROC)
  files : Fin NFILE → File
  procs : Fin NPROC → FProc

namespace FsState

def setFile (s : FsState) (f : Fin NFILE) (v : File) : FsState :=
  { s with files := update s.files f v }

def setProc (s : FsState) (p : Fin NPROC) (v : FProc) : FsState :=
  { s with procs := update s.procs p v }

def setLock (s : FsState) (e : Fin NINODE) (v : Option (Fin NPROC)) : FsState :=
  { s with lock := update s.lock e v }

/-- `ip->ref`. -/
def ref (s : FsState) (e : Fin NINODE) : Int := (s.inodes.cache e).ref

end FsState

/-- A program of the kernel. -/
abbrev Kern := Routine FsState Stop

namespace Kern

variable {α : Type}

/-- `panic`, or a step without meaning. -/
def stop (e : Stop) : Kern α := .act (fun _ => .error e) Empty.elim

def panic (msg : String) : Kern α := stop (.panic msg)

/-- Something is read. -/
def get (f : FsState → α) : Kern α := .lift fun s => .ok (f s, s)

/-- Something is changed. -/
def set (f : FsState → FsState) : Kern Unit := .lift fun s => .ok ((), f s)

/-- `if (c) k`. -/
def onlyIf (c : Prop) [Decidable c] (k : Kern Unit) : Kern Unit := if c then k else pure ()

/-- A function of the inode layer. -/
def onInodes (f : Inodes → Res (α × Inodes)) : Kern α :=
  .lift fun s => do
    let (a, i) ← f s.inodes
    return (a, { s with inodes := i })

/-! ### Inodes -/

section Inodes

variable (sb : Super) (p : Fin NPROC)

def iget (inum : Nat) : Kern (Fin NINODE) := onInodes fun i => i.iget inum

def idup (e : Fin NINODE) : Kern Unit := onInodes fun i => .ok ((), i.idup e)

def acquiresleep (e : Fin NINODE) : Kern Unit :=
  .lift fun s =>
    if s.lock e = none then .ok ((), s.setLock e (some p))
    else .error (.fault "acquiresleep: the process sleeps")

def releasesleep (e : Fin NINODE) : Kern Unit := set fun s => s.setLock e none

/-- The fields of a cached inode. -/
def look (e : Fin NINODE) : Kern CInode := get fun s => s.inodes.cache e

def ilock (e : Fin NINODE) : Kern Unit := do
  let c ← look e
  if c.ref < 1 then panic "ilock" else do
  acquiresleep p e
  onInodes fun i => do return ((), ← i.load e)

/-- `iunlock`; `holdingsleep` only tells whether the lock is held by someone. -/
def iunlock (e : Fin NINODE) : Kern Unit :=
  .lift fun s =>
    if s.lock e = none ∨ s.ref e < 1 then .error (.panic "iunlock")
    else .ok ((), s.setLock e none)

def iput (e : Fin NINODE) : Kern Unit := do
  acquiresleep p e
  onInodes fun i => do return ((), ← i.iputFree sb e)
  releasesleep e
  onInodes fun i => .ok ((), i.deref e)

def iunlockput (e : Fin NINODE) : Kern Unit := do
  iunlock e
  iput sb p e

def ialloc (type : FileType) : Kern (Fin NINODE) := do
  let inum ← onInodes fun i => i.markInode sb type
  iget inum

/-- `ip->nlink += k; iupdate(ip)`. -/
def addLink (e : Fin NINODE) (k : Int) : Kern Unit := onInodes fun i => .ok ((), i.addLink sb e k)

/-- `readi`, where the console would reply `reply`; `consoleread` gives up the lock meanwhile. -/
def readi (e : Fin NINODE) (off n : Nat) (reply : Int × List UInt8) : Kern (Int × List UInt8) := do
  let c ← look e
  if c.ip.type = .dev then
    if c.ip.major ≠ CONSOLE then return (-1, []) else do
    iunlock e
    ilock p e
    return reply
  else
    onInodes fun i => do
      let (r, out, i) ← i.readi sb Inodes.noDev e off n
      return ((r, out), i)

/-- `writei`; `consolewrite` gives up the lock if the console `active` is the one of the inode. -/
def writei (e : Fin NINODE) (off : Nat) (src : List UInt8) (active : Int) : Kern Int := do
  let c ← look e
  if c.ip.type = .dev then
    if c.ip.major ≠ CONSOLE then return -1
    else if active = c.ip.minor - 1 then do
      iunlock e
      ilock p e
      return src.length
    else return src.length
  else
    onInodes fun i => i.writei sb Inodes.noDev e off src

/-! ### Directories and paths -/

/-- `dirlookup`, with the offset of the entry. -/
def dirlookup (dp : Fin NINODE) (name : Str) : Kern (Option (Fin NINODE × Nat)) := do
  match ← onInodes fun i => i.dirSearch sb dp name with
  | none => return none
  | some (de, off) => do
    let ip ← iget de.inum
    return some (ip, off)

def dirlink (dp : Fin NINODE) (name : Str) (inum : Nat) : Kern Int := do
  match ← dirlookup sb dp name with
  | some (ip, _) => do
    iput sb p ip
    return -1
  | none => do
    onInodes fun i => i.dirAdd sb dp name inum
    return 0

/-- The loop of `namex`; every pass takes an element of the path, so `path.length + 1` passes are
enough. -/
def namexLoop (parent : Bool) : Nat → Fin NINODE → Str → Str → Kern (Option (Fin NINODE × Str))
  | 0, _, _, _ => stop (.fault "namex: the loop does not end")
  | n + 1, ip, path, name =>
    match skipelem path with
    | none =>
      if parent then do
        iput sb p ip
        return none
      else return some (ip, name)
    | some (name, path) => do
      ilock p ip
      let c ← look ip
      if c.ip.type ≠ .dir then do
        iunlockput sb p ip
        return none
      else if parent ∧ path = [] then do
        iunlock ip
        return some (ip, name)
      else do
        match ← dirlookup sb ip name with
        | none => do
          iunlockput sb p ip
          return none
        | some (next, _) => do
          iunlockput sb p ip
          namexLoop parent n next path name

/-- Where `namex` starts. -/
def namexStart (path : Str) : Kern (Fin NINODE) :=
  if path.head? = some slash then iget ROOTINO
  else do
    match ← get fun s => (s.procs p).cwd with
    | some e => do
      idup e
      return e
    | none => stop (.fault "idup: null pointer")

def namex (path : Str) (parent : Bool) : Kern (Option (Fin NINODE × Str)) := do
  let ip ← namexStart p path
  namexLoop sb p parent (path.length + 1) ip path []

def namei (path : Str) : Kern (Option (Fin NINODE)) := do
  let r ← namex sb p path false
  return r.map Prod.fst

def nameiparent (path : Str) : Kern (Option (Fin NINODE × Str)) := namex sb p path true

/-! ### Files -/

def filealloc : Kern (Option (Fin NFILE)) :=
  .lift fun s =>
    match (List.finRange NFILE).find? fun f => (s.files f).ref = 0 with
    | none => .ok (none, s)
    | some f => .ok (some f, s.setFile f { s.files f with ref := 1 })

def filedup (f : Fin NFILE) : Kern Unit :=
  .lift fun s =>
    if (s.files f).ref < 1 then .error (.panic "filedup")
    else .ok ((), s.setFile f { s.files f with ref := (s.files f).ref + 1 })

/-- The part of `fileclose` under `ftable.lock`: the file, if that was its last reference. -/
def closeFile (f : Fin NFILE) : Kern (Option File) :=
  .lift fun s =>
    let ff := s.files f
    if ff.ref < 1 then .error (.panic "fileclose")
    else if ff.ref - 1 > 0 then .ok (none, s.setFile f { ff with ref := ff.ref - 1 })
    else .ok (some ff, s.setFile f { ff with ref := 0, type := .none })

/-- `fileclose`; `pipeclose` changes only the pipe. -/
def fileclose (f : Fin NFILE) : Kern Unit := do
  match ← closeFile f with
  | none => return ()
  | some ff =>
    match ff.type with
    | .inode ip => iput sb p ip
    | _ => return ()

/-- `argfd`. -/
def argfd (fd : Int) : Kern (Option (Fin NOFILE × Fin NFILE)) :=
  get fun s =>
    if h : 0 ≤ fd ∧ fd.toNat < NOFILE then
      ((s.procs p).ofile ⟨fd.toNat, h.2⟩).map fun f => (⟨fd.toNat, h.2⟩, f)
    else none

/-- `ofile[fd] = v` of the process `q`. -/
def setOfile (q : Fin NPROC) (fd : Fin NOFILE) (v : Option (Fin NFILE)) : Kern Unit :=
  set fun s => s.setProc q { s.procs q with ofile := update (s.procs q).ofile fd v }

/-- `cwd = v` of the process `q`. -/
def setCwd (q : Fin NPROC) (v : Option (Fin NINODE)) : Kern Unit :=
  set fun s => s.setProc q { s.procs q with cwd := v }

def fdalloc (f : Fin NFILE) : Kern (Option (Fin NOFILE)) := do
  let r ← get fun s => s.procs p
  match (List.finRange NOFILE).find? fun fd => r.ofile fd = none with
  | none => return none
  | some fd => do
    setOfile p fd (some f)
    return some fd

/-- The fields of a file that the caller has just allocated; `ref` stays. -/
def initFile (f : Fin NFILE) (type : FdType) (readable writable : Bool) (off : Nat) : Kern Unit :=
  set fun s => s.setFile f ⟨type, (s.files f).ref, readable, writable, off⟩

/-- `fileread`; `reply` is what the console or the pipe gives. -/
def fileread (f : Fin NFILE) (n : Nat) (reply : Int × List UInt8) : Kern Int := do
  let ff ← get fun s => s.files f
  if ff.readable = false then return -1
  else
    match ff.type with
    | .none => panic "fileread"
    | .pipe => return reply.1
    | .inode ip => do
      ilock p ip
      let ff ← get fun s => s.files f
      let (r, _) ← readi sb p ip ff.off n reply
      onlyIf (r > 0) (set fun s => s.setFile f { s.files f with off := ff.off + r.toNat })
      iunlock ip
      return r

/-- The loop of `filewrite`, with `i` of the bytes `src` written. -/
def writeLoop (f : Fin NFILE) (ip : Fin NINODE) (src : List UInt8) (active : Int) :
    Nat → Nat → Kern Int
  | 0, _ => return src.length
  | n + 1, i =>
    if i < src.length then do
      let piece := Writing.piece src i
      ilock p ip
      let ff ← get fun s => s.files f
      let r ← writei sb p ip ff.off piece active
      onlyIf (r > 0) (set fun s => s.setFile f { s.files f with off := ff.off + r.toNat })
      iunlock ip
      if r < 0 then return -1
      else if r ≠ piece.length then panic "short filewrite"
      else writeLoop f ip src active n (i + r.toNat)
    else return src.length

/-- `filewrite`; `reply` is what `pipewrite` returns. -/
def filewrite (f : Fin NFILE) (src : List UInt8) (active reply : Int) : Kern Int := do
  let ff ← get fun s => s.files f
  if ff.writable = false then return -1
  else
    match ff.type with
    | .none => panic "filewrite"
    | .pipe => return reply
    | .inode ip => writeLoop sb p f ip src active src.length 0

/-! ### System calls -/

def sysDup (fd : Int) : Kern Int := do
  match ← argfd p fd with
  | none => return -1
  | some (_, f) => do
    match ← fdalloc p f with
    | none => return -1
    | some fd => do
      filedup f
      return fd

def sysRead (fd : Int) (n : Nat) (reply : Int × List UInt8) : Kern Int := do
  match ← argfd p fd with
  | none => return -1
  | some (_, f) => fileread sb p f n reply

def sysWrite (fd : Int) (src : List UInt8) (active reply : Int) : Kern Int := do
  match ← argfd p fd with
  | none => return -1
  | some (_, f) => filewrite sb p f src active reply

def sysClose (fd : Int) : Kern Int := do
  match ← argfd p fd with
  | none => return -1
  | some (fd, f) => do
    setOfile p fd none
    fileclose sb p f
    return 0

/-- `bad:` of `sys_link`. -/
def linkBad (ip : Fin NINODE) : Kern Int := do
  ilock p ip
  addLink sb ip (-1)
  iunlockput sb p ip
  return -1

def sysLink (old new : Str) : Kern Int := do
  match ← namei sb p old with
  | none => return -1
  | some ip => do
    ilock p ip
    let c ← look ip
    if c.ip.type = .dir then do
      iunlockput sb p ip
      return -1
    else do
      addLink sb ip 1
      iunlock ip
      match ← nameiparent sb p new with
      | none => linkBad sb p ip
      | some (dp, name) => do
        ilock p dp
        let r ← dirlink sb p dp name c.inum
        if r < 0 then do
          iunlockput sb p dp
          linkBad sb p ip
        else do
          iunlockput sb p dp
          iput sb p ip
          return 0

/-- `sys_unlink` once the entry of `ip` in `dp` may be removed. -/
def unlinkEntry (dp ip : Fin NINODE) (off : Nat) (type : FileType) : Kern Int := do
  onInodes fun i => i.dirClear sb dp off
  onlyIf (type = .dir) (addLink sb dp (-1))
  iunlockput sb p dp
  addLink sb ip (-1)
  iunlockput sb p ip
  return 0

/-- `!(ip->type == T_DIR && !isdirempty(ip))`. -/
def maybeEmpty (ip : Fin NINODE) (type : FileType) : Kern Bool :=
  if type = .dir then onInodes fun i => i.isdirempty sb ip else pure true

def sysUnlink (path : Str) : Kern Int := do
  match ← nameiparent sb p path with
  | none => return -1
  | some (dp, name) => do
    ilock p dp
    if namecmp name dot = 0 ∨ namecmp name dotdot = 0 then do
      iunlockput sb p dp
      return -1
    else do
      match ← dirlookup sb dp name with
      | none => do
        iunlockput sb p dp
        return -1
      | some (ip, off) => do
        ilock p ip
        let c ← look ip
        if c.ip.nlink < 1 then panic "unlink: nlink < 1"
        else do
          let empty ← maybeEmpty sb ip c.ip.type
          if empty then unlinkEntry sb p dp ip off c.ip.type
          else do
            iunlockput sb p ip
            iunlockput sb p dp
            return -1

/-- The entries `.` and `..` of a new directory. -/
def createDots (dp ip : Fin NINODE) : Kern Unit := do
  addLink sb dp 1
  let c ← look ip
  let r ← dirlink sb p ip dot c.inum
  if r < 0 then panic "create dots" else do
  let d ← look dp
  let r ← dirlink sb p ip dotdot d.inum
  if r < 0 then panic "create dots" else return ()

/-- `create` when there is no entry of that name. -/
def createNew (dp : Fin NINODE) (name : Str) (type : FileType) (major minor : Int) :
    Kern (Option (Fin NINODE)) := do
  let ip ← ialloc sb type
  ilock p ip
  onInodes fun i => .ok ((), i.iupdate sb ip (toShort major) (toShort minor) 1)
  onlyIf (type = .dir) (createDots sb p dp ip)
  let c ← look ip
  let r ← dirlink sb p dp name c.inum
  if r < 0 then panic "create: dirlink" else do
  iunlockput sb p dp
  return some ip

/-- `create`: the inode is returned locked. -/
def create (path : Str) (type : FileType) (major minor : Int) : Kern (Option (Fin NINODE)) := do
  match ← nameiparent sb p path with
  | none => return none
  | some (dp, name) => do
    ilock p dp
    match ← dirlookup sb dp name with
    | some (ip, _) => do
      iunlockput sb p dp
      ilock p ip
      let c ← look ip
      if type = .file ∧ c.ip.type = .file then return some ip
      else do
        iunlockput sb p ip
        return none
    | none => createNew sb p dp name type major minor

/-- The inode that `sys_open` opens, locked. -/
def openInode (path : Str) (omode : UInt32) : Kern (Option (Fin NINODE)) :=
  if omode &&& O_CREATE ≠ 0 then create sb p path .file 0 0
  else do
    match ← namei sb p path with
    | none => return none
    | some ip => do
      ilock p ip
      let c ← look ip
      if c.ip.type = .dir ∧ omode ≠ O_RDONLY then do
        iunlockput sb p ip
        return none
      else return some ip

def sysOpen (path : Str) (omode : UInt32) : Kern Int := do
  match ← openInode sb p path omode with
  | none => return -1
  | some ip => do
    match ← filealloc with
    | none => do
      iunlockput sb p ip
      return -1
    | some f => do
      match ← fdalloc p f with
      | none => do
        fileclose sb p f
        iunlockput sb p ip
        return -1
      | some fd => do
        iunlock ip
        initFile f (.inode ip) (omode &&& O_WRONLY = 0)
          (omode &&& O_WRONLY ≠ 0 ∨ omode &&& O_RDWR ≠ 0) 0
        return fd

/-- `sys_mkdir` and `sys_mknod`. -/
def sysMake (path : Str) (type : FileType) (major minor : Int) : Kern Int := do
  match ← create sb p path type major minor with
  | none => return -1
  | some ip => do
    iunlockput sb p ip
    return 0

def sysMkdir (path : Str) : Kern Int := sysMake sb p path .dir 0 0

def sysMknod (path : Str) (major minor : Int) : Kern Int := sysMake sb p path .dev major minor

/-- `setpath` on the path of the caller, whose container has the root `root`. -/
def callSetpath (root arg : Str) (update : Int) : Kern SetpathOut :=
  .lift fun s => do
    let o ← setpath root (s.procs p).path arg update
    return (o, s.setProc p { s.procs p with path := o.procPath })

def sysChdir (root arg : Str) : Kern Int := do
  let o ← callSetpath p root arg 1
  if o.ret < 0 then return -1
  else do
    match ← namei sb p o.pathAddr with
    | none => return -1
    | some ip => do
      ilock p ip
      let c ← look ip
      if c.ip.type ≠ .dir then do
        iunlockput sb p ip
        return -1
      else do
        iunlock ip
        match ← get fun s => (s.procs p).cwd with
        | none => stop (.fault "iput: null pointer")
        | some old => do
          iput sb p old
          setCwd p (some ip)
          return 0

/-- The reads that `exec` makes of a program, as far as they succeed. -/
def execReads (ip : Fin NINODE) : List (Nat × Nat × Int × List UInt8) → Kern Bool
  | [] => return true
  | (off, n, reply) :: l => do
    let (r, _) ← readi sb p ip off n reply
    if r ≠ n then return false else execReads ip l

/-- `exec`, which makes the reads `reads` and then succeeds iff `ok`. -/
def sysExec (root arg : Str) (reads : List (Nat × Nat × Int × List UInt8)) (ok : Bool) :
    Kern Int := do
  let o ← callSetpath p root arg 2
  if o.ret < 0 then return -1
  else do
    match ← namei sb p o.pathAddr with
    | none => return -1
    | some ip => do
      ilock p ip
      let done ← execReads sb p ip reads
      iunlockput sb p ip
      return if done ∧ ok then 0 else -1

/-- `pipealloc`. -/
def pipealloc (mem : Bool) : Kern (Option (Fin NFILE × Fin NFILE)) := do
  match ← filealloc with
  | none => return none
  | some f₀ => do
    match ← filealloc with
    | none => do
      fileclose sb p f₀
      return none
    | some f₁ =>
      if mem then do
        initFile f₀ .pipe true false 0
        initFile f₁ .pipe false true 0
        return some (f₀, f₁)
      else do
        fileclose sb p f₀
        fileclose sb p f₁
        return none

def sysPipe (mem : Bool) : Kern Int := do
  match ← pipealloc sb p mem with
  | none => return -1
  | some (rf, wf) => do
    match ← fdalloc p rf with
    | none => do
      fileclose sb p rf
      fileclose sb p wf
      return -1
    | some fd₀ => do
      match ← fdalloc p wf with
      | none => do
        setOfile p fd₀ none
        fileclose sb p rf
        fileclose sb p wf
        return -1
      | some _ => return 0

/-- `allocproc`: the first slot that is not used becomes an `EMBRYO`. -/
def allocproc : Kern (Option (Fin NPROC)) :=
  .lift fun s =>
    match (List.finRange NPROC).find? fun c => (s.procs c).state = .unused with
    | none => .ok (none, s)
    | some c => .ok (some c, s.setProc c { s.procs c with state := .embryo })

def setState (c : Fin NPROC) (st : SlotState) : Kern Unit :=
  set fun s => s.setProc c { s.procs c with state := st }

/-- `for (i = 0; i < NOFILE; i++) if (curproc->ofile[i]) np->ofile[i] = filedup(...)`. -/
def copyFiles (c : Fin NPROC) : List (Fin NOFILE) → Kern Unit
  | [] => return ()
  | fd :: fds => do
    match ← get fun s => (s.procs p).ofile fd with
    | none => copyFiles c fds
    | some f => do
      filedup f
      setOfile c fd (some f)
      copyFiles c fds

/-- `fork2`, for which memory is available or not; a pid stands for every other one. -/
def sysFork (mem : Bool) : Kern Int := do
  match ← allocproc with
  | none => return -1
  | some c =>
    if mem = false then do
      setState c .unused
      return -1
    else do
      let r ← get fun s => s.procs p
      set fun s => s.setProc c { s.procs c with path := r.path }
      copyFiles p c (List.finRange NOFILE)
      match r.cwd with
      | none => stop (.fault "idup: null pointer")
      | some e => do
        idup e
        setCwd c (some e)
        setState c .live
        return 1

/-- `for (fd = 0; fd < NOFILE; fd++) if (curproc->ofile[fd]) { fileclose(...); ... = 0; }`. -/
def closeAll : List (Fin NOFILE) → Kern Unit
  | [] => return ()
  | fd :: fds => do
    match ← get fun s => (s.procs p).ofile fd with
    | none => closeAll fds
    | some f => do
      fileclose sb p f
      setOfile p fd none
      closeAll fds

/-- `exit`, up to the state `ZOMBIE`. -/
def sysExit : Kern Int := do
  closeAll sb p (List.finRange NOFILE)
  match ← get fun s => (s.procs p).cwd with
  | none => stop (.fault "iput: null pointer")
  | some e => do
    iput sb p e
    setCwd p none
    setState p .unused
    return 0

end Inodes

end Kern

/-! ### Calls -/

/-- A system call with its arguments. -/
inductive Call where
  | open (path : Str) (omode : UInt32)
  | dup (fd : Int)
  | close (fd : Int)
  | pipe (mem : Bool)
  | read (fd : Int) (n : Nat) (reply : Int × List UInt8)
  | write (fd : Int) (src : List UInt8) (active reply : Int)
  | link (old new : Str)
  | unlink (path : Str)
  | mkdir (path : Str)
  | mknod (path : Str) (major minor : Int)
  | chdir (root arg : Str)
  | fork (mem : Bool)
  | exec (root arg : Str) (reads : List (Nat × Nat × Int × List UInt8)) (ok : Bool)
  | exit
  /-- a call whose arguments cannot be read -/
  | badArg

open Kern in
/-- The program of a call by `p`. -/
def Call.prog (sb : Super) (p : Fin NPROC) : Call → Kern Int
  | .open path omode => sysOpen sb p path omode
  | .dup fd => sysDup p fd
  | .close fd => sysClose sb p fd
  | .pipe mem => sysPipe sb p mem
  | .read fd n reply => sysRead sb p fd n reply
  | .write fd src active reply => sysWrite sb p fd src active reply
  | .link old new => sysLink sb p old new
  | .unlink path => sysUnlink sb p path
  | .mkdir path => sysMkdir sb p path
  | .mknod path major minor => sysMknod sb p path major minor
  | .chdir root arg => sysChdir sb p root arg
  | .fork mem => sysFork p mem
  | .exec root arg reads ok => sysExec sb p root arg reads ok
  | .exit => sysExit sb p
  | .badArg => return -1

/-- A process that is live makes a call. -/
def StartCall (sb : Super) (s : FsState) (p : Fin NPROC) (k : Kern Int) : Prop :=
  (s.procs p).state = .live ∧ ∃ c : Call, k = c.prog sb p

end Xv6
