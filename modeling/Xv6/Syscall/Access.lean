import Xv6.Syscall.Fetch
import Xv6.Container.Lexical
import Xv6.Kernel.Mutex
import Xv6.Fs.Calls

/-!
# Syscall — Access

The system calls that hand a user pointer to a routine of the kernel, with what the routine then
reads and writes through the pointer: the wrappers of `sysfile.c` and `sysproc.c`, and the accesses
to user memory of `file.c`, `pipe.c`, `fs.c`, `console.c`, `exec.c`, `container.c`, `proc.c` and
`vm.c` behind them.

What the kernel knows and decides apart from the user's bytes is given (`Kview`): the file behind a
descriptor with the data that is there to be read, the names in the kernel's tables, the paths of
the process and of its container, and the outcome of what can fail.  A routine that waits goes on
with the data it finds when it is woken, or leaves because the process was killed.
-/

namespace Xv6

open Lib

/-! ### The kernel's side -/

/-- An inode with its data or, for a device, the driver behind it: is there one, is its console the
active one, and what is typed on it before the reader is killed. -/
inductive Uinode where
  | dev (driver active : Bool) (input : List UInt8)
  | file (content : List UInt8)

/-- `struct stat`. -/
structure Stat where
  dev : Nat
  ino : Nat
  type : Nat
  nlink : Nat
  size : Nat

/-- `f->type` with what it leads to.  A pipe holds `data` when its reader goes on, or the reader is
`killed`; its writer gives up when it has put `room` bytes. -/
inductive FileKind where
  | none
  | pipe (killed : Bool) (data : List UInt8) (room : Option Nat)
  | inode (ip : Uinode) (off : Nat) (st : Stat)

/-- `struct file`. -/
structure Ufile where
  readable : Bool
  writable : Bool
  kind : FileKind

/-- What the kernel has besides the memory of the caller. -/
structure Kview where
  /-- The slot of the caller, and the mutexes. -/
  slot : Slot
  mux : Mux
  ofile : Nat → Option Ufile
  /-- `manager.containers[index].name`, as the loop of `getname` reads it. -/
  conName : Int → Str
  /-- The root of the caller's container, and the path of the caller. -/
  root : Str
  path : Str
  /-- The names in `curproc->shms` and in `shm_infos`. -/
  shms : List CStr
  infos : List CStr
  kallocOk : Bool
  mapOk : Bool
  /-- The descriptors that `pipe` gets, and those of the caller's parent. -/
  pipeFds : Option (Nat × Nat)
  parentFds : Option (Nat × Nat)
  /-- Do the directories lead along the given names, and to a directory? -/
  found : List CStr → Bool
  isDir : Bool
  /-- The size of the image `exec` has loaded, and the pages of it that the user can access. -/
  image : Option Nat
  userPage : Nat → Bool

/-! ### Files -/

/-- The loop of `consoleread`: the bytes still wanted when it ends, `none` if the reader is killed. -/
def consoleLoop (lim : Nat) : List UInt8 → Nat → Nat → User (Option Nat)
  | _, 0, _ => return some 0
  | [], _ + 1, _ => return none
  | c :: cs, n + 1, dst => do
    -- `C('D')` ends the input, and so does a newline.
    if c = 4 then return some (n + 1)
    store lim dst c
    if c = 10 then return some n
    consoleLoop lim cs n (dst + 1)

/-- `consoleread(ip, dst, n)`. -/
def consoleread (lim : Nat) (input : List UInt8) (dst n : Nat) : User Int := do
  let some left ← consoleLoop lim input n dst | return -1
  return (n : Int) - left

/-- `consolewrite(ip, buf, n)`. -/
def consolewrite (lim : Nat) (active : Bool) (buf n : Nat) : User Int := do
  if active then
    let _ ← loadAll lim buf n
    return n
  return n

/-- The loop of `readi`; `n` bytes are left. -/
def readiLoop (lim : Nat) (content : List UInt8) : Nat → Nat → Nat → Nat → User Unit
  | 0, _, _, _ => return ()
  | fuel + 1, dst, off, n => do
    if n = 0 then return ()
    let k := min n (BSIZE - off % BSIZE)
    storeAll lim dst ((content.drop off).take k)
    readiLoop lim content fuel (dst + k) (off + k) (n - k)

/-- `readi(ip, dst, off, n)`. -/
def readiUser (lim : Nat) (ip : Uinode) (dst off n : Nat) : User Int :=
  match ip with
  | .dev driver _ input => if driver then consoleread lim input dst n else return -1
  | .file content => do
    if off > content.length ∨ (off + n) % UINT < off then return -1
    let n := if (off + n) % UINT > content.length then content.length - off else n
    readiLoop lim content n dst off n
    return n

/-- The loop of `writei`; `n` bytes are left. -/
def writeiLoop (lim : Nat) : Nat → Nat → Nat → Nat → User Unit
  | 0, _, _, _ => return ()
  | fuel + 1, src, off, n => do
    if n = 0 then return ()
    let k := min n (BSIZE - off % BSIZE)
    let _ ← loadAll lim src k
    writeiLoop lim fuel (src + k) (off + k) (n - k)

/-- `writei(ip, src, off, n)`, where `size` is the size of a file. -/
def writeiUser (lim : Nat) (ip : Uinode) (size src off n : Nat) : User Int :=
  match ip with
  | .dev driver active _ => if driver then consolewrite lim active src n else return -1
  | .file _ => do
    if off > size ∨ (off + n) % UINT < off then return -1
    if (off + n) % UINT > MAXFILE * BSIZE then return -1
    writeiLoop lim n src off n
    return n

/-- `piperead(p, addr, n)`. -/
def pipereadUser (lim : Nat) (killed : Bool) (data : List UInt8) (addr n : Nat) : User Int := do
  if killed then return -1
  storeAll lim addr (data.take n)
  return (data.take n).length

/-- `pipewrite(p, addr, n)`. -/
def pipewriteUser (lim : Nat) (room : Option Nat) (addr n : Nat) : User Int := do
  let k := min n (room.getD n)
  let _ ← loadAll lim addr k
  if k < n then return -1
  return n

/-- `fileread(f, addr, n)`. -/
def filereadUser (lim : Nat) (f : Ufile) (addr n : Nat) : User Int := do
  if f.readable = false then return -1
  match f.kind with
  | .pipe killed data _ => pipereadUser lim killed data addr n
  | .inode ip off _ => readiUser lim ip addr off n
  | .none => outcome (.error (.panic "fileread"))

/-- The loop of `filewrite`: `i` bytes are written, and the file has the given size. -/
def filewriteLoop (lim : Nat) (ip : Uinode) (addr n : Nat) : Nat → Nat → Nat → Nat → User Int
  | 0, i, _, _ => return if i = n then n else -1
  | fuel + 1, i, off, size => do
    if i < n then
      let n1 := min (n - i) Writing.chunkMax
      let r ← writeiUser lim ip size (addr + i) off n1
      if r < 0 then return -1
      if r ≠ n1 then outcome (.error (.panic "short filewrite"))
      else filewriteLoop lim ip addr n fuel (i + n1) (off + n1) (max size (off + n1))
    else return n

/-- The size of a file. -/
def Uinode.size : Uinode → Nat
  | .dev _ _ _ => 0
  | .file content => content.length

/-- `filewrite(f, addr, n)`. -/
def filewriteUser (lim : Nat) (f : Ufile) (addr n : Nat) : User Int := do
  if f.writable = false then return -1
  match f.kind with
  | .pipe _ _ room => pipewriteUser lim room addr n
  | .inode ip off _ => filewriteLoop lim ip addr n n 0 off ip.size
  | .none => outcome (.error (.panic "filewrite"))

/-- `stati(ip, st)`: the fields of a `struct stat` at `a`. -/
def stati (lim a : Nat) (st : Stat) : User Unit := do
  storeAll lim (a + 4) (leBytes 4 st.dev)
  storeAll lim (a + 8) (leBytes 4 st.ino)
  storeAll lim a (leBytes 2 st.type)
  storeAll lim (a + 12) (leBytes 2 st.nlink)
  storeAll lim (a + 16) (leBytes 4 st.size)

/-- `filestat(f, st)`. -/
def filestat (lim : Nat) (f : Ufile) (a : Nat) : User Int :=
  match f.kind with
  | .inode _ _ st => do
    stati lim a st
    return 0
  | _ => return -1

/-! ### Paths -/

/-- The loop of `namex` behind `namei`, after the elements `es`, with `skipelem` written out. -/
def namexLoop (lim : Nat) (found : List CStr → Bool) : Nat → List CStr → Nat → User Bool
  | 0, _, a => do
    let _ ← load lim a
    return false
  | n + 1, es, a => do
    let s ← skipWhile lim (· == 47) (lim - a) a
    let c ← load lim s
    if c = 0 then return true
    let e ← skipWhile lim (fun c => c != 47 && c != 0) (lim - s) s
    let name ← loadAll lim s (min (e - s) DIRSIZ)
    let b ← skipWhile lim (· == 47) (lim - e) e
    if found (es ++ [name]) then namexLoop lim found n (es ++ [name]) b else return false

/-- `namei(path)`: is there an inode? -/
def nameiUser (lim : Nat) (found : List CStr → Bool) (a : Nat) : User Bool := do
  let _ ← load lim a
  namexLoop lim found (lim - a) [] a

/-- `setpath(index, path_addr, update)` for a path in user memory. -/
def setpathUser (lim : Nat) (root procPath : Str) (a : Nat) (update : Int) : User Int := do
  let pathAddr ← scan lim a
  let path ← outcome (fit pathAddr)
  let path ← outcome (fromRoot root path)
  let path := stripSlash path
  if strcmp path dot = 0 then return 0
  let pathAddr ← if update ≥ 1 then scan lim a else pure pathAddr
  let new ← outcome (nextPath procPath path pathAddr update)
  if rootcmp root new ≠ 0 then return -1
  strcpyOut lim a new
  return 0

/-! ### `exec` -/

/-- `copyout(pgdir, va, buf, len)`. -/
def copyoutUser (lim : Nat) (userPage : Nat → Bool) : Nat → Nat → Nat → Nat → User Bool
  | 0, _, _, len => return len = 0
  | fuel + 1, va, buf, len => do
    if len = 0 then return true
    let va0 := va / PGSIZE * PGSIZE
    if userPage va0 = false then return false
    let n := min (PGSIZE - (va - va0)) len
    let _ ← loadAll lim buf n
    copyoutUser lim userPage fuel ((va0 + PGSIZE) % UINT) (buf + n) (len - n)

/-- The loop of `exec` over its arguments. -/
def pushArgsUser (lim : Nat) (userPage : Nat → Bool) : List Nat → Nat → User Bool
  | [], _ => return true
  | a :: as, sp => do
    let n ← strlenIn lim a
    let sp := toUint ((sp : Int) - (n + 1)) / 4 * 4
    let n ← strlenIn lim a
    if ← copyoutUser lim userPage (n + 1) sp a (n + 1) then pushArgsUser lim userPage as sp
    else return false

/-- `exec(pathcmd, argv)`. -/
def execUser (lim : Nat) (k : Kview) (a : Nat) (argv : List Nat) : User Int := do
  let s ← scan lim a
  let path ← outcome (fit s)
  let _ ← strlenIn lim a
  let o ← outcome (setpath k.root k.path path 2)
  if o.ret < 0 then return -1
  let some sz := k.image | return -1
  if ← pushArgsUser lim k.userPage argv sz then return 0 else return -1

/-! ### Mutexes and shared memory -/

/-- The loop of `mutex_get` over the slots `gs`. -/
def mutexFind (lim : Nat) (mux : Mux) (a : Nat) : List Mid → User (Option Mid)
  | [] => return none
  | g :: gs => do
    let n ← strlenIn lim a
    let r ← strncmpIn lim a (mux.mutexes g).name n
    if r = 0 then return some g else mutexFind lim mux a gs

/-- `mutex_get(name)`. -/
def mutexGetUser (lim : Nat) (k : Kview) (a : Nat) : User Int := do
  let some g ← mutexFind lim k.mux a (List.finRange MUX_MAXNUM) | return -1
  return (k.mux.getLoop k.slot g (List.finRange MUX_MAXNUM)).1

/-- `mutex_create(name)`. -/
def mutexCreateUser (lim : Nat) (k : Kview) (a : Nat) : User Int := do
  if k.mux.freeMutex = none then return -1
  let n ← strlenIn lim a
  let name ← strncpyIn lim a n
  let (r, _) ← outcome (k.mux.mutexCreate k.slot name)
  return r

/-- Is the name at `a` the name `q` of a table? -/
def sameName (lim a : Nat) (q : CStr) : User Bool := do
  let n ← strlenIn lim a
  if q.length ≠ n then return false
  let n ← strlenIn lim a
  let r ← strncmpIn lim a q n
  return r = 0

/-- A loop over the names of a table, up to one that is the name at `a`. -/
def anyName (lim a : Nat) : List CStr → User Bool
  | [] => return false
  | q :: qs => do
    if ← sameName lim a q then return true else anyName lim a qs

/-- `shm_allocuvm(pgdir, oldsz, newsz, sh_name)`: does it not return -1? -/
def shmAllocuvm (lim : Nat) (k : Kview) (newsz a : Nat) : User Bool := do
  let n ← strlenIn lim a
  if n = 0 then return false
  if newsz ≥ KERNBASE then return true
  if newsz < lim then return true
  if ← anyName lim a k.infos then return k.mapOk
  if k.kallocOk = false then return false
  if k.mapOk = false then return false
  if [] ∈ k.infos then
    let n ← strlenIn lim a
    let _ ← strncpyIn lim a n
    return true
  return false

/-- `shm_get(name)`, called by a process of size `lim`. -/
def shmGetUser (lim : Nat) (k : Kview) (a : Nat) : User Unit := do
  if a = 0 then return ()
  if ← anyName lim a k.shms then return ()
  if ← shmAllocuvm lim k ((lim + PGSIZE) % UINT) a then
    let n ← strlenIn lim a
    let _ ← strncpyIn lim a n
    return ()
  return ()

/-- `setvc(index, vc, fds)`: `fds[0]` and `fds[1]` are read for the container and again for
`set_proc_pipe`. -/
def setvcUser (lim : Nat) (k : Kview) (vc fds : Nat) : User Int := do
  shmGetUser lim k vc
  let _ ← loadAll lim fds 4
  let _ ← loadAll lim (fds + 4) 4
  let _ ← loadAll lim fds 4
  let _ ← loadAll lim (fds + 4) 4
  return 0

/-- `get_proc_pipe(fds)`. -/
def getProcPipe (lim : Nat) (k : Kview) (fds : Nat) : User Int := do
  let some (pipein, pipeout) := k.parentFds | return 0
  storeAll lim fds (leBytes 4 pipein)
  storeAll lim (fds + 4) (leBytes 4 pipeout)
  let _ ← loadAll lim fds 4
  let _ ← loadAll lim (fds + 4) 4
  return 0

/-! ### The system calls -/

/-- The system calls. -/
inductive Wrapper where
  | read
  | write
  | fstat
  | pipe
  | exec
  | chdir
  | mutexCreate
  | mutexGet
  | setvc
  | getname
  | getpath
  | getProcPipe
  deriving DecidableEq

namespace Caller

variable (c : Caller) (k : Kview)

/-- `argfd(n, 0, pf)`. -/
def argfd (n : Nat) : User (Option Ufile) := do
  let some fd ← c.argint n | return none
  if asInt fd < 0 ∨ asInt fd ≥ NOFILE then return none
  return k.ofile fd

def sysRead : User Int := do
  let some f ← c.argfd k 0 | return -1
  let some n ← c.argint 2 | return -1
  let some p ← c.argptr 1 (asInt n) | return -1
  filereadUser c.sz f p n

def sysWrite : User Int := do
  let some f ← c.argfd k 0 | return -1
  let some n ← c.argint 2 | return -1
  let some p ← c.argptr 1 (asInt n) | return -1
  filewriteUser c.sz f p n

def sysFstat : User Int := do
  let some f ← c.argfd k 0 | return -1
  let some st ← c.argptr 1 20 | return -1
  filestat c.sz f st

def sysPipe : User Int := do
  let some fd ← c.argptr 0 8 | return -1
  let some (fd0, fd1) := k.pipeFds | return -1
  storeAll c.sz fd (leBytes 4 fd0)
  storeAll c.sz (fd + 4) (leBytes 4 fd1)
  return 0

/-- The loop of `sys_exec` over `uargv`, from index `i` on; `n` slots of `argv` are left. -/
def fetchArgv (uargv : Nat) : Nat → Nat → User (Option (List Nat))
  | 0, _ => return none
  | n + 1, i => do
    let some uarg ← c.fetchint ((uargv + 4 * i) % UINT) | return none
    if uarg = 0 then return some []
    let some _ ← c.fetchstr uarg | return none
    let some as ← fetchArgv uargv n (i + 1) | return none
    return some (uarg :: as)

def sysExec : User Int := do
  let some path ← c.argstr 0 | return -1
  let some uargv ← c.argint 1 | return -1
  let some argv ← c.fetchArgv uargv MAXARG 0 | return -1
  execUser c.sz k path argv

def sysChdir : User Int := do
  let some path ← c.argstr 0 | return -1
  let r ← setpathUser c.sz k.root k.path path 1
  if r < 0 then return -1
  if ← nameiUser c.sz k.found path then
    return if k.isDir then 0 else -1
  return -1

/-- The size is `sizeof(*name) < 0`, which is 0. -/
def sysMutexCreate : User Int := do
  let some name ← c.argptr 0 0 | return -1
  mutexCreateUser c.sz k name

/-- The size is `sizeof(*name) < 0`, which is 0. -/
def sysMutexGet : User Int := do
  let some name ← c.argptr 0 0 | return -1
  mutexGetUser c.sz k name

/-- The size of `fds` is `sizeof(*fds) < 0`, which is 0. -/
def sysSetvc : User Int := do
  let some _ ← c.argint 0 | return -1
  let some vc ← c.argstr 1 | return -1
  let some fds ← c.argptr 2 0 | return -1
  setvcUser c.sz k vc fds

def sysGetname : User Int := do
  let some index ← c.argint 0 | return -1
  let some name ← c.argstr 1 | return -1
  strcpyOut c.sz name (k.conName (asInt index))
  return 0

def sysGetpath : User Int := do
  let some _ ← c.argint 0 | return -1
  let some path ← c.argstr 1 | return -1
  strcpyOut c.sz path k.path
  return 0

def sysGetProcPipe : User Int := do
  let some fds ← c.argptr 0 8 | return -1
  getProcPipe c.sz k fds

/-- A system call of the table. -/
def syscall : Wrapper → User Int
  | .read => c.sysRead k
  | .write => c.sysWrite k
  | .fstat => c.sysFstat k
  | .pipe => c.sysPipe k
  | .exec => c.sysExec k
  | .chdir => c.sysChdir k
  | .mutexCreate => c.sysMutexCreate k
  | .mutexGet => c.sysMutexGet k
  | .setvc => c.sysSetvc k
  | .getname => c.sysGetname k
  | .getpath => c.sysGetpath k
  | .getProcPipe => c.sysGetProcPipe k

end Caller

end Xv6
