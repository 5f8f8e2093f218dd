import Xv6.Kernel.Vm

/-!
# Kernel — Shm

The memory of the processes: the address-space fields of `struct proc`, the table `shm_infos` of
shared segments, and the functions of `vm.c`, `proc.c` and `exec.c` that change them.

`shm_get` maps a segment at `PGROUNDUP(sz)` and records the address `sz`; `shm_rem` looks up the
recorded address.  A segment's name occupies at most 149 bytes of its 150-byte buffer; a longer one
overruns it.
-/

namespace Xv6

/-- An entry of `shm_infos`. -/
structure ShmInfo where
  pageAddr : Option Page
  name : CStr
  refCount : Int
  deriving DecidableEq

/-- An entry of `p->shms`. -/
structure ShmProcInfo where
  name : CStr
  shmAddr : Nat
  deriving DecidableEq

/-- The memory fields of `struct proc`. -/
structure PMem where
  sz : Nat
  pgdir : Option Pgdir
  kstack : Option Page
  shms : Fin SHM_MAXNUM → ShmProcInfo

/-- The memory fields of a zeroed slot. -/
def PMem.zero : PMem := ⟨0, none, none, fun _ => ⟨[], 0⟩⟩

/-- The allocator, `shm_infos`, and the memory fields of the process table. -/
structure Vm where
  mem : Kmem
  shm : Fin SHM_MAXNUM → ShmInfo
  proc : Slot → PMem

namespace Vm

/-- The memory before the first process, with the given allocator. -/
def boot (m : Kmem) : Vm := ⟨m, fun _ => ⟨none, [], 0⟩, fun _ => .zero⟩

/-- The memory fields of one process changed. -/
def upd (v : Vm) (p : Slot) (f : PMem → PMem) : Vm :=
  { v with proc := Function.update v.proc p (f (v.proc p)) }

/-- One entry of `shm_infos` changed. -/
def updShm (v : Vm) (i : Fin SHM_MAXNUM) (f : ShmInfo → ShmInfo) : Vm :=
  { v with shm := Function.update v.shm i (f (v.shm i)) }

/-- One entry of `p->shms` changed. -/
def updShms (v : Vm) (p : Slot) (i : Fin SHM_MAXNUM) (f : ShmProcInfo → ShmProcInfo) : Vm :=
  v.upd p fun e => { e with shms := Function.update e.shms i (f (e.shms i)) }

/-- Is `pg` the page of a segment?  The loop over `shm_infos` in `deallocuvm` and `freevm`. -/
def isShm (v : Vm) (pg : Page) : Bool :=
  (List.finRange SHM_MAXNUM).any fun j => (v.shm j).pageAddr = some pg

/-- The page directory of `p`; the kernel never runs a process that has none. -/
def pgdirOf (v : Vm) (p : Slot) : Res Pgdir :=
  match (v.proc p).pgdir with
  | none => .error (.fault "null pgdir")
  | some d => .ok d

/-! ### `growproc` -/

/-- The address space `d` of `growproc`, of size `sz`, made `n` bytes larger. -/
def resize (v : Vm) (d : Pgdir) (sz : Nat) (n : Int) : Res (Nat × Kmem × Pgdir) :=
  if n > 0 then allocuvm v.isShm v.mem d sz (toUint (sz + n))
  else if n < 0 then deallocuvm v.isShm v.mem d sz (toUint (sz + n))
  else .ok (sz, v.mem, d)

/-- `growproc(n)` called by `p`. -/
def growproc (v : Vm) (p : Slot) (n : Int) : Res (Int × Vm) := do
  let d ← v.pgdirOf p
  let (r, m, d) ← v.resize d (v.proc p).sz n
  let v := { v.upd p fun e => { e with pgdir := some d } with mem := m }
  if n ≠ 0 ∧ r = 0 then .ok (-1, v)
  else .ok (0, v.upd p fun e => { e with sz := r })

/-! ### Shared segments -/

/-- `strncpy(dst, src, strlen(src))` on a buffer of 150 bytes: no NUL is written after `src`. -/
def copyName (dst src : CStr) : Res CStr :=
  if src.length < 150 then .ok (src ++ dst.drop src.length)
  else .error (.fault "strncpy: the name overruns its buffer")

/-- The `uint` of a size read back as the `int` that `shm_allocuvm` returns. -/
def toInt (a : Nat) : Int := if a < 2147483648 then a else (a : Int) - UINT

/-- `shm_allocuvm(p->pgdir, oldsz, newsz, name)`. -/
def shmAllocuvm (v : Vm) (p : Slot) (oldsz newsz : Nat) (name : CStr) : Res (Int × Vm) := do
  if name = [] then return (-1, v)
  if newsz ≥ KERNBASE then return (0, v)
  if newsz < oldsz then return (toInt oldsz, v)
  let d ← v.pgdirOf p
  let a := pgroundup oldsz
  match (List.finRange SHM_MAXNUM).find? fun i => (v.shm i).name = name with
  | some i =>
    let v := v.updShm i fun e => { e with refCount := e.refCount + 1 }
    match (v.shm i).pageAddr with
    | none => .error (.fault "shm_allocuvm: null page_addr")
    | some existing =>
      let (r, m, d) ← mappages v.mem d a PGSIZE existing permWU
      let v := { v.upd p fun e => { e with pgdir := some d } with mem := m }
      return (if r then (i.val : Int) else -1, v)
  | none =>
    match kalloc v.mem with
    | none =>
      let (_, m, d) ← deallocuvm v.isShm v.mem d newsz oldsz
      return (-1, { v.upd p fun e => { e with pgdir := some d } with mem := m })
    | some (mem, m) =>
      let (r, m, d) ← mappages m d a PGSIZE mem permWU
      if r then
        let v := { v.upd p fun e => { e with pgdir := some d } with mem := m }
        match (List.finRange SHM_MAXNUM).find? fun i => (v.shm i).name = [] with
        | none => return (-1, v)
        | some i =>
          let name ← copyName (v.shm i).name name
          let v := v.updShm i fun e =>
            { name := name, refCount := e.refCount + 1, pageAddr := some mem }
          return ((i.val : Int), v)
      else
        let (_, m, d) ← deallocuvm v.isShm m d newsz oldsz
        let m ← kfree m mem
        return (-1, { v.upd p fun e => { e with pgdir := some d } with mem := m })

/-- The index `ret` of `curproc->shms[ret]`. -/
def shmIndex (ret : Int) : Res (Fin SHM_MAXNUM) :=
  if h : 0 ≤ ret ∧ ret < SHM_MAXNUM then .ok ⟨ret.toNat, by omega⟩
  else .error (.fault "shms: index out of range")

/-- `shm_get(name)` called by `p`: the address, or 0. -/
def shmGet (v : Vm) (p : Slot) (name : CStr) : Res (Nat × Vm) := do
  match (List.finRange SHM_MAXNUM).find? fun j => ((v.proc p).shms j).name = name with
  | some j => return (((v.proc p).shms j).shmAddr, v)
  | none =>
    let sz := (v.proc p).sz
    let newsize := (sz + PGSIZE) % UINT
    let (ret, v) ← v.shmAllocuvm p sz newsize name
    if ret = -1 then return (0, v)
    let i ← shmIndex ret
    let name ← copyName ((v.proc p).shms i).name name
    let v := v.updShms p i fun _ => { name := name, shmAddr := sz }
    return (sz, v.upd p fun e => { e with sz := newsize })

/-- The end of `shm_rem` for a segment whose count has dropped to 0: the page at the recorded
address of `p` is freed and unmapped, and the entry of `shm_infos` cleared.  The result of
`walkpgdir` is not checked. -/
def shmRelease (v : Vm) (p : Slot) (i : Fin SHM_MAXNUM) : Res Vm := do
  let d ← v.pgdirOf p
  let a := ((v.proc p).shms i).shmAddr / PGSIZE
  let v ← match walkpgdir d a with
    | none => .error (.fault "shm_rem: null pte")
    | some none => .ok v
    | some (some pte) =>
      if pte.page = 0 then .error (.panic "kfree")
      else do
        let m ← kfree v.mem pte.page
        .ok { v.upd p fun e => { e with pgdir := some (setPte d a none) } with mem := m }
  .ok (v.updShm i fun e => { e with pageAddr := none, name := [] })

/-- The reference of `p` to segment `i` is dropped, and a page of its size. -/
def detach (v : Vm) (p : Slot) (i : Fin SHM_MAXNUM) : Vm :=
  let v := v.updShms p i fun e => { e with name := [] }
  let v := v.updShm i fun e => { e with refCount := e.refCount - 1 }
  v.upd p fun e => { e with sz := toUint ((e.sz : Int) - PGSIZE) }

/-- `shm_rem(name)` called by `p`. -/
def shmRem (v : Vm) (p : Slot) (name : CStr) : Res (Int × Vm) := do
  match (List.finRange SHM_MAXNUM).find? fun i => ((v.proc p).shms i).name = name with
  | none => return (-1, v)
  | some i =>
    let v := v.detach p i
    let v ← if (v.shm i).refCount = 0 then v.shmRelease p i else .ok v
    return (0, v.updShms p i fun e => { e with shmAddr := 0 })

/-- The loop of `exit` that removes the segments of `p`, over the entries `js`. -/
def exitShm (p : Slot) : List (Fin SHM_MAXNUM) → Vm → Res Vm
  | [], v => .ok v
  | j :: js, v =>
    if ((v.proc p).shms j).name = [] then exitShm p js v
    else do
      let (_, v) ← v.shmRem p ((v.proc p).shms j).name
      exitShm p js v

/-! ### `fork2` and `wait` -/

/-- `p->kstack = kalloc()`. -/
def allocKstack (v : Vm) (np : Slot) : Bool × Vm :=
  match kalloc v.mem with
  | none => (false, v.upd np fun e => { e with kstack := none })
  | some (pg, m) => (true, { v.upd np fun e => { e with kstack := some pg } with mem := m })

/-- `kfree(p->kstack); p->kstack = 0;` -/
def freeKstack (v : Vm) (np : Slot) : Res Vm :=
  match (v.proc np).kstack with
  | none => .error (.panic "kfree")
  | some pg => do
    let m ← kfree v.mem pg
    .ok { v.upd np fun e => { e with kstack := none } with mem := m }

/-- The segment recorded at page `i` of `p`, as the inner loop of `copyuvm` finds it: the last
match, with its page. -/
def shmAt (v : Vm) (p : Slot) (i : Nat) : Option (Option Page) :=
  (List.finRange SHM_MAXNUM).foldl (fun r j => if i ≠ 0 ∧ ((v.proc p).shms j).shmAddr = i * PGSIZE
      then some (v.shm j).pageAddr else r) none

/-- The loop of `fork2` over the segments of the parent, over the entries `js`, with the address
the next one is recorded at. -/
def forkShm (p np : Slot) : List (Fin SHM_MAXNUM) → Nat → Vm → Vm
  | [], _, v => v
  | j :: js, addr, v =>
    if ((v.proc p).shms j).name = [] then forkShm p np js addr v
    else
      let addr := toUint ((addr : Int) - PGSIZE)
      let v := v.updShm j fun e => { e with refCount := e.refCount + 1 }
      let v := v.updShms np j fun _ => { name := ((v.proc p).shms j).name, shmAddr := addr }
      forkShm p np js addr v

/-- `np->pgdir = copyuvm(curproc->pgdir, curproc->sz)`; `false` when it fails. -/
def copyMem (v : Vm) (p np : Slot) : Res (Bool × Vm) := do
  let d ← v.pgdirOf p
  match ← copyuvm v.isShm v.mem d (v.proc p).sz (v.shmAt p) with
  | (none, m) => .ok (false, { v.upd np fun e => { e with pgdir := none } with mem := m })
  | (some d', m) => .ok (true, { v.upd np fun e => { e with pgdir := some d' } with mem := m })

/-- The rest of `fork2` on the child's memory: its size, and the segments from the last entry
down. -/
def inherit (v : Vm) (p np : Slot) : Vm :=
  let v := v.upd np fun e => { e with sz := (v.proc p).sz }
  forkShm p np (List.finRange SHM_MAXNUM).reverse (v.proc np).sz v

/-- The memory part of reaping `q` in `wait`: `kfree(p->kstack); freevm(p->pgdir);` -/
def reap (v : Vm) (q : Slot) : Res Vm := do
  let v ← v.freeKstack q
  match (v.proc q).pgdir with
  | none => .error (.panic "freevm: no pgdir")
  | some d => do
    let m ← freevm v.isShm v.mem d
    .ok { v with mem := m }

/-- The address space of the first process: `setupkvm` and `inituvm`. -/
def initMem (v : Vm) (p : Slot) : Res Vm := do
  match ← setupkvm v.isShm v.mem with
  | (none, _) => .error (.panic "userinit: out of memory?")
  | (some d, m) =>
    match kalloc m with
    | none => .error (.fault "inituvm: null page")
    | some (mem, m) => do
      let (_, m, d) ← mappages m d 0 PGSIZE mem permWU
      .ok { v.upd p fun e => { e with pgdir := some d, sz := PGSIZE } with mem := m }

end Vm

end Xv6
