import Xv6.Lib.Run
import Xv6.Kernel.Mutex
import Xv6.Kernel.Exec

/-!
# Kernel — System

The kernel as one transition system.  `struct proc` is split by subsystem: the scheduling fields
are in `Sched`, the address space in `Vm`, the mutex handles in `Mux`.  An operation (`Op`) is one
atomic section: a system call up to its return or its `sleep`, the rest of a call after a `sleep`
(`resume`), a clock interrupt, or one round of the scheduler.  A system call is made by a RUNNING
process that is in user space; any number of processes may be RUNNING.  The system calls of
`container.c` that set the limits of a container may write any values (`Op.containers`).

`step` gives the value the call returns, or `none` when the process sleeps inside it.
-/

namespace Xv6

/-- The fields of `struct container` that `setnextproc` and `wait` use. -/
structure Container where
  alive : Bool
  maxProc : Int
  nextProc : Nat
  activeProcesses : Int
  deriving DecidableEq

/-- `manager.containers`. -/
abbrev Containers := Fin MAX_NUM_CONTAINERS → Container

/-- The kernel state. -/
structure Kernel where
  sched : Sched
  vm : Vm
  mux : Mux
  con : Containers

/-- `p->state = UNUSED`. -/
def PEntry.free (e : PEntry) : PEntry := { e with state := .unused }

/-- The fields that `wait` clears in the slot it reaps. -/
def PEntry.reaped (e : PEntry) : PEntry :=
  { e with pid := 0, parent := none, killed := false, state := .unused, priority := -1 }

/-! ### The scheduling part of `allocproc`, `fork2` and `exit` -/

namespace Sched

/-- The section of `allocproc` under `ptable.lock`, for the slot it found: a new pid, and the
first process enters bucket 0. -/
def embryo (s : Sched) (i : Slot) : Res Sched :=
  let pid := s.nextpid
  if pid = INT_MAX then .error (.fault "nextpid: overflow")
  else
    let s := { s with nextpid := pid + 1 }.upd i fun e => { e with state := .embryo, pid := pid }
    if pid = 1 then pq1Enqueue (s.upd i fun e => { e with priority := 0 }) i 0 else .ok s

/-- The priority `fork2` gives the child `np` of `p`. -/
def childPriority (s : Sched) (p np : Slot) : Int :=
  if (s.proc np).pid = 1 then 0 else if (s.proc np).pid = 2 then 5 else (s.proc p).priority

/-- What `fork2` does to the scheduling fields of the child `np` of `p`. -/
def child (s : Sched) (p np : Slot) (cid : Int) : Res Sched := do
  let priority := s.childPriority p np
  let s := s.upd np fun e => { e with cid := cid, parent := some p, priority := priority }
  let s ← pq1Enqueue s np priority
  return s.upd np fun e => { e with state := .runnable }

/-- `wakeup1(curproc->parent)`; nobody sleeps on a null channel. -/
def wakeParent (s : Sched) (p : Slot) : Sched :=
  match (s.proc p).parent with
  | none => s
  | some q => s.wakeup1 (.proc q)

/-- The children of `p` become children of `initproc`. -/
def reparent (s : Sched) (p : Slot) : Sched :=
  { s with proc := fun i =>
      if (s.proc i).parent = some p then { s.proc i with parent := s.initproc } else s.proc i }

/-- The loop of `exit` over its children: `initproc` adopts them, and is woken if one of them is a
zombie. -/
def abandon (s : Sched) (p : Slot) : Sched :=
  if ∃ i, (s.proc i).parent = some p ∧ (s.proc i).state = .zombie then
    match s.initproc with
    | none => s.reparent p
    | some q => (s.reparent p).wakeup1 (.proc q)
  else s.reparent p

end Sched

namespace Kernel

/-- The state at `userinit`, with the free list that `kinit2` leaves. -/
def boot (m : Kmem) : Kernel where
  sched := .pinit
  vm := .boot m
  mux := .boot
  con _ := ⟨false, 0, 0, 0⟩

/-- `p->pid`. -/
def pid (k : Kernel) (p : Slot) : Int := (k.sched.proc p).pid

/-- `p` returns to user space. -/
def toUser (k : Kernel) (p : Slot) : Kernel :=
  { k with sched := k.sched.upd p fun e => { e with context := .user } }

/-- The index of `manager.containers[cid]`. -/
def conIndex (cid : Int) : Res (Fin MAX_NUM_CONTAINERS) :=
  if h : 0 ≤ cid ∧ cid < MAX_NUM_CONTAINERS then .ok ⟨cid.toNat, by omega⟩
  else .error (.fault "manager.containers: index out of range")

/-- `setnextproc(index, val)`: its result, and the containers. -/
def setnextproc (con : Containers) (index : Int) (val : Nat) : Res (Int × Containers) := do
  if index > -1 then
    let c ← conIndex index
    if (con c).alive ∧ (con c).activeProcesses > (con c).maxProc + 1 then return (-1, con)
    let e := { con c with nextProc := val, activeProcesses := (con c).activeProcesses + 1 }
    return (1, Function.update con c e)
  else return (0, con)

/-! ### Creation -/

/-- `allocproc(cid)`, with the calling process if there is one. -/
def allocproc (k : Kernel) (cur : Option Slot) (cid : Int) : Res (Option Slot × Kernel) := do
  match (List.finRange NPROC).find? fun i => (k.sched.proc i).state = .unused with
  | none => return (none, k)
  | some i =>
    let (r, con) ← setnextproc k.con cid i
    if r < 0 then return (none, k)
    let s ← k.sched.embryo i
    match k.vm.allocKstack i with
    | (false, vm) =>
      return (none, { k with sched := s.upd i PEntry.free, vm := vm, con := con })
    | (true, vm) =>
      -- the new context starts at `forkret`, which returns to user space
      let mux ← k.mux.initLocks cur i (s.proc i).pid
      return (some i, ⟨s.upd i fun e => { e with context := .user }, vm, mux, con⟩)

/-- The rest of `userinit`, for the process `p` that `allocproc(-1)` returned. -/
def userinit (k : Kernel) (p : Slot) : Res Kernel := do
  let vm ← k.vm.initMem p
  let s := k.sched.upd p fun e => { e with cid := -1, state := .runnable }
  return { k with vm := vm, sched := { s with initproc := some p } }

/-- `fork2(cid)` called by `p`. -/
def fork2 (k : Kernel) (p : Slot) (cid : Int) : Res (Int × Kernel) := do
  match ← k.allocproc (some p) cid with
  | (none, k) => return (-1, k)
  | (some np, k) =>
    match ← k.vm.copyMem p np with
    | (false, vm) =>
      let vm ← vm.freeKstack np
      return (-1, { k with vm := vm, sched := k.sched.upd np PEntry.free })
    | (true, vm) =>
      let s ← k.sched.child p np cid
      return (k.pid np, { k with vm := vm.inherit p np, sched := s })

/-! ### Sleep locks and mutexes -/

/-- `releasesleep(&mutexes[g].slp)`. -/
def releasesleep (k : Kernel) (g : Mid) : Kernel :=
  { k with
    mux := k.mux.upd g fun e => { e with slp := ⟨false, 0⟩ }
    sched := k.sched.wakeup1 (.slp g) }

/-- `acquiresleep(&mutexes[g].slp)` by `p`, from the test of `locked` on. -/
def acquiresleep (k : Kernel) (p : Slot) (g : Mid) : Option Int × Kernel :=
  if (k.mux.mutexes g).slp.locked then
    (none, { k with sched := k.sched.sleep p (.slp g) (.acquiresleep g) })
  else
    let k := { k with mux := k.mux.upd g fun e => { e with slp := ⟨true, k.pid p⟩ } }
    (some 0, k.toUser p)

/-- The global slot of handle `muxid` of `p`: `none` when a mutex function returns -1 for a bad
number or an unused handle. -/
def handle (k : Kernel) (p : Slot) (muxid : Int) : Option (Fin MUX_MAXNUM × Mid) :=
  match Mux.muxIndex muxid with
  | none => none
  | some i => (k.mux.locks p i).map fun g => (i, g)

/-- Does `p` own the sleep lock of `g`? -/
def owns (k : Kernel) (p : Slot) (g : Mid) : Prop := (k.mux.mutexes g).slp.pid = k.pid p

instance (k : Kernel) (p : Slot) (g : Mid) : Decidable (k.owns p g) :=
  inferInstanceAs (Decidable (_ = _))

/-- `mutex_lock(muxid)` called by `p`. -/
def mutexLock (k : Kernel) (p : Slot) (muxid : Int) : Option Int × Kernel :=
  match k.handle p muxid with
  | none => (some (-1), k)
  | some (_, g) => if k.owns p g then (some (-1), k) else k.acquiresleep p g

/-- `mutex_unlock(muxid)` called by `p`. -/
def mutexUnlock (k : Kernel) (p : Slot) (muxid : Int) : Int × Kernel :=
  match k.handle p muxid with
  | none => (-1, k)
  | some (_, g) => if k.owns p g then (0, k.releasesleep g) else (-1, k)

/-- `mutex_delete(muxid)` called by `p`. -/
def mutexDelete (k : Kernel) (p : Slot) (muxid : Int) : Int × Kernel :=
  match k.handle p muxid with
  | none => (-1, k)
  | some (i, g) =>
    let k := if k.owns p g then k.releasesleep g else k
    (0, { k with mux := (k.mux.addCount g (-1)).setLock p i none })

/-- The loop of `cv_wait` on `g` by `p`, under the handle number `muxid`. -/
def cvLoop (k : Kernel) (p : Slot) (g : Mid) (muxid : Fin MUX_MAXNUM) : Option Int × Kernel :=
  if (k.mux.mutexes g).cvCount = 0 then
    let k := (k.mutexUnlock p muxid.val).2
    (none, { k with sched := k.sched.sleep p (.cv g) (.cvWait g muxid) })
  else
    let k := { k with mux := k.mux.upd g fun e => { e with cvCount := e.cvCount - 1 } }
    (some 0, k.toUser p)

/-- `cv_wait(muxid)` called by `p`. -/
def cvWait (k : Kernel) (p : Slot) (muxid : Int) : Res (Option Int × Kernel) :=
  match k.handle p muxid with
  | none => .ok (some (-1), k)
  | some (i, g) =>
    if k.owns p g then
      if 0 ≤ k.pid p ∧ k.pid p < NPROC then .ok (k.cvLoop p g i)
      else .error (.fault "cv_wait: waiting_procs index out of range")
    else .ok (some (-1), k)

/-- `cv_signal(muxid)` called by `p`. -/
def cvSignal (k : Kernel) (p : Slot) (muxid : Int) : Int × Kernel :=
  match k.handle p muxid with
  | none => (-1, k)
  | some (_, g) =>
    if k.owns p g then
      (0, { k with
        mux := k.mux.upd g fun e => { e with cvCount := e.cvCount + 1 }
        sched := k.sched.wakeup1 (.cv g) })
    else (-1, k)

/-! ### `exit` and `wait` -/

/-- One round of the loop of `exit` over the handles of `p`. -/
def exitLock (p : Slot) (k : Kernel) (i : Fin MUX_MAXNUM) : Kernel :=
  match k.mux.locks p i with
  | none => k
  | some g =>
    let k := { k with mux := k.mux.addCount g (-1) }
    if k.owns p g then k.releasesleep g else k

/-- The loop of `exit` over the handles `is` of `p`. -/
def exitLocks (p : Slot) (is : List (Fin MUX_MAXNUM)) (k : Kernel) : Kernel :=
  is.foldl (exitLock p) k

/-- `exit()` called by `p`. -/
def exit (k : Kernel) (p : Slot) : Res Kernel := do
  if k.sched.initproc = some p then throw (.panic "init exiting")
  let vm ← Vm.exitShm p (List.finRange SHM_MAXNUM) k.vm
  let s ← ((k.sched.wakeParent p).abandon p).removeNode p
  let k := exitLocks p (List.finRange MUX_MAXNUM) { k with vm := vm, sched := s }
  return { k with sched := k.sched.upd p fun e => { e with state := .zombie } }

/-- The container accounting of `wait` for a reaped process. -/
def leaveContainer (con : Containers) (cid : Int) : Res Containers :=
  if cid ≥ 0 then do
    let c ← conIndex cid
    let n := (con c).activeProcesses
    let e := { con c with activeProcesses := if n > 0 then n - 1 else n }
    return Function.update con c e
  else .ok con

/-- `wait()` called by `p`, one scan of the process table. -/
def wait (k : Kernel) (p : Slot) : Res (Option Int × Kernel) := do
  match (List.finRange NPROC).find? fun i =>
      (k.sched.proc i).parent = some p ∧ (k.sched.proc i).state = .zombie with
  | some q =>
    let vm ← k.vm.reap q
    let con ← leaveContainer k.con (k.sched.proc q).cid
    let k' : Kernel := ⟨k.sched.upd q PEntry.reaped, vm, k.mux, con⟩
    return (some (k.pid q), k'.toUser p)
  | none =>
    if (∀ i, (k.sched.proc i).parent ≠ some p) ∨ (k.sched.proc p).killed then
      return (some (-1), k.toUser p)
    else return (none, { k with sched := k.sched.sleep p (.proc p) .wait })

/-! ### The transition system -/

/-- An atomic section of the kernel, with the process that executes it. -/
inductive Op where
  | allocFirst
  | userinit (p : Slot)
  | fork2 (p : Slot) (cid : Int)
  | exit (p : Slot)
  | wait (p : Slot)
  | kill (p : Slot) (pid : Int)
  | yield (p : Slot)
  | scheduler
  | prioSet (p : Slot) (pid priority : Int)
  | sleep (p : Slot) (addr : Nat)
  | wakeup (addr : Nat)
  | resume (p : Slot)
  | growproc (p : Slot) (n : Int)
  | exec (p : Slot) (file : Option (List UInt8)) (argv : List CStr)
  | shmGet (p : Slot) (name : CStr)
  | shmRem (p : Slot) (name : CStr)
  | mutexCreate (p : Slot) (name : CStr)
  | mutexGet (p : Slot) (name : CStr)
  | mutexDelete (p : Slot) (muxid : Int)
  | mutexLock (p : Slot) (muxid : Int)
  | mutexUnlock (p : Slot) (muxid : Int)
  | cvWait (p : Slot) (muxid : Int)
  | cvSignal (p : Slot) (muxid : Int)
  | containers (con : Containers)
  deriving DecidableEq

/-- `p` runs in user space: it can make a system call. -/
def inUser (k : Kernel) (p : Slot) : Prop :=
  (k.sched.proc p).state = .running ∧ (k.sched.proc p).context = .user

instance (k : Kernel) (p : Slot) : Decidable (k.inUser p) := inferInstanceAs (Decidable (_ ∧ _))

/-- When an operation can be executed.  `userinit` runs once, on the process that `allocproc(-1)`
gave it; `resume` continues a process that slept in the kernel. -/
def Enabled (k : Kernel) : Op → Prop
  | .allocFirst => k.sched.nextpid = 1
  | .userinit p => (k.sched.proc p).state = .embryo
  | .yield p => (k.sched.proc p).state = .running
  | .scheduler | .wakeup _ | .containers _ => True
  | .resume p => (k.sched.proc p).state = .running ∧ (k.sched.proc p).context ≠ .user
  | .fork2 p _ | .exit p | .wait p | .kill p _ | .prioSet p _ _ | .sleep p _ | .growproc p _
  | .exec p _ _ | .shmGet p _ | .shmRem p _ | .mutexCreate p _ | .mutexGet p _
  | .mutexDelete p _ | .mutexLock p _ | .mutexUnlock p _ | .cvWait p _ | .cvSignal p _ =>
    k.inUser p

instance (k : Kernel) : ∀ op, Decidable (k.Enabled op) := fun op => by
  rcases op <;> dsimp only [Enabled] <;> infer_instance

/-- The rest of the call `p` slept in. -/
def resume (k : Kernel) (p : Slot) : Res (Option Int × Kernel) :=
  match (k.sched.proc p).context with
  | .user => .ok (none, k)
  | .wait => k.wait p
  | .acquiresleep g => .ok (k.acquiresleep p g)
  | .cvWait g muxid => .ok (k.cvLoop p g muxid)
  | .sleep => .ok (none, k.toUser p)

/-- The value an operation returns (`none` when the caller sleeps, or there is none) and the state
after it. -/
def step (k : Kernel) : Op → Res (Option Int × Kernel)
  | .allocFirst => do
    let (_, k) ← k.allocproc none (-1)
    return (none, k)
  | .userinit p => do return (none, ← k.userinit p)
  | .fork2 p cid => do
    let (r, k) ← k.fork2 p cid
    return (some r, k)
  | .exit p => do return (none, ← k.exit p)
  | .wait p => k.wait p
  | .kill _ pid =>
    let (r, s) := k.sched.kill pid
    .ok (some r, { k with sched := s })
  | .yield p => .ok (none, { k with sched := k.sched.yield p })
  | .scheduler => do
    let (_, s) ← k.sched.scheduler
    return (none, { k with sched := s })
  | .prioSet p pid priority => do
    let (r, s) ← k.sched.prioSet p pid priority
    return (some r, { k with sched := s })
  | .sleep p addr => .ok (none, { k with sched := k.sched.sleep p (.other addr) .sleep })
  | .wakeup addr => .ok (none, { k with sched := k.sched.wakeup1 (.other addr) })
  | .resume p => k.resume p
  | .growproc p n => do
    let (r, vm) ← k.vm.growproc p n
    return (some r, { k with vm := vm })
  | .exec p file argv => do
    let (r, vm) ← k.vm.exec p file argv
    return (some r, { k with vm := vm })
  | .shmGet p name => do
    let (r, vm) ← k.vm.shmGet p name
    return (some (r : Int), { k with vm := vm })
  | .shmRem p name => do
    let (r, vm) ← k.vm.shmRem p name
    return (some r, { k with vm := vm })
  | .mutexCreate p name => do
    let (r, m) ← k.mux.mutexCreate p name
    return (some r, { k with mux := m })
  | .mutexGet p name =>
    let (r, m) := k.mux.mutexGet p name
    .ok (some r, { k with mux := m })
  | .mutexDelete p muxid =>
    let (r, k) := k.mutexDelete p muxid
    .ok (some r, k)
  | .mutexLock p muxid => .ok (k.mutexLock p muxid)
  | .mutexUnlock p muxid =>
    let (r, k) := k.mutexUnlock p muxid
    .ok (some r, k)
  | .cvWait p muxid => k.cvWait p muxid
  | .cvSignal p muxid =>
    let (r, k) := k.cvSignal p muxid
    .ok (some r, k)
  | .containers con => .ok (none, { k with con := con })

/-- One step of the kernel. -/
def Step (k : Kernel) (op : Op) (k' : Kernel) : Prop :=
  k.Enabled op ∧ ∃ r, k.step op = .ok (r, k')

/-- One step as a function; `none` when the operation is not enabled or stops the machine. -/
def exec? (k : Kernel) (op : Op) : Option Kernel :=
  if k.Enabled op then
    match k.step op with
    | .ok (_, k') => some k'
    | .error _ => none
  else none

theorem step_of_exec? (k : Kernel) (op : Op) (k' : Kernel) (h : k.exec? op = some k') :
    Step k op k' := by
  unfold exec? at h
  split at h
  · next he =>
    split at h
    · next r k₁ hs => cases h; exact ⟨he, r, hs⟩
    · cases h
  · cases h

/-- 140 free pages, enough for two processes. -/
def smallMem : Kmem := ⟨1024, List.range' 1024 140⟩

/-- The first process forks, and its child runs. -/
def forkOps : List Op :=
  [.allocFirst, .userinit 0, .scheduler, .fork2 0 (-1), .scheduler]

end Kernel

end Xv6
