import Xv6.Kernel.Sched
import Mathlib.Data.List.FinRange

/-!
# Kernel — Mutex

The user mutexes of `proc.c`: the table `mutexes` and the handles `locks` of each process, where
`-1` is `none`.  `waiting_procs` is written by `cv_wait` and `cv_signal` and read nowhere, so only
the bound of the index `cv_wait` writes at is kept (in `System.lean`).

A name is written with `strncpy(name, strlen(name))` over what the slot held before, without a
terminating NUL, and looked up by `strncmp` over the length of the name asked for.
-/

namespace Xv6

open Function

/-- A global slot of `mutexes`. -/
abbrev Mid := Fin MUX_MAXNUM

/-- `struct sleeplock`, without its spin lock and debugging name. -/
structure SleepLock where
  locked : Bool
  pid : Int
  deriving DecidableEq

/-- `struct mutex`. -/
structure Mutex where
  name : CStr
  count : Int
  cvCount : Int
  slp : SleepLock
  deriving DecidableEq

/-- A slot of the zeroed `mutexes`. -/
def Mutex.zero : Mutex := ⟨[], 0, 0, ⟨false, 0⟩⟩

/-- `mutexes`, and `p->locks` for every slot of the process table. -/
structure Mux where
  mutexes : Mid → Mutex
  locks : Slot → Fin MUX_MAXNUM → Option Mid

namespace Mux

/-- The zeroed tables: a handle 0 names slot 0 until `allocproc` has set the handles. -/
def boot : Mux := ⟨fun _ => .zero, fun _ _ => some ⟨0, by decide⟩⟩

/-- One mutex changed. -/
def upd (m : Mux) (g : Mid) (f : Mutex → Mutex) : Mux :=
  { m with mutexes := update m.mutexes g (f (m.mutexes g)) }

theorem upd_mutexes (m : Mux) (g j : Mid) (f : Mutex → Mutex) :
    (m.upd g f).mutexes j = if j = g then f (m.mutexes g) else m.mutexes j :=
  update_apply ..

@[simp] theorem upd_locks (m : Mux) (g : Mid) (f : Mutex → Mutex) : (m.upd g f).locks = m.locks :=
  rfl

/-- `p->locks[i] = v`. -/
def setLock (m : Mux) (p : Slot) (i : Fin MUX_MAXNUM) (v : Option Mid) : Mux :=
  { m with locks := update m.locks p (update (m.locks p) i v) }

@[simp] theorem setLock_mutexes (m : Mux) (p : Slot) (i : Fin MUX_MAXNUM) (v : Option Mid) :
    (m.setLock p i v).mutexes = m.mutexes := rfl

theorem setLock_locks_self (m : Mux) (p : Slot) (i : Fin MUX_MAXNUM) (v : Option Mid) :
    (m.setLock p i v).locks p = update (m.locks p) i v := update_self ..

theorem setLock_locks_ne {m : Mux} {p q : Slot} {i : Fin MUX_MAXNUM} {v : Option Mid}
    (h : q ≠ p) : (m.setLock p i v).locks q = m.locks q := update_of_ne h ..

/-- `mutexes[g].count += d`. -/
def addCount (m : Mux) (g : Mid) (d : Int) : Mux := m.upd g fun e => { e with count := e.count + d }

/-- `strncpy(mutexes[g].name, name, strlen(name))` on a buffer of 128 bytes. -/
def copyName (dst src : CStr) : Res CStr :=
  if src.length < 128 then .ok (src ++ dst.drop src.length)
  else .error (.fault "strncpy: the name overruns its buffer")

/-- The handle number `muxid` of `curproc->locks[muxid]`, if it passes the range check. -/
def muxIndex (muxid : Int) : Option (Fin MUX_MAXNUM) :=
  if h : 0 ≤ muxid ∧ muxid < MUX_MAXNUM then some ⟨muxid.toNat, by omega⟩ else none

/-- The slot `mutex_create` takes: the first one whose count is 0. -/
def freeMutex (m : Mux) : Option Mid :=
  (List.finRange MUX_MAXNUM).find? fun g => (m.mutexes g).count = 0

/-- The first free handle of `p`. -/
def freeHandle (m : Mux) (p : Slot) : Option (Fin MUX_MAXNUM) :=
  (List.finRange MUX_MAXNUM).find? fun i => m.locks p i = none

/-- The slot `mutex_get` finds for a name. -/
def findMutex (m : Mux) (name : CStr) : Option Mid :=
  (List.finRange MUX_MAXNUM).find? fun g => name <+: (m.mutexes g).name

/-- `mutex_create(name)` called by `p`: a free global slot is taken, and re-initialised, also when
`p` has no handle left to name it. -/
def mutexCreate (m : Mux) (p : Slot) (name : CStr) : Res (Int × Mux) :=
  match m.freeMutex with
  | none => .ok (-1, m)
  | some g => do
    let name ← copyName (m.mutexes g).name name
    let m := m.upd g fun e => { e with name := name, count := e.count + 1, slp := ⟨false, 0⟩ }
    match m.freeHandle p with
    | none => .ok (-1, m)
    | some i => .ok ((i.val : Int), m.setLock p i (some g))

/-- The loop of `mutex_get` over the handles `is` of `p`. -/
def getLoop (m : Mux) (p : Slot) (g : Mid) : List (Fin MUX_MAXNUM) → Int × Mux
  | [] => (-1, m)
  | i :: is =>
    if m.locks p i = some g then (-2, m)
    else if m.locks p i = none then ((i.val : Int), m.setLock p i (some g))
    else getLoop m p g is

/-- `mutex_get(name)` called by `p`. -/
def mutexGet (m : Mux) (p : Slot) (name : CStr) : Int × Mux :=
  match m.findMutex name with
  | none => (-1, m)
  | some g => getLoop m p g (List.finRange MUX_MAXNUM)

/-- `p->locks[i] = -1` for every `i`. -/
def clearLocks (m : Mux) (p : Slot) : Mux :=
  { m with locks := update m.locks p fun _ => none }

/-- One round of the loop of `allocproc` that copies the handles of `p` to `np`. -/
def copyLock (p np : Slot) (m : Mux) (i : Fin MUX_MAXNUM) : Mux :=
  let m := m.setLock np i (m.locks p i)
  match m.locks np i with
  | none => m
  | some g => m.addCount g 1

/-- The loop of `allocproc` that copies the handles `is` of `p` to `np`. -/
def copyLocks (p np : Slot) (is : List (Fin MUX_MAXNUM)) (m : Mux) : Mux :=
  is.foldl (copyLock p np) m

/-- The handles of the process `allocproc` creates in slot `np`: none for the first process, else
those of the caller. -/
def initLocks (m : Mux) (cur : Option Slot) (np : Slot) (pid : Int) : Res Mux :=
  if pid = 1 then .ok (m.clearLocks np)
  else
    match cur with
    | none => .error (.fault "allocproc: no current process")
    | some p => .ok (copyLocks p np (List.finRange MUX_MAXNUM) m)

end Mux

end Xv6
