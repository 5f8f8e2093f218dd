import Xv6.Kernel.Base

/-!
# Kernel — Sched

The scheduling part of `proc.c`: the fields of `struct proc` that the run queue, `sleep`,
`wakeup`, `kill` and `prio_set` read and write, the ten buckets of `prioqueue`, and these
functions.  The buckets are lists threaded through the `next` fields of the process table; a loop
that follows `next` is bounded by `NPROC` entries, since one that meets more has met an entry
twice and never ends.

The locks `ptable.lock` and `prioqueue.lock` are not part of the state: a function here is one
section under them.
-/

namespace Xv6

open Function

/-- `enum procstate`. -/
inductive ProcState where
  | unused | embryo | sleeping | runnable | running | zombie
  deriving DecidableEq, Repr

/-- The address a process sleeps on: its own slot in `wait`, the sleep lock of a mutex, the mutex
itself in `cv_wait`, or any other address. -/
inductive Chan where
  | proc (p : Slot)
  | slp (g : Fin MUX_MAXNUM)
  | cv (g : Fin MUX_MAXNUM)
  | other (addr : Nat)
  deriving DecidableEq, Repr

/-- Where a process goes on when it is next run (what `p->context` holds): in user space, or
after the `sleep` of the named function. -/
inductive Context where
  | user
  | wait
  | acquiresleep (g : Fin MUX_MAXNUM)
  | cvWait (g : Fin MUX_MAXNUM) (muxid : Fin MUX_MAXNUM)
  | sleep
  deriving DecidableEq, Repr

/-- The scheduling fields of `struct proc`. -/
structure PEntry where
  state : ProcState
  pid : Int
  parent : Option Slot
  chan : Option Chan
  killed : Bool
  priority : Int
  next : Option Slot
  cid : Int
  context : Context
  deriving DecidableEq

/-- A slot of the zeroed `ptable`. -/
def PEntry.zero : PEntry where
  state := .unused
  pid := 0
  parent := none
  chan := none
  killed := false
  priority := 0
  next := none
  cid := 0
  context := .user

/-- `ptable.proc`, `prioqueue.queue`, `nextpid` and `initproc`. -/
structure Sched where
  proc : Slot → PEntry
  queue : Fin PRIO_MAX → Option Slot
  nextpid : Int
  initproc : Option Slot

namespace Sched

/-- The state after `pinit`. -/
def pinit : Sched where
  proc _ := .zero
  queue _ := none
  nextpid := 1
  initproc := none

/-- One entry changed. -/
def upd (s : Sched) (i : Slot) (f : PEntry → PEntry) : Sched :=
  { s with proc := update s.proc i (f (s.proc i)) }

/-- The links of the queue. -/
def next (s : Sched) (i : Slot) : Option Slot := (s.proc i).next

section

variable (s : Sched) (i : Slot) (f : PEntry → PEntry)

include s i f

@[simp] theorem upd_queue : (s.upd i f).queue = s.queue := rfl

@[simp] theorem upd_nextpid : (s.upd i f).nextpid = s.nextpid := rfl

@[simp] theorem upd_proc_self : (s.upd i f).proc i = f (s.proc i) := update_self ..

end

theorem upd_proc_ne {s : Sched} {i j : Slot} {f : PEntry → PEntry} (h : j ≠ i) :
    (s.upd i f).proc j = s.proc j := update_of_ne h ..

/-- What an update leaves as it is. -/
theorem upd_field {α : Type} (g : PEntry → α) {s : Sched} {i : Slot} {f : PEntry → PEntry}
    (h : g (f (s.proc i)) = g (s.proc i)) (j : Slot) : g ((s.upd i f).proc j) = g (s.proc j) := by
  by_cases e : j = i
  · subst e; rw [upd_proc_self]; exact h
  · rw [upd_proc_ne e]

theorem upd_proc (s : Sched) (i j : Slot) (f : PEntry → PEntry) :
    (s.upd i f).proc j = if j = i then f (s.proc i) else s.proc j :=
  update_apply ..

/-! ### Cells of the queue -/

/-- A cell that holds a pointer of the queue, as `struct proc **head` ranges over them: a bucket
or the `next` field of an entry. -/
inductive Cell where
  | head (b : Fin PRIO_MAX)
  | next (i : Slot)
  deriving DecidableEq

def read (s : Sched) : Cell → Option Slot
  | .head b => s.queue b
  | .next i => (s.proc i).next

def write (s : Sched) : Cell → Option Slot → Sched
  | .head b, v => { s with queue := update s.queue b v }
  | .next i, v => s.upd i fun e => { e with next := v }

/-- The index of `prioqueue.queue[priority]`. -/
def bucket (priority : Int) : Res (Fin PRIO_MAX) :=
  if h : 0 ≤ priority ∧ priority < PRIO_MAX then .ok ⟨priority.toNat, by omega⟩
  else .error (.fault "prioqueue.queue: index out of range")

/-! ### The queue operations -/

/-- `pq1_enqueue`.  The `next` field is written only if the bucket has an entry. -/
def pq1Enqueue (s : Sched) (p : Slot) (priority : Int) : Res Sched := do
  let b ← bucket priority
  match s.queue b with
  | none => .ok (s.write (.head b) (some p))
  | some cur => .ok ((s.write (.head b) (some p)).write (.next p) (some cur))

/-- The loop of `remove_node`: `prev` is the entry before `cur`. -/
def removeLoop (s : Sched) (b : Fin PRIO_MAX) (pid : Int) :
    Nat → Option Slot → Option Slot → Res Sched
  | _, _, none => .ok s
  | 0, _, some _ => .error (.fault "remove_node: the list does not end")
  | n + 1, prev, some cur =>
    if (s.proc cur).pid = pid then
      let s' := match prev with
        | some q => s.write (.next q) (s.proc cur).next
        | none => s.write (.head b) (s.proc cur).next
      .ok (s'.write (.next cur) none)
    else removeLoop s b pid n (some cur) (s.proc cur).next

/-- `remove_node`. -/
def removeNode (s : Sched) (p : Slot) : Res Sched := do
  let b ← bucket (s.proc p).priority
  removeLoop s b (s.proc p).pid NPROC none (s.queue b)

/-- `while (cur && cur->state != RUNNABLE) cur = cur->next;` -/
def skipLoop (s : Sched) : Nat → Option Slot → Res (Option Slot)
  | _, none => .ok none
  | 0, some cur =>
    if (s.proc cur).state = .runnable then .ok (some cur)
    else .error (.fault "pq1_dequeue: the list does not end")
  | n + 1, some cur =>
    if (s.proc cur).state = .runnable then .ok (some cur)
    else skipLoop s n (s.proc cur).next

/-- The outer loop of `pq1_dequeue`, over the buckets `bs`. -/
def firstRunnable (s : Sched) : List (Fin PRIO_MAX) → Res (Option Slot)
  | [] => .ok none
  | b :: bs => do
    match ← skipLoop s NPROC (s.queue b) with
    | some cur => .ok (some cur)
    | none => firstRunnable s bs

/-- `while (*head && (*head)->next != cur) head = &(*head)->next;` -/
def prevLoop (s : Sched) (cur : Slot) : Nat → Cell → Res Cell
  | 0, c =>
    match s.read c with
    | none => .ok c
    | some i =>
      if (s.proc i).next = some cur then .ok c
      else .error (.fault "pq1_dequeue: the list does not end")
  | n + 1, c =>
    match s.read c with
    | none => .ok c
    | some i =>
      if (s.proc i).next = some cur then .ok c
      else prevLoop s cur n (.next i)

/-- `while (*head) head = &(*head)->next;` -/
def endLoop (s : Sched) : Nat → Cell → Res Cell
  | 0, c =>
    match s.read c with
    | none => .ok c
    | some _ => .error (.fault "pq1_dequeue: the list does not end")
  | n + 1, c =>
    match s.read c with
    | none => .ok c
    | some i => endLoop s n (.next i)

/-- The removal of `cur` from its bucket in `pq1_dequeue`; its `next` field is left as it was. -/
def takeOut (s : Sched) (b : Fin PRIO_MAX) (cur : Slot) : Res Sched :=
  if s.queue b = some cur then .ok (s.write (.head b) (s.proc cur).next)
  else do
    let c ← prevLoop s cur NPROC (.head b)
    match s.read c with
    | none => .ok s
    | some i => .ok (s.write (.next i) (s.proc cur).next)

/-- The end of `pq1_dequeue`: `cur` becomes the last entry of the bucket. -/
def putLast (s : Sched) (b : Fin PRIO_MAX) (cur : Slot) : Res Sched := do
  let c ← endLoop s NPROC (.head b)
  .ok ((s.write c (some cur)).write (.next cur) none)

/-- `pq1_dequeue`. -/
def pq1Dequeue (s : Sched) : Res (Option Slot × Sched) := do
  match ← firstRunnable s (List.finRange PRIO_MAX) with
  | none => .ok (none, s)
  | some cur =>
    let b ← bucket (s.proc cur).priority
    let s ← takeOut s b cur
    let s ← putLast s b cur
    .ok (some cur, s)

/-! ### `prio_set` -/

/-- The slot `prio_set` finds for `pid`: the last one, as the loop has no `break`. -/
def findPid (s : Sched) (pid : Int) : Option Slot :=
  (List.finRange NPROC).foldl (fun r i => if (s.proc i).pid = pid then some i else r) none

/-- The ancestor walk of `prio_set`, from `a`. -/
def ancestorLoop (s : Sched) (pid : Int) : Nat → Option Slot → Res Bool
  | _, none => .ok false
  | 0, some a =>
    if (s.proc a).pid = pid then .ok true
    else .error (.fault "prio_set: the parents do not end")
  | n + 1, some a =>
    if (s.proc a).pid = pid then .ok true
    else ancestorLoop s pid n (s.proc a).parent

/-- `prio_set(pid, priority)` called by `p`: the return value and the new state. -/
def prioSet (s : Sched) (p : Slot) (pid priority : Int) : Res (Int × Sched) := do
  if priority < 0 ∨ priority ≥ PRIO_MAX then return (-1, s)
  if priority < (s.proc p).priority then return (-1, s)
  let setproc := findPid s pid
  if !(← ancestorLoop s (s.proc p).pid NPROC setproc) then return (-1, s)
  match setproc with
  | none => return (-1, s)
  | some q =>
    let s ← removeNode s q
    let s := s.upd q fun e => { e with priority := priority }
    let s ← pq1Enqueue s q priority
    return (0, s)

/-! ### Sleeping and waking -/

/-- The part of `sleep` before `sched`: `p` sleeps on `chan` and goes on at `ctx`. -/
def sleep (s : Sched) (p : Slot) (chan : Chan) (ctx : Context) : Sched :=
  s.upd p fun e => { e with chan := some chan, state := .sleeping, context := ctx }

/-- `wakeup1`. -/
def wakeup1 (s : Sched) (chan : Chan) : Sched :=
  { s with proc := fun i =>
      if (s.proc i).state = .sleeping ∧ (s.proc i).chan = some chan
      then { s.proc i with state := .runnable } else s.proc i }

/-- `kill`: the first slot with this pid, whatever its state. -/
def kill (s : Sched) (pid : Int) : Int × Sched :=
  match (List.finRange NPROC).find? fun i => (s.proc i).pid = pid with
  | none => (-1, s)
  | some i => (0, s.upd i fun e =>
    { e with killed := true, state := if e.state = .sleeping then .runnable else e.state })

/-- `yield`. -/
def yield (s : Sched) (p : Slot) : Sched := s.upd p fun e => { e with state := .runnable }

/-- One round of `scheduler`: the chosen process runs.  The rest of its last `sleep`, if it is in
one, clears `chan`. -/
def scheduler (s : Sched) : Res (Option Slot × Sched) := do
  match ← pq1Dequeue s with
  | (none, s) => .ok (none, s)
  | (some p, s) => .ok (some p, s.upd p fun e => { e with state := .running, chan := none })

end Sched

end Xv6
