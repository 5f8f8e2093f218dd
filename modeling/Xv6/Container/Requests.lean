import Xv6.Kernel.CvHeld
import Xv6.Kernel.Limit
import Xv6.Kernel.Signals

/-!
# Container — Requests

The requests that the clients (`dockv6.c`) send to the container manager (`cm.c`).  A client locks
the mutex `"receive"`, copies its command into the shared segment, signals the mutex and unlocks it;
the manager locks the mutex, waits on it, copies the command out and unlocks it, in a loop.  The
mutex calls are those of the kernel (`Kernel.step`), and their results are not looked at, as in the
two programs.

The segment has room for one command and the condition variable counts.  If a client writes only
when every earlier command has been copied out, the manager copies out what was sent, in order and
once (`requests_delivered`).  Nothing in the two programs sees to that: a second client that sends
before the manager has copied overwrites the first command, and the manager copies the second
twice (`request_lost`).
-/

namespace Xv6

open Lib Function Res

/-- The next statement of a process. -/
inductive ReqPc where
  /-- the manager: `mutex_lock(mux_receive)` -/
  | cmLock
  /-- `cv_wait(mux_receive)` -/
  | cmWait
  /-- `strcpy(buf, shm_receive)` -/
  | cmCopy
  /-- `mutex_unlock(mux_receive)` -/
  | cmUnlock
  /-- the rest of the loop, which does not touch the mutex or the segment -/
  | cmWork
  /-- a client that sends nothing -/
  | idle
  /-- a client with the command `cmd`: `mutex_lock(mux_send)` -/
  | lock (cmd : CStr)
  /-- `strcpy(shm_send, cmd)` -/
  | write (cmd : CStr)
  /-- `cv_signal(mux_send)` -/
  | signal
  /-- `mutex_unlock(mux_send)` -/
  | unlock
  deriving DecidableEq

namespace ReqPc

/-- The statement after it. -/
def next : ReqPc → ReqPc
  | .cmLock => .cmWait
  | .cmWait => .cmCopy
  | .cmCopy => .cmUnlock
  | .cmUnlock => .cmWork
  | .cmWork => .cmLock
  | .idle => .idle
  | .lock cmd => .write cmd
  | .write _ => .signal
  | .signal => .unlock
  | .unlock => .idle

/-- The system call the statement is, by `p` with the handle `muxid`. -/
def call (p : Slot) (muxid : Int) : ReqPc → Option Kernel.Op
  | .cmLock | .lock _ => some (.mutexLock p muxid)
  | .cmWait => some (.cvWait p muxid)
  | .cmUnlock | .unlock => some (.mutexUnlock p muxid)
  | .signal => some (.cvSignal p muxid)
  | .cmCopy | .cmWork | .idle | .write _ => none

/-- A statement of the manager. -/
def isCm : ReqPc → Bool
  | .cmLock | .cmWait | .cmCopy | .cmUnlock | .cmWork => true
  | .idle | .lock _ | .write _ | .signal | .unlock => false

/-- Between `mutex_lock` and the call that gives the mutex up. -/
def holding : ReqPc → Bool
  | .cmWait | .write _ | .signal | .unlock => true
  | .cmLock | .cmCopy | .cmUnlock | .cmWork | .idle | .lock _ => false

/-- After `mutex_unlock`, before `mutex_lock` has returned. -/
def outside : ReqPc → Bool
  | .cmLock | .cmWork | .idle | .lock _ => true
  | .cmWait | .cmCopy | .cmUnlock | .write _ | .signal | .unlock => false

end ReqPc

/-- The kernel, the statements the processes are at, the shared segment, and the commands that have
been sent and copied out. -/
structure Requests where
  kernel : Kernel
  pc : Slot → ReqPc
  shm : CStr
  sent : List CStr
  copied : List CStr

/-- A step. -/
inductive ReqOp where
  /-- an idle client begins to send `cmd` -/
  | begin (p : Slot) (cmd : CStr)
  /-- the next statement of `p` -/
  | call (p : Slot)
  /-- `p` goes on with the call it slept in -/
  | resume (p : Slot)
  /-- the clock interrupt -/
  | yield (p : Slot)
  | scheduler
  deriving DecidableEq

namespace Requests

/-- The kernel executes `op` for `p`; when the call returns, `p` is at its next statement. -/
def kernelCall (w : Requests) (p : Slot) (op : Kernel.Op) : Res Requests := do
  let (r, k) ← w.kernel.step op
  return { w with
    kernel := k
    pc := if r.isSome then update w.pc p (w.pc p).next else w.pc }

/-- The next statement of `p`, whose handle of the mutex is `muxid`. -/
def statement (w : Requests) (p : Slot) (muxid : Int) : Res Requests :=
  match (w.pc p).call p muxid with
  | some op => w.kernelCall p op
  | none =>
    let pc := update w.pc p (w.pc p).next
    match w.pc p with
    | .write cmd => .ok { w with pc := pc, shm := cmd, sent := w.sent ++ [cmd] }
    | .cmCopy => .ok { w with pc := pc, copied := w.copied ++ [w.shm] }
    | _ => .ok { w with pc := pc }

variable (g : Mid) (muxid : Slot → Int)

/-- `p` has a handle of the mutex. -/
def Party (k : Kernel) (p : Slot) : Prop := ∃ i, k.handle p (muxid p) = some (i, g)

/-- When a step can be made. -/
def Enabled (w : Requests) : ReqOp → Prop
  | .begin p _ => Party g muxid w.kernel p ∧ w.kernel.inUser p ∧ w.pc p = .idle
  | .call p => Party g muxid w.kernel p ∧ w.kernel.inUser p
  | .resume p => Party g muxid w.kernel p ∧ w.kernel.Enabled (.resume p)
  | .yield p => w.kernel.Enabled (.yield p)
  | .scheduler => True

/-- The state after a step. -/
def step (w : Requests) : ReqOp → Res Requests
  | .begin p cmd => .ok { w with pc := update w.pc p (.lock cmd) }
  | .call p => w.statement p (muxid p)
  | .resume p => w.kernelCall p (.resume p)
  | .yield p => do
    let (_, k) ← w.kernel.step (.yield p)
    return { w with kernel := k }
  | .scheduler => do
    let (_, k) ← w.kernel.step .scheduler
    return { w with kernel := k }

/-- One step. -/
def Step (w : Requests) (op : ReqOp) (w' : Requests) : Prop :=
  Enabled g muxid w op ∧ w.step muxid op = .ok w'

/-- The processes start: `cm` is the manager, and no command has been sent. -/
def init (k : Kernel) (cm : Slot) (shm : CStr) : Requests where
  kernel := k
  pc p := if p = cm then .cmLock else .idle
  shm := shm
  sent := []
  copied := []

/-- The kernel when the manager and the clients have got their handles: the mutex is free, no signal
is pending, and they are in user space. -/
structure Ready (k : Kernel) : Prop where
  slp : (k.mux.mutexes g).slp = ⟨false, 0⟩
  cvCount : (k.mux.mutexes g).cvCount = 0
  user : ∀ p, Party g muxid k p → (k.sched.proc p).Live ∧ (k.sched.proc p).context = .user

/-- No command has been written and not signalled, no signal is pending, and the manager does not
have a signal to copy a command for. -/
def NonePending (w : Requests) : Prop :=
  (∀ p, w.pc p ≠ .signal ∧ w.pc p ≠ .cmCopy) ∧ (w.kernel.mux.mutexes g).cvCount = 0

/-- What was copied out was sent, not more often than it was sent, and when nothing is pending all
of it. -/
def Delivered (w : Requests) : Prop :=
  w.copied.Subperm w.sent ∧ (NonePending g w → w.copied.Perm w.sent)

/-- A command is written only when all commands before it have been copied out. -/
def CopiedFirst (w : Requests) : ReqOp → Prop
  | .call p => ∀ cmd, w.pc p = .write cmd → w.copied.length = w.sent.length
  | _ => True

end Requests

/-! ### What the mutex calls do -/

/-- Waking, killing and dispatching a process leaves it where it was. -/
theorem Sched.sameContext : Sched.Passive (fun _ e e' => e'.context = e.context)
    fun s s' => ∀ i, (s'.proc i).context = (s.proc i).context where
  trans h₁ h₂ i := (h₂ i).trans (h₁ i)
  entries h := h
  same _ _ := rfl
  woken _ := rfl
  killed _ _ := rfl
  preempted _ := rfl
  dispatched _ := rfl

namespace Kernel

open Sched (PidInv)

variable {k k' : Kernel} {p q : Slot} {g : Mid} {i : Fin MUX_MAXNUM} {muxid : Int}

/-- What a call of `p` may do to the sleep lock of `g`: leave it, free it if `p` owns it, or give it
to `p` if it is free. -/
inductive LockEffect (k k' : Kernel) (p : Slot) (g : Mid) : Prop where
  | same (h : (k'.mux.mutexes g).slp = (k.mux.mutexes g).slp)
  | release (ho : k.owns p g) (h : (k'.mux.mutexes g).slp = ⟨false, 0⟩)
  | acquire (hl : (k.mux.mutexes g).slp.locked = false)
      (h : (k'.mux.mutexes g).slp = ⟨true, k.pid p⟩)

/-- A mutex call of `p`: handles and pids stay, and so do the contexts of the others. -/
structure Beside (k k' : Kernel) (p : Slot) (g : Mid) : Prop where
  still : Still k k'
  context : ∀ q, q ≠ p → (k'.sched.proc q).context = (k.sched.proc q).context
  lock : LockEffect k k' p g

theorem Beside.pid (h : Beside k k' p g) (q : Slot) : k'.pid q = k.pid q :=
  (h.still.sched.entry q).pid

theorem Beside.handle (h : Beside k k' p g) (q : Slot) (muxid : Int) :
    k'.handle q muxid = k.handle q muxid := by
  unfold Kernel.handle
  rw [h.still.mux.locks]

/-- Another process that holds the mutex goes on holding it. -/
theorem Beside.holds (h : Beside k k' p g) (hpid : PidInv k.sched)
    (hp : (k.sched.proc p).state ≠ .unused) (hne : q ≠ p) (hq : k.Holds q g) : k'.Holds q g := by
  have hpos := hpid.pos p hp
  unfold Holds
  rw [h.pid]
  cases h.lock with
  | same hs => exact hs.trans hq
  | release ho hs =>
    unfold owns at ho
    rw [hq] at ho
    exact absurd (hpid.inj q p ho (by dsimp only [Kernel.pid] at ho; omega)) hne
  | acquire hl hs => rw [hq] at hl; cases hl

/-- Another process that does not own the mutex does not get it. -/
theorem Beside.not_owns (h : Beside k k' p g) (hpid : PidInv k.sched)
    (hp : (k.sched.proc p).state ≠ .unused) (hq : (k.sched.proc q).state ≠ .unused) (hne : q ≠ p)
    (ho : ¬ k.owns q g) : ¬ k'.owns q g := by
  have hpos := hpid.pos q hq
  have hpos' := hpid.pos p hp
  unfold owns at ho ⊢
  rw [h.pid]
  cases h.lock with
  | same hs => rwa [hs]
  | release _ hs => rw [hs]; dsimp only [Kernel.pid]; omega
  | acquire _ hs =>
    rw [hs]
    intro e
    exact hne (hpid.inj p q e (by omega)).symm

/-- `acquiresleep`: the lock is taken, or the process sleeps. -/
theorem acquiresleep_spec (hp : (k.sched.proc p).state = .running) :
    Beside k (k.acquiresleep p g).2 p g ∧ (((k.acquiresleep p g).1 = none ∧
          ((k.acquiresleep p g).2.sched.proc p).context = .acquiresleep g ∧
          ((k.acquiresleep p g).2.mux.mutexes g).slp = (k.mux.mutexes g).slp) ∨
        ((k.acquiresleep p g).1.isSome = true ∧
          ((k.acquiresleep p g).2.sched.proc p).context = .user ∧
          (k.acquiresleep p g).2.Holds p g)) := by
  have hstill := (still p).acquiresleep g hp
  unfold acquiresleep at hstill ⊢
  by_cases hl : (k.mux.mutexes g).slp.locked = true
  · rw [if_pos hl] at hstill ⊢
    refine ⟨⟨hstill, fun q hq => ?_, .same rfl⟩, .inl ⟨rfl, ?_, rfl⟩⟩
    · dsimp only [Sched.sleep]; rw [Sched.upd_proc_ne hq]
    · dsimp only [Sched.sleep]; rw [Sched.upd_proc_self]
  rw [if_neg hl] at hstill ⊢
  have hslp : ((({ k with mux := k.mux.upd g fun e => { e with slp := ⟨true, k.pid p⟩ } } :
      Kernel).toUser p).mux.mutexes g).slp = ⟨true, k.pid p⟩ := by
    simp only [toUser, Mux.upd_mutexes, if_true]
  refine ⟨⟨hstill, fun q hq => ?_, .acquire (by simpa using hl) hslp⟩, .inr ⟨rfl, ?_, ?_⟩⟩
  · dsimp only [toUser]; rw [Sched.upd_proc_ne hq]
  · dsimp only [toUser]; rw [Sched.upd_proc_self]
  · refine hslp.trans ?_
    rw [show k.pid p = _ from ((hstill.sched.entry p).pid).symm]
    rfl

/-- `mutex_unlock` with a handle of `g`. -/
theorem mutexUnlock_beside (hh : k.handle p muxid = some (i, g)) :
    Beside k (k.mutexUnlock p muxid).2 p g ∧
      ∀ q, ((k.mutexUnlock p muxid).2.sched.proc q).context = (k.sched.proc q).context := by
  have hstill := (still p).mutexUnlock k p muxid
  unfold mutexUnlock at hstill ⊢
  rw [hh] at hstill ⊢
  dsimp only at hstill ⊢
  by_cases ho : k.owns p g
  · rw [if_pos ho] at hstill ⊢
    have hc := Sched.sameContext.wakeup1 k.sched (.slp g)
    refine ⟨⟨hstill, fun q _ => hc q, .release ho ?_⟩, hc⟩
    simp only [releasesleep, Mux.upd_mutexes, if_true]
  · rw [if_neg ho] at hstill ⊢
    exact ⟨⟨hstill, fun _ _ => rfl, .same rfl⟩, fun _ => rfl⟩

/-- The loop of `cv_wait`: there is a signal and it is taken, or the process sleeps. -/
theorem cvLoop_spec (hp : (k.sched.proc p).state = .running) (hh : k.handle p i.val = some (i, g)) :
    Beside k (k.cvLoop p g i).2 p g ∧ (((k.cvLoop p g i).1 = none ∧
          ((k.cvLoop p g i).2.sched.proc p).context = .cvWait g i ∧
          ((k.cvLoop p g i).2.mux.mutexes g).cvCount = (k.mux.mutexes g).cvCount) ∨
        ((k.cvLoop p g i).1.isSome = true ∧
          ((k.cvLoop p g i).2.sched.proc p).context = .user ∧ (k.mux.mutexes g).cvCount ≠ 0 ∧
          ((k.cvLoop p g i).2.mux.mutexes g).cvCount = (k.mux.mutexes g).cvCount - 1)) := by
  have hstill := (still p).cvLoop g i hp
  unfold cvLoop at hstill ⊢
  by_cases hc : (k.mux.mutexes g).cvCount = 0
  · rw [if_pos hc] at hstill ⊢
    obtain ⟨hb, hctx⟩ := mutexUnlock_beside hh
    refine ⟨⟨hstill, fun q hq => ?_, ?_⟩, .inl ⟨rfl, ?_, ?_⟩⟩
    · dsimp only [Sched.sleep]; rw [Sched.upd_proc_ne hq, hctx]
    · cases hb.lock with
      | same h => exact .same h
      | release ho h => exact .release ho h
      | acquire hl h => exact .acquire hl h
    · dsimp only [Sched.sleep]; rw [Sched.upd_proc_self]
    · exact (sameCv_locks p).mutexUnlock k p i.val g
  · have hslp := cvLoop_slp (p := p) hc i g
    unfold cvLoop at hslp
    rw [if_neg hc] at hstill hslp ⊢
    refine ⟨⟨hstill, fun q hq => ?_, .same hslp⟩, .inr ⟨rfl, ?_, hc, ?_⟩⟩
    · dsimp only [toUser]; rw [Sched.upd_proc_ne hq]
    · dsimp only [toUser]; rw [Sched.upd_proc_self]
    · simp only [toUser, Mux.upd_mutexes, if_true]

/-- `cv_signal` by the owner. -/
theorem cvSignal_spec (hh : k.handle p muxid = some (i, g)) (ho : k.owns p g) :
    Beside k (k.cvSignal p muxid).2 p g ∧
      (∀ q, ((k.cvSignal p muxid).2.sched.proc q).context = (k.sched.proc q).context) ∧
      ((k.cvSignal p muxid).2.mux.mutexes g).slp = (k.mux.mutexes g).slp ∧
      ((k.cvSignal p muxid).2.mux.mutexes g).cvCount = (k.mux.mutexes g).cvCount + 1 := by
  have hstill := (still p).cvSignal k p muxid
  have hslp := cvSignal_slp k p muxid g
  unfold cvSignal at hstill hslp ⊢
  simp only [hh, if_pos ho] at hstill hslp ⊢
  have hc := Sched.sameContext.wakeup1 k.sched (.cv g)
  refine ⟨⟨hstill, fun q _ => hc q, .same hslp⟩, hc, hslp, ?_⟩
  simp only [Mux.upd_mutexes, if_true]

end Kernel

namespace Requests

open Kernel Sched

variable {g : Mid} {muxid : Slot → Int} {k k' : Kernel} {p q cm : Slot} {w w' : Requests}
  {x : ReqPc} {pc : Slot → ReqPc} {i : Fin MUX_MAXNUM} {m : Int} {c : Carrier}

/-! ### The mutex and the statements -/

/-- What is so of a process at the statement `x`: it is in user space, or in the call of that
statement; it holds the mutex where it has locked it, and does not own it outside. -/
structure Place (g : Mid) (k : Kernel) (p : Slot) (x : ReqPc) : Prop where
  used : (k.sched.proc p).state ≠ .unused
  context : (k.sched.proc p).context = .user ∨
    ((k.sched.proc p).context = .acquiresleep g ∧ (x = .cmLock ∨ ∃ cmd, x = .lock cmd)) ∨
    ∃ i, (k.sched.proc p).context = .cvWait g i ∧ k.handle p i.val = some (i, g) ∧ x = .cmWait
  holds : x.holding = true → (k.sched.proc p).context = .user → k.Holds p g
  outside : x.outside = true → ¬ k.owns p g

/-- A call of another process. -/
theorem Place.beside (h : Place g k q x) (hb : Beside k k' p g) (hpid : PidInv k.sched)
    (hp : (k.sched.proc p).state ≠ .unused) (hne : q ≠ p) : Place g k' q x where
  used := by
    rw [Ne, (hb.still.sched.entry q).unused]
    exact h.used
  context := by
    rw [hb.context q hne]
    refine h.context.imp_right (.imp_right ?_)
    rintro ⟨i, hc, hh, hx⟩
    exact ⟨i, hc, (hb.handle q _).trans hh, hx⟩
  holds hx hc := hb.holds hpid hp hne (h.holds hx ((hb.context q hne).symm.trans hc))
  outside hx := hb.not_owns hpid hp h.used hne (h.outside hx)

/-- The processes with a handle are in place, and only `cm` is the manager. -/
structure Core (g : Mid) (muxid : Slot → Int) (cm : Slot) (k : Kernel) (pc : Slot → ReqPc) :
    Prop where
  pids : PidInv k.sched
  place : ∀ p, Party g muxid k p → Place g k p (pc p)
  role : ∀ p, (pc p).isCm = true → p = cm

/-- Process `p` makes a call. -/
theorem Core.call (h : Core g muxid cm k pc) (hb : Beside k k' p g)
    (hp : (k.sched.proc p).state ≠ .unused) (hx : Place g k' p x) (hr : x.isCm = (pc p).isCm) :
    Core g muxid cm k' (update pc p x) where
  pids := h.pids.keep hb.still.sched.keep
  place q hq := by
    by_cases e : q = p
    · subst e; rw [update_self]; exact hx
    · rw [update_of_ne e]
      obtain ⟨i, hi⟩ := hq
      exact (h.place q ⟨i, (hb.handle q _).symm.trans hi⟩).beside hb h.pids hp e
  role q hq := by
    by_cases e : q = p
    · subst e
      rw [update_self, hr] at hq
      exact h.role q hq
    · rw [update_of_ne e] at hq
      exact h.role q hq

/-- What the statement `x` becomes when its call returns or sleeps. -/
def after (r : Option Int) (x : ReqPc) : ReqPc := if r.isSome then x.next else x

theorem update_after (pc : Slot → ReqPc) (p : Slot) (r : Option Int) :
    (if r.isSome then update pc p (pc p).next else pc) = update pc p (after r (pc p)) := by
  unfold after
  split
  · rfl
  · rw [update_eq_self]

theorem isCm_next (x : ReqPc) : x.next.isCm = x.isCm := by cases x <;> rfl

theorem isCm_after (r : Option Int) (x : ReqPc) : (after r x).isCm = x.isCm := by
  unfold after
  split
  · exact isCm_next x
  · rfl

/-- `p` is at `mutex_lock`, from the test of `locked` on. -/
theorem place_lock (hx : x = .cmLock ∨ ∃ cmd, x = .lock cmd) (h : Place g k p x)
    (hp : (k.sched.proc p).state = .running) : Beside k (k.acquiresleep p g).2 p g ∧
      Place g (k.acquiresleep p g).2 p (after (k.acquiresleep p g).1 x) := by
  obtain ⟨hb, hcase⟩ := acquiresleep_spec (g := g) hp
  have hused : ((k.acquiresleep p g).2.sched.proc p).state ≠ .unused := by
    rw [Ne, (hb.still.sched.entry p).unused]
    exact h.used
  have hout : x.outside = true := by rcases hx with rfl | ⟨cmd, rfl⟩ <;> rfl
  refine ⟨hb, ?_⟩
  rcases hcase with ⟨hr, hc, hs⟩ | ⟨hr, hc, hh⟩
  · rw [hr]
    refine ⟨hused, .inr (.inl ⟨hc, hx⟩), fun hx' => ?_, fun _ ho => h.outside hout ?_⟩
    · rcases hx with rfl | ⟨cmd, rfl⟩ <;> cases hx'
    · unfold owns at ho ⊢
      rw [hs, hb.pid] at ho
      exact ho
  · have hnext : after (k.acquiresleep p g).1 x = x.next := if_pos hr
    rw [hnext]
    refine ⟨hused, .inl hc, fun _ _ => hh, fun hx' => ?_⟩
    rcases hx with rfl | ⟨cmd, rfl⟩ <;> cases hx'

/-- The manager is in `cv_wait`, from the test of `cv_count` on. -/
theorem place_wait (h : Place g k p .cmWait) (hp : (k.sched.proc p).state = .running)
    (hh : k.handle p i.val = some (i, g)) : Beside k (k.cvLoop p g i).2 p g ∧
      Place g (k.cvLoop p g i).2 p (after (k.cvLoop p g i).1 .cmWait) ∧
      (((k.cvLoop p g i).1 = none ∧
          ((k.cvLoop p g i).2.mux.mutexes g).cvCount = (k.mux.mutexes g).cvCount) ∨
        ((k.cvLoop p g i).1.isSome = true ∧ (k.mux.mutexes g).cvCount ≠ 0 ∧
          ((k.cvLoop p g i).2.mux.mutexes g).cvCount = (k.mux.mutexes g).cvCount - 1)) := by
  obtain ⟨hb, hcase⟩ := cvLoop_spec (g := g) hp hh
  have hused : ((k.cvLoop p g i).2.sched.proc p).state ≠ .unused := by
    rw [Ne, (hb.still.sched.entry p).unused]
    exact h.used
  rcases hcase with ⟨hr, hc, hcv⟩ | ⟨hr, hc, hne, hcv⟩
  · refine ⟨hb, ?_, .inl ⟨hr, hcv⟩⟩
    rw [hr]
    refine ⟨hused, .inr (.inr ⟨i, hc, (hb.handle p _).trans hh, rfl⟩), fun _ hu => ?_,
      fun hx => by cases hx⟩
    rw [hc] at hu
    cases hu
  · refine ⟨hb, ?_, .inr ⟨hr, hne, hcv⟩⟩
    rw [show after (k.cvLoop p g i).1 .cmWait = .cmCopy from if_pos hr]
    exact ⟨hused, .inl hc, fun hx => (by cases hx), fun hx => (by cases hx)⟩

/-- `mutex_unlock`. -/
theorem place_unlock (hx : x = .cmUnlock ∨ x = .unlock) (h : Place g k p x) (hpid : PidInv k.sched)
    (hp : k.inUser p) (hh : k.handle p m = some (i, g)) :
    Beside k (k.mutexUnlock p m).2 p g ∧ Place g (k.mutexUnlock p m).2 p x.next := by
  obtain ⟨hb, hc⟩ := mutexUnlock_beside hh
  have hno := mutexUnlock_not_owns hpid hp.1 fun _ => ⟨i, hh⟩
  refine ⟨hb, ?_, .inl ((hc p).trans hp.2), fun hx' => ?_, fun _ => hno⟩
  · rw [Ne, (hb.still.sched.entry p).unused]
    exact h.used
  · rcases hx with rfl | rfl <;> cases hx'

/-- `cv_signal`. -/
theorem place_signal (h : Place g k p .signal) (hp : k.inUser p) (hh : k.handle p m = some (i, g)) :
    Beside k (k.cvSignal p m).2 p g ∧ Place g (k.cvSignal p m).2 p .unlock ∧
      ((k.cvSignal p m).2.mux.mutexes g).cvCount = (k.mux.mutexes g).cvCount + 1 := by
  have hholds := h.holds rfl hp.2
  obtain ⟨hb, hc, hslp, hcv⟩ := cvSignal_spec hh (congrArg SleepLock.pid hholds)
  refine ⟨hb, ⟨?_, .inl ((hc p).trans hp.2), fun _ _ => ?_, fun hx => by cases hx⟩, hcv⟩
  · rw [Ne, (hb.still.sched.entry p).unused]
    exact h.used
  · unfold Holds
    rw [hslp, hb.pid]
    exact hholds

/-! ### Where the command is -/

/-- Who has the command that is not copied out yet: a client that has written and not signalled it,
the mutex with its pending signal, or the manager. -/
inductive Carrier where
  | nobody
  | client (p : Slot)
  | mutex
  | manager (p : Slot)
  deriving DecidableEq

/-- At most one command is not copied out, and it is in the segment. -/
structure Carries (g : Mid) (w : Requests) (c : Carrier) : Prop where
  lists : if c = .nobody then w.copied = w.sent else w.sent = w.copied ++ [w.shm]
  cvCount : (w.kernel.mux.mutexes g).cvCount = if c = .mutex then 1 else 0
  signal : ∀ q, w.pc q = .signal ↔ c = .client q
  copy : ∀ q, w.pc q = .cmCopy ↔ c = .manager q

/-- A step that does not move the command. -/
theorem Carries.aside (h : Carries g w c)
    (hcv : (k'.mux.mutexes g).cvCount = (w.kernel.mux.mutexes g).cvCount)
    (hs : x = .signal ↔ w.pc p = .signal) (hc : x = .cmCopy ↔ w.pc p = .cmCopy) :
    Carries g { w with kernel := k', pc := update w.pc p x } c where
  lists := h.lists
  cvCount := hcv.trans h.cvCount
  signal q := by
    dsimp only
    by_cases e : q = p
    · subst e; rw [update_self, hs]; exact h.signal q
    · rw [update_of_ne e]; exact h.signal q
  copy q := by
    dsimp only
    by_cases e : q = p
    · subst e; rw [update_self, hc]; exact h.copy q
    · rw [update_of_ne e]; exact h.copy q

/-- `p` passes the command on, or takes it. -/
theorem Carries.pass {c' : Carrier} {shm : CStr} {sent copied : List CStr} (h : Carries g w c)
    (hlists : if c' = .nobody then copied = sent else sent = copied ++ [shm])
    (hcv : (k'.mux.mutexes g).cvCount = if c' = .mutex then 1 else 0)
    (hs : x = .signal ↔ c' = .client p) (hc : x = .cmCopy ↔ c' = .manager p)
    (hother : ∀ q, q ≠ p → c ≠ .client q ∧ c' ≠ .client q ∧ c ≠ .manager q ∧ c' ≠ .manager q) :
    Carries g ⟨k', update w.pc p x, shm, sent, copied⟩ c' where
  lists := hlists
  cvCount := hcv
  signal q := by
    dsimp only
    by_cases e : q = p
    · subst e; rw [update_self]; exact hs
    · rw [update_of_ne e, h.signal q]
      exact iff_of_false (hother q e).1 (hother q e).2.1
  copy q := by
    dsimp only
    by_cases e : q = p
    · subst e; rw [update_self]; exact hc
    · rw [update_of_ne e, h.copy q]
      exact iff_of_false (hother q e).2.2.1 (hother q e).2.2.2

/-- The invariant. -/
def Inv (g : Mid) (muxid : Slot → Int) (cm : Slot) (w : Requests) : Prop :=
  Core g muxid cm w.kernel w.pc ∧ ∃ c, Carries g w c

theorem kernelCall_eq_ok {op : Op} (h : w.kernelCall p op = .ok w') :
    ∃ r k', w.kernel.step op = .ok (r, k') ∧
      w' = { w with kernel := k', pc := update w.pc p (after r (w.pc p)) } := by
  obtain ⟨⟨r, k'⟩, hs, h⟩ := of_bind h
  cases h
  exact ⟨r, k', hs, by rw [update_after]⟩

theorem after_ne {r : Option Int} (hx : x ≠ .signal ∧ x ≠ .cmCopy)
    (hn : x.next ≠ .signal ∧ x.next ≠ .cmCopy) :
    (after r x = .signal ↔ x = .signal) ∧ (after r x = .cmCopy ↔ x = .cmCopy) := by
  unfold after
  split
  · exact ⟨iff_of_false hn.1 hx.1, iff_of_false hn.2 hx.2⟩
  · exact ⟨.rfl, .rfl⟩

/-- A process locks the mutex, or goes on with that. -/
theorem inv_lock (hi : Inv g muxid cm w) (hparty : Party g muxid w.kernel p)
    (hp : (w.kernel.sched.proc p).state = .running)
    (hx : w.pc p = .cmLock ∨ ∃ cmd, w.pc p = .lock cmd) : Inv g muxid cm { w with
      kernel := (w.kernel.acquiresleep p g).2
      pc := update w.pc p (after (w.kernel.acquiresleep p g).1 (w.pc p)) } := by
  obtain ⟨hcore, c, hc⟩ := hi
  have hpl := hcore.place p hparty
  obtain ⟨hb, hpl'⟩ := place_lock hx hpl hp
  have hne : (w.pc p ≠ .signal ∧ w.pc p ≠ .cmCopy) ∧
      ((w.pc p).next ≠ .signal ∧ (w.pc p).next ≠ .cmCopy) := by
    rcases hx with h | ⟨cmd, h⟩ <;> rw [h] <;> simp [ReqPc.next]
  obtain ⟨hs, hcp⟩ := after_ne (r := (w.kernel.acquiresleep p g).1) hne.1 hne.2
  exact ⟨hcore.call hb hpl.used hpl' (isCm_after _ _),
    c, hc.aside ((sameCv_locks p).acquiresleep g hp g) hs hcp⟩

/-- The manager waits, or goes on with that. -/
theorem inv_wait (hi : Inv g muxid cm w) (hparty : Party g muxid w.kernel p)
    (hp : (w.kernel.sched.proc p).state = .running) (hx : w.pc p = .cmWait)
    (hh : w.kernel.handle p i.val = some (i, g)) : Inv g muxid cm { w with
      kernel := (w.kernel.cvLoop p g i).2
      pc := update w.pc p (after (w.kernel.cvLoop p g i).1 (w.pc p)) } := by
  obtain ⟨hcore, c, hc⟩ := hi
  have hpl := hcore.place p hparty
  rw [hx] at hpl
  obtain ⟨hb, hpl', hcase⟩ := place_wait hpl hp hh
  refine ⟨hcore.call hb hpl.used (by rw [hx]; exact hpl') (isCm_after _ _), ?_⟩
  rcases hcase with ⟨hr, hcv⟩ | ⟨hr, hne, hcv⟩
  · rw [hr]
    exact ⟨c, hc.aside hcv .rfl .rfl⟩
  -- the signal that is taken is the one of the command in the segment
  have hm : c = .mutex := by
    by_contra hm
    rw [hc.cvCount, if_neg hm] at hne
    exact hne rfl
  subst hm
  have hcopy : after (w.kernel.cvLoop p g i).1 (w.pc p) = .cmCopy := by
    rw [hx]
    exact if_pos hr
  rw [hcopy]
  refine ⟨.manager p, hc.pass ?_ ?_ ?_ ?_ fun q hq => ?_⟩
  · exact hc.lists
  · rw [hcv, hc.cvCount]; rfl
  · simp
  · simp
  · simp [Ne.symm hq]

theorem mutexLock_eq (hh : k.handle p m = some (i, g)) (ho : ¬ k.owns p g) :
    k.mutexLock p m = k.acquiresleep p g := by
  unfold mutexLock
  rw [hh]
  exact if_neg ho

section

variable (hi : Inv g muxid cm w) (hparty : Party g muxid w.kernel p) (hp : w.kernel.inUser p)

include hi hparty hp

theorem inv_lockCall (hx : w.pc p = .cmLock ∨ ∃ cmd, w.pc p = .lock cmd)
    (hs : w.kernelCall p (.mutexLock p (muxid p)) = .ok w') : Inv g muxid cm w' := by
  have hpl := hi.1.place p hparty
  obtain ⟨i, hh⟩ := id hparty
  have hout : (w.pc p).outside = true := by rcases hx with h | ⟨cmd, h⟩ <;> rw [h] <;> rfl
  have h := inv_lock hi hparty hp.1 hx
  rw [← mutexLock_eq hh (hpl.outside hout)] at h
  obtain ⟨r, k', hstep, rfl⟩ := kernelCall_eq_ok hs
  rw [← fst_of_ok hstep, ← snd_of_ok hstep]
  exact h

theorem inv_unlockCall (hx : w.pc p = .cmUnlock ∨ w.pc p = .unlock)
    (hs : w.kernelCall p (.mutexUnlock p (muxid p)) = .ok w') : Inv g muxid cm w' := by
  obtain ⟨hcore, c, hc⟩ := hi
  have hpl := hcore.place p hparty
  obtain ⟨i, hh⟩ := id hparty
  obtain ⟨r, k', hstep, rfl⟩ := kernelCall_eq_ok hs
  cases hstep
  obtain ⟨hb, hpl'⟩ := place_unlock hx hpl hcore.pids hp hh
  refine ⟨hcore.call hb hpl.used hpl' (isCm_next _), c,
    hc.aside ((sameCv_locks p).mutexUnlock _ p _ g) ?_ ?_⟩
  · rcases hx with h | h <;> rw [h] <;> simp [after, ReqPc.next]
  · rcases hx with h | h <;> rw [h] <;> simp [after, ReqPc.next]

/-- The client signals: the command passes to the mutex. -/
theorem inv_signalCall (hx : w.pc p = .signal)
    (hs : w.kernelCall p (.cvSignal p (muxid p)) = .ok w') : Inv g muxid cm w' := by
  obtain ⟨hcore, c, hc⟩ := hi
  have hpl := hcore.place p hparty
  obtain ⟨i, hh⟩ := id hparty
  obtain ⟨r, k', hstep, rfl⟩ := kernelCall_eq_ok hs
  cases hstep
  rw [hx] at hpl
  obtain ⟨hb, hpl', hcv⟩ := place_signal hpl hp hh
  obtain rfl := (hc.signal p).mp hx
  refine ⟨hcore.call hb hpl.used (by rw [hx]; exact hpl') (isCm_after _ _), .mutex, ?_⟩
  rw [hx]
  refine hc.pass hc.lists ?_ (by simp [after, ReqPc.next]) (by simp [after, ReqPc.next])
    fun q hq => by simp [Ne.symm hq]
  exact hcv.trans (by rw [hc.cvCount]; rfl)

theorem inv_waitCall (hx : w.pc p = .cmWait)
    (hs : w.kernelCall p (.cvWait p (muxid p)) = .ok w') : Inv g muxid cm w' := by
  have hpl := hi.1.place p hparty
  obtain ⟨i, hh⟩ := id hparty
  have ho : w.kernel.owns p g :=
    congrArg SleepLock.pid (hpl.holds (by rw [hx]; rfl) hp.2)
  obtain ⟨r, k', hstep, rfl⟩ := kernelCall_eq_ok hs
  simp only [Kernel.step, cvWait, hh, if_pos ho] at hstep
  split at hstep
  · have hh' : w.kernel.handle p i.val = some (i, g) := by rw [(handle_eq_some hh).1]; exact hh
    have h := inv_wait hi hparty hp.1 hx hh'
    rw [← fst_of_ok hstep, ← snd_of_ok hstep]
    exact h
  · cases hstep

end

/-- A statement that is no system call. -/
theorem Core.local (h : Core g muxid cm k pc) (hparty : Party g muxid k p) (hp : k.inUser p)
    (hh : x.holding = true → (pc p).holding = true) (ho : x.outside = true → (pc p).outside = true)
    (hr : x.isCm = (pc p).isCm) : Core g muxid cm k (update pc p x) := by
  have hpl := h.place p hparty
  exact h.call ⟨.refl _, fun _ _ => rfl, .same rfl⟩ hpl.used
    ⟨hpl.used, .inl hp.2, fun hx hc => hpl.holds (hh hx) hc, fun hx => hpl.outside (ho hx)⟩ hr

section

variable (hi : Inv g muxid cm w) (hparty : Party g muxid w.kernel p) (hp : w.kernel.inUser p)

include hi hparty hp

/-- The manager copies the command out. -/
theorem inv_copy (hx : w.pc p = .cmCopy) : Inv g muxid cm { w with
      pc := update w.pc p .cmUnlock
      copied := w.copied ++ [w.shm] } := by
  obtain ⟨hcore, c, hc⟩ := hi
  obtain rfl := (hc.copy p).mp hx
  refine ⟨hcore.local hparty hp (fun h => by cases h) (fun h => by cases h) (by rw [hx]; rfl),
    .nobody, hc.pass ?_ ?_ (by simp) (by simp) fun q hq => by simp [Ne.symm hq]⟩
  · have hl : w.sent = w.copied ++ [w.shm] := hc.lists
    exact hl.symm
  · exact hc.cvCount

/-- A client writes its command. -/
theorem inv_write {cmd : CStr} (hx : w.pc p = .write cmd) (hok : w.copied.length = w.sent.length) :
    Inv g muxid cm { w with
      pc := update w.pc p .signal
      shm := cmd
      sent := w.sent ++ [cmd] } := by
  obtain ⟨hcore, c, hc⟩ := hi
  -- all commands have been copied out
  have hn : c = .nobody := by
    by_contra hn
    have hl := hc.lists
    rw [if_neg hn] at hl
    rw [hl, List.length_append] at hok
    simp at hok
  subst hn
  have hl : w.copied = w.sent := hc.lists
  refine ⟨hcore.local hparty hp (fun _ => by rw [hx]; rfl) (fun h => by cases h) (by rw [hx]; rfl),
    .client p, hc.pass ?_ ?_ (by simp) (by simp) fun q hq => by simp [Ne.symm hq]⟩
  · rw [hl]
    exact rfl
  · exact hc.cvCount

/-- A statement that touches neither the mutex nor the segment. -/
theorem inv_quiet (hout : (w.pc p).outside = true) (hx : x.outside = true)
    (hr : x.isCm = (w.pc p).isCm) : Inv g muxid cm { w with pc := update w.pc p x } := by
  obtain ⟨hcore, c, hc⟩ := hi
  have hfalse : ∀ y : ReqPc, y.outside = true → y ≠ .signal ∧ y ≠ .cmCopy := by
    intro y hy
    cases y <;> simp [ReqPc.outside] at hy ⊢
  refine ⟨hcore.local hparty hp (fun h => ?_) (fun _ => hout) hr, c,
    hc.aside rfl (iff_of_false (hfalse x hx).1 (hfalse _ hout).1)
      (iff_of_false (hfalse x hx).2 (hfalse _ hout).2)⟩
  cases x <;> simp [ReqPc.outside, ReqPc.holding] at hx h

/-- **One statement.** -/
theorem inv_statement (hok : ∀ cmd, w.pc p = .write cmd → w.copied.length = w.sent.length)
    (hs : w.statement p (muxid p) = .ok w') : Inv g muxid cm w' := by
  unfold statement at hs
  cases hx : w.pc p with
  | cmLock => simp only [hx, ReqPc.call] at hs; exact inv_lockCall hi hparty hp (.inl hx) hs
  | cmWait => simp only [hx, ReqPc.call] at hs; exact inv_waitCall hi hparty hp hx hs
  | cmCopy =>
    simp only [hx, ReqPc.call] at hs
    cases hs
    exact inv_copy hi hparty hp hx
  | cmUnlock => simp only [hx, ReqPc.call] at hs; exact inv_unlockCall hi hparty hp (.inl hx) hs
  | cmWork | idle =>
    simp only [hx, ReqPc.call] at hs
    cases hs
    exact inv_quiet hi hparty hp (by rw [hx]; rfl) rfl (by rw [hx]; rfl)
  | lock cmd =>
    simp only [hx, ReqPc.call] at hs
    exact inv_lockCall hi hparty hp (.inr ⟨cmd, hx⟩) hs
  | write cmd =>
    simp only [hx, ReqPc.call] at hs
    cases hs
    exact inv_write hi hparty hp hx (hok cmd hx)
  | signal => simp only [hx, ReqPc.call] at hs; exact inv_signalCall hi hparty hp hx hs
  | unlock => simp only [hx, ReqPc.call] at hs; exact inv_unlockCall hi hparty hp (.inr hx) hs

end

/-- Processes are interrupted and scheduled. -/
theorem inv_sched {s : Sched} (hi : Inv g muxid cm w) (hk : Sched.Keep w.kernel.sched s)
    (hctx : ∀ q, (s.proc q).context = (w.kernel.sched.proc q).context) :
    Inv g muxid cm { w with kernel := { w.kernel with sched := s } } := by
  obtain ⟨hcore, c, hc⟩ := hi
  have hpid : ∀ q, (s.proc q).pid = w.kernel.pid q := fun q => (hk.entry q).pid
  refine ⟨⟨hcore.pids.keep hk, fun p hp => ?_, hcore.role⟩, c, ⟨hc.lists, hc.cvCount, hc.signal,
    hc.copy⟩⟩
  have hpl := hcore.place p hp
  refine ⟨?_, ?_, fun hx hu => ?_, fun hx ho => hpl.outside hx ?_⟩
  · dsimp only
    rw [Ne, (hk.entry p).unused]
    exact hpl.used
  · dsimp only
    rw [hctx]
    exact hpl.context
  · dsimp only at hu
    rw [hctx] at hu
    unfold Holds Kernel.pid
    dsimp only
    rw [hpid]
    exact hpl.holds hx hu
  · unfold owns at ho ⊢
    exact ho.trans (hpid p)

/-- **One step.** -/
theorem inv_step {op : ReqOp} (hi : Inv g muxid cm w) (hs : Step g muxid w op w')
    (hok : CopiedFirst w op) : Inv g muxid cm w' := by
  obtain ⟨he, hs⟩ := hs
  cases op with
  | begin p cmd =>
    cases hs
    exact inv_quiet hi he.1 he.2.1 (by rw [he.2.2]; rfl) rfl (by rw [he.2.2]; rfl)
  | call p => exact inv_statement hi he.1 he.2 hok hs
  | resume p =>
    obtain ⟨hparty, hrun, hctx⟩ := he
    obtain ⟨r, k', hstep, rfl⟩ := kernelCall_eq_ok hs
    rcases (hi.1.place p hparty).context with hc | ⟨hc, hx⟩ | ⟨i, hc, hh, hx⟩
    · exact absurd hc hctx
    · simp only [Kernel.step, resume, hc] at hstep
      rw [← fst_of_ok hstep, ← snd_of_ok hstep]
      exact inv_lock hi hparty hrun hx
    · simp only [Kernel.step, resume, hc] at hstep
      rw [← fst_of_ok hstep, ← snd_of_ok hstep]
      exact inv_wait hi hparty hrun hx hh
  | yield p =>
    cases hs
    exact inv_sched hi (calm.yield he).keep (sameContext.yield he)
  | scheduler =>
    obtain ⟨⟨r, k'⟩, hstep, hs⟩ := of_bind hs
    cases hs
    obtain ⟨⟨c, s⟩, hsch, hstep⟩ := of_bind hstep
    cases hstep
    exact inv_sched hi (keep_scheduler hsch) (sameContext.scheduler Frame.context hsch)

/-! ### Runs -/

theorem inv_init {m : Kmem} {t₀ : List (Kernel × Op)} (hr₀ : Run Kernel.Step (boot m) t₀ k)
    (hk : Ready g muxid k) (shm : CStr) : Inv g muxid cm (init k cm shm) := by
  have hpids := (hr₀.inv_all (I := fun k => PidInv k.sched) (fun _ _ _ h hs => pidInv_step h hs)
    PidInv.pinit).2
  refine ⟨⟨hpids, fun p hp => ?_, fun p hp => ?_⟩, .nobody, rfl, hk.cvCount, fun q => ?_,
    fun q => ?_⟩
  · obtain ⟨hlive, hctx⟩ := hk.user p hp
    refine ⟨hlive.1, .inl hctx, fun hx => ?_, fun _ ho => ?_⟩
    · simp only [init] at hx
      split at hx <;> cases hx
    · have hpos := hpids.pos p hlive.1
      unfold owns at ho
      rw [show (init k cm shm).kernel = k from rfl, hk.slp] at ho
      dsimp only [Kernel.pid] at ho
      omega
  · simp only [init] at hp
    split at hp
    · next e => exact e
    · cases hp
  · simp only [init]
    split <;> simp
  · simp only [init]
    split <;> simp

theorem Inv.delivered (hi : Inv g muxid cm w) : Delivered g w := by
  obtain ⟨-, c, hc⟩ := hi
  by_cases hn : c = .nobody
  · subst hn
    have hl : w.copied = w.sent := hc.lists
    exact ⟨hl ▸ List.Subperm.refl _, fun _ => hl ▸ List.Perm.refl _⟩
  have hl := hc.lists
  rw [if_neg hn] at hl
  refine ⟨hl ▸ (List.sublist_append_left _ _).subperm, fun hnone => ?_⟩
  exfalso
  cases c with
  | nobody => exact hn rfl
  | client p => exact (hnone.1 p).1 ((hc.signal p).mpr rfl)
  | mutex =>
    have := hc.cvCount
    rw [hnone.2] at this
    cases this
  | manager p => exact (hnone.1 p).2 ((hc.copy p).mpr rfl)

/-- **Requests are delivered**, if a client writes only when all commands before have been copied
out.  From every kernel in which the mutex is free and has no signal, in every run of the manager
and of any number of clients, in every state: what the manager has copied out was sent, not more
often than it was sent, and when nothing is pending everything sent has been copied out once. -/
theorem requests_delivered {m : Kmem} {t₀ : List (Kernel × Op)} {t : List (Requests × ReqOp)}
    {shm : CStr} (hr₀ : Run Kernel.Step (boot m) t₀ k) (hk : Ready g muxid k)
    (hr : Run (Step g muxid) (init k cm shm) t w) (hok : ∀ x ∈ t, CopiedFirst x.1 x.2) :
    (∀ x ∈ t, Delivered g x.1) ∧ Delivered g w := by
  have h := hr.inv (I := Inv g muxid cm)
    (fun w op _ hi hs (hok : CopiedFirst w op) => inv_step hi hs hok) (inv_init hr₀ hk shm) hok
  exact ⟨fun x hx => (h.1 x hx).delivered, h.2.delivered⟩

instance (g : Mid) (muxid : Slot → Int) (k : Kernel) (p : Slot) : Decidable (Party g muxid k p) :=
  inferInstanceAs (Decidable (∃ i, k.handle p (muxid p) = some (i, g)))

instance (g : Mid) (muxid : Slot → Int) (w : Requests) : DecidablePred (Enabled g muxid w) :=
  fun op => by rcases op <;> dsimp only [Enabled] <;> infer_instance

instance (w : Requests) : DecidablePred (CopiedFirst w) := fun op => by
  cases op with
  | call p =>
    cases h : w.pc p with
    | write _ =>
      exact decidable_of_iff (w.copied.length = w.sent.length) ⟨fun e _ _ => e, fun e => e _ h⟩
    | _ => exact isTrue fun _ e => by rw [h] at e; cases e
  | _ => exact isTrue trivial

/-- `Step` as a function. -/
def exec? (g : Mid) (muxid : Slot → Int) (w : Requests) (op : ReqOp) : Option Requests :=
  if Enabled g muxid w op then (w.step muxid op).toOption else none

theorem step_of_exec? (g : Mid) (muxid : Slot → Int) (w : Requests) (op : ReqOp) (w' : Requests)
    (h : exec? g muxid w op = some w') : Step g muxid w op w' := by
  unfold exec? at h
  split at h
  · next he =>
    exact ⟨he, toOption_eq_some.mp h⟩
  · cases h

/-- The manager makes the mutex and two clients get handles of it. -/
def threeParties : List Op :=
  [.allocFirst, .userinit 0, .scheduler, .mutexCreate 0 [114], .fork2 0 (-1), .scheduler,
    .fork2 0 (-1), .scheduler]

/-- Their handles are numbered 0. -/
def handleZero (p : Slot) : Int := if p.val < 3 then 0 else -1

/-- A client sends `cmd`. -/
def sendOps (p : Slot) (cmd : CStr) : List ReqOp :=
  [.begin p cmd, .call p, .call p, .call p, .call p]

/-- The manager waits; each client sends, and the manager copies before the next. -/
def turnOps : List ReqOp :=
  [.call 0, .call 0] ++ sendOps 1 [97] ++ [.scheduler, .resume 0, .call 0, .call 0, .call 0] ++
    sendOps 2 [98] ++ [.call 0, .call 0, .call 0]

/-- Both clients send before the manager runs again. -/
def rushOps : List ReqOp :=
  [.call 0, .call 0] ++ sendOps 1 [97] ++ sendOps 2 [98] ++
    [.scheduler, .resume 0, .call 0, .call 0, .call 0, .call 0, .call 0, .call 0]

/-- The clients send in turn, and both commands arrive. -/
theorem requests_delivered_turns : ∃ k t w, Run (Step 0 handleZero) (init k 0 []) t w ∧
    w.copied = [[97], [98]] ∧ (∀ x ∈ t, Delivered 0 x.1) ∧ Delivered 0 w := by
  obtain ⟨k, hr₀, hk, hok, hrun⟩ := exists_run Kernel.step_of_exec? (boot threeMem) threeParties
    (fun k => ((k.mux.mutexes 0).slp = ⟨false, 0⟩ ∧ (k.mux.mutexes 0).cvCount = 0 ∧
        ∀ p, Party 0 handleZero k p → (k.sched.proc p).Live ∧ (k.sched.proc p).context = .user) ∧
      (∀ x ∈ traceFn (exec? 0 handleZero) (init k 0 []) turnOps, CopiedFirst x.1 x.2) ∧
      (runFn (exec? 0 handleZero) (init k 0 []) turnOps).any
        (fun w => w.copied = [[97], [98]]) = true) (by decide +kernel)
  obtain ⟨w, hr, hw⟩ := exists_run (step_of_exec? 0 handleZero) (init k 0 []) turnOps
    (fun w => w.copied = [[97], [98]]) hrun
  exact ⟨k, _, w, hr, hw, requests_delivered hr₀ ⟨hk.1, hk.2.1, hk.2.2⟩ hr hok⟩

/-- **A request is lost and another repeated.**  Two clients send `a` and `b` before the manager,
which waits, runs again: it copies `b` out twice. -/
theorem request_lost : ∃ t₀ k t w, Run Kernel.Step (boot threeMem) t₀ k ∧ Ready 0 handleZero k ∧
    Run (Step 0 handleZero) (init k 0 []) t w ∧ w.sent = [[97], [98]] ∧
    w.copied = [[98], [98]] ∧ ¬ Delivered 0 w := by
  obtain ⟨k, hr₀, hk, hrun⟩ := exists_run Kernel.step_of_exec? (boot threeMem) threeParties
    (fun k => ((k.mux.mutexes 0).slp = ⟨false, 0⟩ ∧ (k.mux.mutexes 0).cvCount = 0 ∧
        ∀ p, Party 0 handleZero k p → (k.sched.proc p).Live ∧ (k.sched.proc p).context = .user) ∧
      (runFn (exec? 0 handleZero) (init k 0 []) rushOps).any
        (fun w => w.sent = [[97], [98]] ∧ w.copied = [[98], [98]]) = true) (by decide +kernel)
  obtain ⟨w, hr, hs, hc⟩ := exists_run (step_of_exec? 0 handleZero) (init k 0 []) rushOps
    (fun w => w.sent = [[97], [98]] ∧ w.copied = [[98], [98]]) hrun
  refine ⟨_, k, _, w, hr₀, ⟨hk.1, hk.2.1, hk.2.2⟩, hr, hs, hc, fun hd => ?_⟩
  have h := hd.1.count_le [98]
  rw [hs, hc] at h
  revert h
  decide

end Requests

end Xv6
