import Xv6.Lib.Lock
import Xv6.Kernel.ForkFail
import Xv6.Kernel.Signals

/-!
# Kernel — CvSections

`cv_wait` and `cv_signal` step by step, with the spin lock of the mutex and `ptable.lock` as part of
the state.  Each step ends where a lock is taken or let go:

* `cv_wait` takes the spin lock and looks at `cv_count`.  It lowers it and lets go of the lock, or
  it unlocks the mutex and calls `sleep`, which takes `ptable.lock` *before* it lets go of the spin
  lock, and lets go of `ptable.lock` when the process is SLEEPING.  When it runs again it takes the
  spin lock and looks again.
* `cv_signal` raises `cv_count` under the spin lock and wakes the sleepers under `ptable.lock`
  before it lets go of the spin lock.

`CvPlace` says where in these two functions a process is.  The other calls are one section each.

* `no_lost_signal`: whenever the spin lock of a mutex is free and its `cv_count` is positive, nobody
  sleeps on the mutex, as long as `cv_wait` is called by processes with a pid below `NPROC`.
* `cvWait_overruns`: `cv_wait` writes `waiting_procs[pid]` without a check.  Here, unlike in
  `System.lean`, the words after the array are written where they lie in `mutexes`.
-/

namespace Xv6

open Lib Function Sched

/-- `p` sleeps on `chan`. -/
def Sched.SleepsOn (s : Sched) (chan : Chan) (p : Slot) : Prop :=
  (s.proc p).state = .sleeping ∧ (s.proc p).chan = some chan

instance (s : Sched) (chan : Chan) (p : Slot) : Decidable (s.SleepsOn chan p) :=
  inferInstanceAs (Decidable (_ ∧ _))

/-- Where a process is in `cv_wait` or `cv_signal` on `g`, under the handle number `i`. -/
inductive CvPlace where
  | outside
  /-- `cv_wait` has checked its argument and waits for the spin lock -/
  | wait (g : Mid) (i : Fin MUX_MAXNUM)
  /-- it holds the spin lock, before it looks at `cv_count` -/
  | look (g : Mid) (i : Fin MUX_MAXNUM)
  /-- it has lowered `cv_count` and still holds the spin lock -/
  | took (g : Mid)
  /-- it has unlocked the mutex, holds the spin lock, and waits for `ptable.lock` in `sleep` -/
  | sleep (g : Mid) (i : Fin MUX_MAXNUM)
  /-- it holds both locks -/
  | both (g : Mid) (i : Fin MUX_MAXNUM)
  /-- it has let go of the spin lock and holds `ptable.lock` -/
  | handed (g : Mid) (i : Fin MUX_MAXNUM)
  /-- `cv_signal` has checked its argument and waits for the spin lock -/
  | signal (g : Mid)
  /-- it holds the spin lock -/
  | raise (g : Mid)
  /-- it has raised `cv_count`, holds the spin lock, and waits for `ptable.lock` in `wakeup` -/
  | raised (g : Mid)
  /-- it has woken the sleepers and still holds the spin lock -/
  | woke (g : Mid)
  deriving DecidableEq

namespace CvPlace

/-- The mutex whose spin lock is held. -/
def spin : CvPlace → Option Mid
  | .look g _ | .took g | .sleep g _ | .both g _ | .raise g | .raised g | .woke g => some g
  | .outside | .wait _ _ | .handed _ _ | .signal _ => none

/-- Is `ptable.lock` held? -/
def ptable : CvPlace → Bool
  | .both _ _ | .handed _ _ => true
  | _ => false

/-- Interrupts are on: no lock is held. -/
def open? (pl : CvPlace) : Bool := pl.spin = none ∧ pl.ptable = false

end CvPlace

/-- The kernel, the holders of the spin locks of the mutexes and of `ptable.lock`, and where each
process is. -/
structure CvFine where
  kernel : Kernel
  spin : Mid → Option Slot
  ptable : Option Slot
  place : Slot → CvPlace

/-- A step. -/
inductive CvOp where
  /-- one section of another call, or of the scheduler -/
  | call (op : Kernel.Op)
  /-- `cv_wait(muxid)` is called by `p` -/
  | wait (p : Slot) (muxid : Int)
  /-- `cv_signal(muxid)` is called by `p` -/
  | signal (p : Slot) (muxid : Int)
  /-- `p`, which was woken in `cv_wait`, takes the spin lock again -/
  | again (p : Slot)
  /-- the next step of `p` -/
  | next (p : Slot)
  deriving DecidableEq

namespace CvFine

open Kernel

/-- `p` moves to another place. -/
def put (f : CvFine) (p : Slot) (pl : CvPlace) : CvFine :=
  { f with place := update f.place p pl }

/-- `acquire` and `release` of the spin lock of `g`. -/
def setSpin (f : CvFine) (g : Mid) (v : Option Slot) : CvFine :=
  { f with spin := update f.spin g v }

/-- `acquire` and `release` of `ptable.lock`. -/
def setPtable (f : CvFine) (v : Option Slot) : CvFine := { f with ptable := v }

def setKernel (f : CvFine) (k : Kernel) : CvFine := { f with kernel := k }

/-- `mutexes[g].cv_count += d`. -/
def addCv (k : Kernel) (g : Mid) (d : Int) : Kernel :=
  { k with mux := k.mux.upd g fun e => { e with cvCount := e.cvCount + d } }

/-- The value 1 written to the word `w` of the array `mutexes`.  A mutex has 127 words: `name` (32),
`count`, `waiting_procs` (64), `cv_count`, `slp.locked`, `slp.lk` (13), `slp.name`, `slp.pid` and
`spin` (13).  The other fields than these five stop the model: a name, a spin lock. -/
def writeWord (k : Kernel) (w : Int) : Res Kernel :=
  if h : 0 ≤ w ∧ w < 127 * MUX_MAXNUM then
    let upd := fun e => .ok { k with mux := k.mux.upd ⟨(w / 127).toNat, by omega⟩ e }
    if w % 127 = 32 then upd fun e => { e with count := 1 }
    else if 33 ≤ w % 127 ∧ w % 127 < 97 then .ok k
    else if w % 127 = 97 then upd fun e => { e with cvCount := 1 }
    else if w % 127 = 98 then upd fun e => { e with slp := { e.slp with locked := true } }
    else if w % 127 = 113 then upd fun e => { e with slp := { e.slp with pid := 1 } }
    else .error (.fault "cv_wait: waiting_procs overruns")
  else .error (.fault "cv_wait: waiting_procs overruns mutexes")

/-- `mutexes[g].waiting_procs[curproc->pid] = 1`: there is no check of the index. -/
def mark (k : Kernel) (p : Slot) (g : Mid) : Res Kernel :=
  writeWord k (127 * g.val + 33 + k.pid p)

/-- The calls that may happen beside `cv_wait` and `cv_signal`. -/
def allowed (f : CvFine) : Op → Prop
  | .mutexLock p _ | .mutexUnlock p _ | .kill p _ => f.place p = .outside
  | .resume p =>
    f.place p = .outside ∧ ∃ g, (f.kernel.sched.proc p).context = .acquiresleep g
  -- a clock interrupt
  | .yield p => (f.place p).open? = true
  | .scheduler => True
  | _ => False

/-- Does the section take `ptable.lock`?  `mutex_lock` does when it sleeps, `mutex_unlock` to wake
the sleepers. -/
def takesPtable (k : Kernel) : Op → Prop
  | .mutexLock p muxid => (k.mutexLock p muxid).1 = none
  | .mutexUnlock p muxid => (k.mutexUnlock p muxid).1 = 0
  | _ => True

/-- Is the lock that the next step of `p` takes free? -/
def ready (f : CvFine) (p : Slot) : CvPlace → Prop
  | .outside => False
  | .wait g _ | .signal g => f.spin g = none
  | .look g i => (f.kernel.mux.mutexes g).cvCount = 0 →
      takesPtable f.kernel (.mutexUnlock p i.val) → f.ptable = none
  | .sleep _ _ | .raised _ => f.ptable = none
  | .took _ | .both _ _ | .handed _ _ | .raise _ | .woke _ => True

/-- When a step can be made. -/
def Enabled (f : CvFine) : CvOp → Prop
  | .call op => f.kernel.Enabled op ∧ f.allowed op ∧ (takesPtable f.kernel op → f.ptable = none)
  | .wait p _ | .signal p _ => f.kernel.inUser p ∧ f.place p = .outside
  | .again p => (f.kernel.sched.proc p).state = .running ∧ f.place p = .outside ∧
      ∃ g i, (f.kernel.sched.proc p).context = .cvWait g i ∧ f.spin g = none
  | .next p => (f.kernel.sched.proc p).state = .running ∧ f.ready p (f.place p)

/-- The next step of `p` at a place. -/
def advance (f : CvFine) (p : Slot) : CvPlace → Res CvFine
  | .outside => .ok f
  | .wait g i => do
    let k ← mark f.kernel p g
    return ((f.setKernel k).setSpin g (some p)).put p (.look g i)
  | .look g i =>
    if (f.kernel.mux.mutexes g).cvCount = 0 then
      .ok ((f.setKernel (f.kernel.mutexUnlock p i.val).2).put p (.sleep g i))
    else .ok ((f.setKernel (addCv f.kernel g (-1))).put p (.took g))
  | .took g => .ok ((f.setSpin g none).put p .outside)
  | .sleep g i => .ok ((f.setPtable (some p)).put p (.both g i))
  | .both g i => .ok ((f.setSpin g none).put p (.handed g i))
  | .handed g i =>
    let k := { f.kernel with sched := f.kernel.sched.sleep p (.cv g) (.cvWait g i) }
    .ok (((f.setKernel k).setPtable none).put p .outside)
  | .signal g => .ok ((f.setSpin g (some p)).put p (.raise g))
  | .raise g => .ok ((f.setKernel (addCv f.kernel g 1)).put p (.raised g))
  | .raised g =>
    let k := { f.kernel with sched := f.kernel.sched.wakeup1 (.cv g) }
    .ok ((f.setKernel k).put p (.woke g))
  | .woke g => .ok ((f.setSpin g none).put p .outside)

/-- The state after a step. -/
def step (f : CvFine) : CvOp → Res CvFine
  | .call op => do
    let (_, k) ← f.kernel.step op
    return f.setKernel k
  | .wait p muxid =>
    match f.kernel.handle p muxid with
    | none => .ok f
    | some (i, g) => .ok (if f.kernel.owns p g then f.put p (.wait g i) else f)
  | .signal p muxid =>
    match f.kernel.handle p muxid with
    | none => .ok f
    | some (_, g) => .ok (if f.kernel.owns p g then f.put p (.signal g) else f)
  | .again p =>
    match (f.kernel.sched.proc p).context with
    | .cvWait g i =>
      .ok (((f.setKernel (f.kernel.toUser p)).setSpin g (some p)).put p (.look g i))
    | _ => .ok f
  | .next p => f.advance p (f.place p)

/-- One step. -/
def Step (f : CvFine) (op : CvOp) (f' : CvFine) : Prop := f.Enabled op ∧ f.step op = .ok f'

/-- While the spin lock of `g` is free and a signal is pending, nobody sleeps on `g`. -/
def NoLost (g : Mid) (f : CvFine) : Prop :=
  f.spin g = none → 0 < (f.kernel.mux.mutexes g).cvCount → ∀ p, ¬ f.kernel.sched.SleepsOn (.cv g) p

/-- `waiting_procs` has an element for the process that `cv_wait` marks. -/
def InRange (f : CvFine) : CvOp → Prop
  | .next p => ∀ g i, f.place p = .wait g i → 0 ≤ f.kernel.pid p ∧ f.kernel.pid p < NPROC
  | _ => True

/-- No process is in `cv_wait` or `cv_signal`, and the locks are free. -/
def quiet (k : Kernel) : CvFine := ⟨k, fun _ => none, none, fun _ => .outside⟩

/-! ### Sleepers -/

end CvFine

namespace Sched

variable {s s₁ s' : Sched} {p : Slot} {chan : Chan}

/-- Nobody sleeps on `chan` in `s'` who did not in `s`. -/
def NoNewSleeper (chan : Chan) (s s' : Sched) : Prop :=
  ∀ q, s'.SleepsOn chan q → s.SleepsOn chan q

theorem NoNewSleeper.refl (chan : Chan) (s : Sched) : NoNewSleeper chan s s := fun _ => id

theorem awake (chan : Chan) (p : Slot) : Active p (fun c _ => c ≠ chan)
    (fun _ e e' => e'.state = .sleeping ∧ e'.chan = some chan → e.state = .sleeping ∧
      e.chan = some chan) (NoNewSleeper chan) where
  trans h₁ h₂ q hq := h₁ q (h₂ q hq)
  entries h := h
  same _ _ := id
  woken _ h := by cases h.1
  killed _ _ := id
  preempted _ h := by cases h.1
  dispatched _ h := by cases h.1
  returns _ := id
  asleep hc _ h := absurd (Option.some.inj h.2) hc

/-- Who is woken does not sleep. -/
theorem wakeup1_not_sleepsOn (s : Sched) (chan : Chan) (q : Slot) :
    ¬ (s.wakeup1 chan).SleepsOn chan q := by
  intro hq
  simp only [SleepsOn, wakeup1] at hq
  split at hq
  · cases hq.1
  · next hn => exact hn hq

theorem Frame.noNewSleeper (h : Frame s s') (chan : Chan) : NoNewSleeper chan s s' := by
  intro q hq
  have hs : (s'.proc q).core.state = .sleeping ∧ (s'.proc q).core.chan = some chan := hq
  rw [h.core q] at hs
  exact hs

end Sched

namespace Kernel

variable {k k' : Kernel} {p : Slot} {g : Mid}

theorem awake_locks (g : Mid) (p : Slot) :
    Locks p fun k k' => Sched.NoNewSleeper (.cv g) k.sched k'.sched :=
  (awake (.cv g) p).locks (by simp)

/-- A process in user space stays as it is. -/
theorem toUser_eq (h : (k.sched.proc p).context = .user) : k.toUser p = k := by
  unfold toUser upd
  dsimp only
  rw [← h, update_eq_self]

theorem owns_toUser (k : Kernel) (p : Slot) (g : Mid) : (k.toUser p).owns p g ↔ k.owns p g := by
  simp only [owns, pid, toUser, upd_proc_self]

theorem releasesleep_toUser (k : Kernel) (p : Slot) (g : Mid) :
    (k.toUser p).releasesleep g = (k.releasesleep g).toUser p := by
  have h : (k.sched.upd p fun e => { e with context := .user }).wakeup1 (.slp g) =
      (k.sched.wakeup1 (.slp g)).upd p fun e => { e with context := .user } := by
    unfold wakeup1 upd
    congr 1
    funext i
    by_cases e : i = p
    · subst e
      simp only [update_self]
      split <;> rfl
    · simp only [update_of_ne e]
  simp only [releasesleep, toUser, h]

theorem mutexUnlock_toUser (k : Kernel) (p : Slot) (muxid : Int) :
    ((k.toUser p).mutexUnlock p muxid).2 = ((k.mutexUnlock p muxid).2).toUser p := by
  have hh : (k.toUser p).handle p muxid = k.handle p muxid := rfl
  unfold mutexUnlock
  rw [hh]
  split
  · rfl
  simp only [owns_toUser]
  split
  · exact releasesleep_toUser k p _
  · rfl

/-- `cv_wait` sets the context of its process when it sleeps and when it returns. -/
theorem cvLoop_toUser (k : Kernel) (p : Slot) (g : Mid) (i : Fin MUX_MAXNUM) :
    (k.toUser p).cvLoop p g i = k.cvLoop p g i := by
  have hm : (k.toUser p).mux = k.mux := rfl
  unfold cvLoop
  rw [hm, mutexUnlock_toUser]
  split
  · simp only [toUser, sleep, upd, update_self, update_idem]
  · simp only [toUser, upd, update_self, update_idem]

theorem inUser_toUser (h : (k.sched.proc p).state = .running) : (k.toUser p).inUser p := by
  simp only [inUser, toUser, upd_proc_self]
  exact ⟨h, trivial⟩

/-- `cv_wait` finds a signal. -/
theorem cvLoop_raised {i : Fin MUX_MAXNUM} (hp : k.inUser p) (hc : (k.mux.mutexes g).cvCount ≠ 0) :
    (k.cvLoop p g i).2 = CvFine.addCv k g (-1) := by
  rw [cvLoop, if_neg hc]
  exact toUser_eq (k := CvFine.addCv k g (-1)) hp.2

end Kernel

namespace CvFine

open Kernel

variable {f f' : CvFine} {p : Slot} {g : Mid} {op : CvOp} {i : Fin MUX_MAXNUM} {r : Option Int}
  {muxid : Int}

/-- A section of another call puts nobody to sleep on a mutex and does not change `cv_count`. -/
theorem call_frame {o : Op} {k' : Kernel} (he : f.kernel.Enabled o) (ha : f.allowed o)
    (hs : f.kernel.step o = .ok (r, k')) (g : Mid) :
    (k'.mux.mutexes g).cvCount = (f.kernel.mux.mutexes g).cvCount ∧
      Sched.NoNewSleeper (.cv g) f.kernel.sched k'.sched := by
  cases o <;> simp only [allowed] at ha
  case mutexLock p muxid =>
    rw [← Res.snd_of_ok hs]
    exact ⟨(sameCv_locks p).mutexLock muxid he.1 g, (awake_locks g p).mutexLock muxid he.1⟩
  case mutexUnlock p muxid =>
    cases hs
    exact ⟨(sameCv_locks p).mutexUnlock _ p muxid g, (awake_locks g p).mutexUnlock _ p muxid⟩
  case kill p pid => cases hs; exact ⟨rfl, (awake _ p).kill _ _⟩
  case yield p =>
    cases hs
    exact ⟨rfl, (awake _ p).yield he⟩
  case scheduler =>
    obtain ⟨⟨c, s⟩, h₁, hs⟩ := of_bind hs
    cases hs
    exact ⟨rfl, (awake _ 0).scheduler (fun hf => hf.noNewSleeper _) h₁⟩
  case resume p =>
    obtain ⟨-, j, hctx⟩ := ha
    simp only [Kernel.step, resume, hctx] at hs
    rw [← Res.snd_of_ok hs]
    exact ⟨(sameCv_locks p).acquiresleep j he.1 g, (awake_locks g p).acquiresleep j he.1⟩

/-! ### The invariant -/

/-- The locks are held by the processes at the places that hold them.  A process that is about to
sleep on `g` has seen `cv_count` at 0 and holds the spin lock, or has handed it over; if
`cv_count` is positive while somebody sleeps on `g` or is about to, a signaller that holds the
spin lock is about to wake them. -/
structure Inv (g : Mid) (f : CvFine) : Prop where
  spin : Holder (f.spin g) f.place fun pl => pl.spin = some g
  ptable : Holder f.ptable f.place fun pl => pl.ptable = true
  zero : ∀ p i, f.place p = .sleep g i ∨ f.place p = .both g i →
    (f.kernel.mux.mutexes g).cvCount = 0
  handed : ∀ p i, f.place p = .handed g i →
    (f.kernel.mux.mutexes g).cvCount ≤ 0 ∨ ∃ q, f.place q = .raised g
  asleep : ∀ p, f.kernel.sched.SleepsOn (.cv g) p →
    (f.kernel.mux.mutexes g).cvCount ≤ 0 ∨ ∃ q, f.place q = .raised g

variable {k : Kernel} {spin : Mid → Option Slot} {ptable : Option Slot} {l pl : CvPlace}

/-- Only `p` has moved. -/
theorem of_update {q : Slot} (hl : l ≠ pl) (h : update f.place p l q = pl) :
    q ≠ p ∧ f.place q = pl := by
  have e : q ≠ p := by rintro rfl; rw [update_self] at h; exact hl h
  rw [update_of_ne e] at h
  exact ⟨e, h⟩

theorem of_update_or {pl' : CvPlace} {q : Slot} (hl : l ≠ pl ∧ l ≠ pl')
    (h : update f.place p l q = pl ∨ update f.place p l q = pl') :
    q ≠ p ∧ (f.place q = pl ∨ f.place q = pl') :=
  h.elim (fun h => (of_update hl.1 h).imp_right .inl) fun h => (of_update hl.2 h).imp_right .inr

/-- A signaller that is about to wake the sleepers stays one when another process moves. -/
theorem raised_update (hp : f.place p ≠ .raised g) (h : ∃ q, f.place q = .raised g) :
    ∃ q, update f.place p l q = .raised g := by
  obtain ⟨q, hq⟩ := h
  refine ⟨q, ?_⟩
  have e : q ≠ p := by rintro rfl; exact hp hq
  rw [update_of_ne e, hq]

/-- A step of `p` that neither changes `cv_count` of `g` nor ends its part in a wait or a signal. -/
theorem Inv.aside (hi : Inv g f) (hp : f.place p = pl)
    (hcv : (k.mux.mutexes g).cvCount = (f.kernel.mux.mutexes g).cvCount)
    (hsl : Sched.NoNewSleeper (.cv g) f.kernel.sched k.sched) (hold : pl ≠ .raised g)
    (hnew : ∀ i, l ≠ .sleep g i ∧ l ≠ .both g i ∧ l ≠ .handed g i)
    (hspin : Holder (spin g) (update f.place p l) fun pl => pl.spin = some g)
    (hpt : Holder ptable (update f.place p l) fun pl => pl.ptable = true) :
    Inv g ⟨k, spin, ptable, update f.place p l⟩ := by
  rw [← hp] at hold
  refine ⟨hspin, hpt, fun q i hq => ?_, fun q i hq => ?_, fun q hq => ?_⟩
  · exact hcv.trans (hi.zero q i (of_update_or ⟨(hnew i).1, (hnew i).2.1⟩ hq).2)
  · dsimp only
    rw [hcv]
    exact (hi.handed q i (of_update (hnew i).2.2 hq).2).imp_right (raised_update hold)
  · dsimp only
    rw [hcv]
    exact (hi.asleep q (hsl q hq)).imp_right (raised_update hold)

/-! ### The locks -/

variable {j : Mid}

theorem Inv.takeSpin (hi : Inv g f) (hfree : f.spin j = none) (hp : f.place p = pl)
    (hold : pl.spin = none) (hnew : l.spin = some j) : Holder (update f.spin j (some p) g)
      (update f.place p l) fun pl => pl.spin = some g := by
  by_cases e : g = j
  · subst e
    rw [update_self]
    have hs := hi.spin
    rw [hfree] at hs
    exact hs.take hnew
  · rw [update_of_ne e]
    refine hi.spin.keep ?_
    rw [hp, hold, hnew]
    exact iff_of_false (fun h => e (Option.some.inj h).symm) fun h => by cases h

theorem Inv.dropSpin (hi : Inv g f) (hp : f.place p = pl) (hold : pl.spin = some j)
    (hnew : l.spin = none) :
    Holder (update f.spin j none g) (update f.place p l) fun pl => pl.spin = some g := by
  by_cases e : g = j
  · subst e
    rw [update_self]
    exact hi.spin.drop (by rw [hp, hold]) (by rw [hnew]; exact fun h => by cases h)
  rw [update_of_ne e]
  refine hi.spin.keep ?_
  rw [hp, hold, hnew]
  exact iff_of_false (fun h => by cases h) fun h => e (Option.some.inj h).symm

theorem Inv.keepSpin (hi : Inv g f) (hp : f.place p = pl) (h : l.spin = pl.spin) :
    Holder (f.spin g) (update f.place p l) fun pl => pl.spin = some g :=
  hi.spin.keep (by rw [h, hp])

theorem Inv.keepPtable (hi : Inv g f) (hp : f.place p = pl) (h : l.ptable = pl.ptable) :
    Holder f.ptable (update f.place p l) fun pl => pl.ptable = true :=
  hi.ptable.keep (by rw [h, hp])

/-- Who holds the spin lock of `g` is the only one about to sleep on it or to wake its sleepers. -/
theorem Inv.alone (hi : Inv g f) (hp : (f.place p).spin = some g)
    (hr : f.place p ≠ .raised g) : ¬ ∃ q, f.place q = .raised g := by
  rintro ⟨q, hq⟩
  have e := hi.spin.unique (p := p) (q := q) hp (by rw [hq]; rfl)
  exact hr (e ▸ hq)

theorem Inv.sleeper {q : Slot} (hi : Inv g f) (hp : (f.place p).spin = some g)
    (hq : f.place q = .sleep g i ∨ f.place q = .both g i) : q = p := by
  have hs : (f.place q).spin = some g := by rcases hq with h | h <;> rw [h] <;> rfl
  exact hi.spin.unique hs hp

/-! ### Steps -/

/-- `cv_count` of `g` is as before if that of another mutex changes. -/
theorem addCv_ne (k : Kernel) (d : Int) (h : g ≠ j) :
    ((addCv k j d).mux.mutexes g).cvCount = (k.mux.mutexes g).cvCount := by
  simp only [addCv, Mux.upd_mutexes, if_neg h]

theorem addCv_self (k : Kernel) (d : Int) :
    ((addCv k g d).mux.mutexes g).cvCount = (k.mux.mutexes g).cvCount + d := by
  simp only [addCv, Mux.upd_mutexes, if_true]

/-- `cv_wait` finds a signal. -/
theorem inv_took (hi : Inv g f) (hp : f.place p = .look j i)
    (hcv : (f.kernel.mux.mutexes j).cvCount ≠ 0) :
    Inv g ((f.setKernel (addCv f.kernel j (-1))).put p (.took j)) := by
  have hspin := hi.keepSpin (l := .took j) hp rfl
  have hpt := hi.keepPtable (l := .took j) hp rfl
  by_cases e : g = j
  · subst e
    have hhold : (f.place p).spin = some g := by rw [hp]; rfl
    have hno := hi.alone hhold (by rw [hp]; simp)
    have hle : (f.kernel.mux.mutexes g).cvCount ≤ 0 →
        ((addCv f.kernel g (-1)).mux.mutexes g).cvCount ≤ 0 := by
      intro h
      rw [addCv_self]
      omega
    refine ⟨hspin, hpt, fun q i' hq => ?_, fun q i' hq => ?_, fun q hq => ?_⟩
    · -- whoever is about to sleep holds the spin lock
      obtain ⟨e, hq⟩ := of_update_or (by simp) hq
      exact absurd (hi.sleeper hhold hq) e
    · obtain ⟨-, hq⟩ := of_update (by simp) hq
      exact .inl (hle ((hi.handed q i' hq).resolve_right hno))
    · exact .inl (hle ((hi.asleep q hq).resolve_right hno))
  · exact hi.aside hp (addCv_ne _ _ e) (.refl _ _) (by simp) (by simp) hspin hpt

/-- `cv_wait` finds no signal and unlocks the mutex. -/
theorem inv_sleep (hi : Inv g f) (hp : f.place p = .look j i)
    (hcv : (f.kernel.mux.mutexes j).cvCount = 0) :
    Inv g ((f.setKernel (f.kernel.mutexUnlock p i.val).2).put p (.sleep j i)) := by
  have hspin := hi.keepSpin (l := .sleep j i) hp rfl
  have hpt := hi.keepPtable (l := .sleep j i) hp rfl
  have hsame := (sameCv_locks p).mutexUnlock f.kernel p i.val
  by_cases e : g = j
  · subst e
    have h₀ : ((f.kernel.mutexUnlock p i.val).2.mux.mutexes g).cvCount = 0 := (hsame g).trans hcv
    exact ⟨hspin, hpt, fun _ _ _ => h₀, fun _ _ _ => .inl h₀.le, fun _ _ => .inl h₀.le⟩
  · refine hi.aside hp (hsame g) ((awake_locks g p).mutexUnlock _ _ _) (by simp) (fun i' => ?_)
      hspin hpt
    simp [Ne.symm e]

/-- `sleep` takes `ptable.lock`. -/
theorem inv_both (hi : Inv g f) (hp : f.place p = .sleep j i) (hfree : f.ptable = none) :
    Inv g ((f.setPtable (some p)).put p (.both j i)) := by
  have hspin := hi.keepSpin (l := .both j i) hp rfl
  have hpt : Holder (some p) (update f.place p (.both j i)) fun pl => pl.ptable = true := by
    have h := hi.ptable
    rw [hfree] at h
    exact h.take rfl
  by_cases e : g = j
  · subst e
    have h₀ := hi.zero p i (.inl hp)
    exact ⟨hspin, hpt, fun _ _ _ => h₀, fun _ _ _ => .inl h₀.le, fun _ _ => .inl h₀.le⟩
  · exact hi.aside hp rfl (.refl _ _) (by simp) (by simp [Ne.symm e]) hspin hpt

/-- `sleep` lets go of the spin lock. -/
theorem inv_handed (hi : Inv g f) (hp : f.place p = .both j i) :
    Inv g ((f.setSpin j none).put p (.handed j i)) := by
  have hspin := hi.dropSpin (l := .handed j i) hp rfl rfl
  have hpt := hi.keepPtable (l := .handed j i) hp rfl
  by_cases e : g = j
  · subst e
    have h₀ := hi.zero p i (.inr hp)
    exact ⟨hspin, hpt, fun _ _ _ => h₀, fun _ _ _ => .inl h₀.le, fun _ _ => .inl h₀.le⟩
  · exact hi.aside hp rfl (.refl _ _) (by simp) (by simp [Ne.symm e]) hspin hpt

/-- `sleep` ends: the process is SLEEPING and `ptable.lock` is free.  If a signal has come since it
let go of the spin lock, the signaller still waits for `ptable.lock`. -/
theorem inv_asleep (hi : Inv g f) (hp : f.place p = .handed j i) :
    Inv g (((f.setKernel { f.kernel with
      sched := f.kernel.sched.sleep p (.cv j) (.cvWait j i) }).setPtable none).put p .outside) := by
  have hspin := hi.keepSpin (l := .outside) hp rfl
  have hpt := hi.ptable.drop (p := p) (l := .outside) (by rw [hp]; rfl) (by simp [CvPlace.ptable])
  have hold : f.place p ≠ .raised g := by rw [hp]; simp
  by_cases e : g = j
  · subst e
    refine ⟨hspin, hpt, fun q i' hq => ?_, fun q i' hq => ?_, fun q hq => ?_⟩
    · exact hi.zero q i' (of_update_or (by simp) hq).2
    · exact (hi.handed q i' (of_update (by simp) hq).2).imp_right (raised_update hold)
    · dsimp only [put, setKernel, setPtable] at hq ⊢
      by_cases e : q = p
      · subst e
        exact (hi.handed q i hp).imp_right (raised_update hold)
      · unfold Sched.SleepsOn sleep at hq
        rw [upd_proc_ne e] at hq
        exact (hi.asleep q hq).imp_right (raised_update hold)
  · refine hi.aside rfl rfl ?_ hold (by simp) hspin hpt
    dsimp only [sleep, setPtable, setKernel]
    refine (awake _ p).upd fun h => ?_
    cases h.2
    exact absurd rfl e

/-- `cv_signal` raises the count: it is about to wake the sleepers. -/
theorem inv_raised (hi : Inv g f) (hp : f.place p = .raise j) :
    Inv g ((f.setKernel (addCv f.kernel j 1)).put p (.raised j)) := by
  have hspin := hi.keepSpin (l := .raised j) hp rfl
  have hpt := hi.keepPtable (l := .raised j) hp rfl
  by_cases e : g = j
  · subst e
    have hr : ∃ q, update f.place p (.raised g) q = .raised g :=
      ⟨p, update_self _ _ _⟩
    refine ⟨hspin, hpt, fun q i hq => ?_, fun _ _ _ => .inr hr, fun _ _ => .inr hr⟩
    obtain ⟨e, hq⟩ := of_update_or (by simp) hq
    exact absurd (hi.sleeper (by rw [hp]; rfl) hq) e
  · exact hi.aside hp (addCv_ne _ _ e) (.refl _ _) (by simp) (by simp) hspin hpt

/-- `cv_signal` wakes the sleepers: nobody sleeps, and nobody is about to, since `ptable.lock` is
free. -/
theorem inv_woke (hi : Inv g f) (hp : f.place p = .raised j) (hfree : f.ptable = none) :
    Inv g ((f.setKernel { f.kernel with
      sched := f.kernel.sched.wakeup1 (.cv j) }).put p (.woke j)) := by
  have hspin := hi.keepSpin (l := .woke j) hp rfl
  have hpt := hi.keepPtable (l := .woke j) hp rfl
  by_cases e : g = j
  · subst e
    refine ⟨hspin, hpt, fun q i hq => ?_, fun q i hq => ?_, fun q hq => ?_⟩
    · exact hi.zero q i (of_update_or (by simp) hq).2
    · have hq : f.place q = .handed g i := (of_update (by simp) hq).2
      have := (hi.ptable q).mpr (by rw [hq]; rfl)
      rw [hfree] at this
      cases this
    · exact absurd hq (wakeup1_not_sleepsOn _ _ _)
  · refine hi.aside hp rfl ((awake _ p).wakeup1 _ _) ?_ (by simp) hspin hpt
    simpa using Ne.symm e

/-- A mark inside `waiting_procs` changes nothing else. -/
theorem mark_inRange (hp : 0 ≤ k.pid p ∧ k.pid p < NPROC) : mark k p g = .ok k := by
  have hg : (g.val : Int) < 16 := by exact_mod_cast g.isLt
  have hn : k.pid p < 64 := hp.2
  have hw : (127 * g.val + 33 + k.pid p) % 127 = 33 + k.pid p := by omega
  have hb : 127 * (g.val : Int) + 33 + k.pid p < 127 * MUX_MAXNUM := by
    have : (MUX_MAXNUM : Int) = 16 := rfl
    omega
  unfold mark writeWord
  rw [dif_pos ⟨by omega, hb⟩]
  dsimp only
  rw [if_neg (by omega), if_pos (by omega)]

theorem inv_advance (hi : Inv g f) (hr : f.ready p (f.place p)) (hok : f.InRange (.next p))
    (hs : f.advance p (f.place p) = .ok f') : Inv g f' := by
  cases hp : f.place p with
  | outside => rw [hp] at hr; exact hr.elim
  | wait j i =>
    rw [hp] at hr hs
    rw [advance, mark_inRange (hok j i hp)] at hs
    cases hs
    exact hi.aside hp rfl (.refl _ _) (by simp) (by simp)
      (hi.takeSpin hr hp rfl rfl) (hi.keepPtable hp rfl)
  | look j i =>
    rw [hp] at hs
    by_cases hc : (f.kernel.mux.mutexes j).cvCount = 0
    · rw [advance, if_pos hc] at hs
      cases hs
      exact inv_sleep hi hp hc
    · rw [advance, if_neg hc] at hs
      cases hs
      exact inv_took hi hp hc
  | took | woke =>
    rw [hp] at hs
    cases hs
    exact hi.aside hp rfl (.refl _ _) (by simp) (by simp)
      (hi.dropSpin hp rfl rfl) (hi.keepPtable hp rfl)
  | sleep j i => rw [hp] at hr hs; cases hs; exact inv_both hi hp hr
  | both j i => rw [hp] at hs; cases hs; exact inv_handed hi hp
  | handed j i => rw [hp] at hs; cases hs; exact inv_asleep hi hp
  | signal j =>
    rw [hp] at hr hs
    cases hs
    exact hi.aside hp rfl (.refl _ _) (by simp) (by simp)
      (hi.takeSpin hr hp rfl rfl) (hi.keepPtable hp rfl)
  | raise j => rw [hp] at hs; cases hs; exact inv_raised hi hp
  | raised j => rw [hp] at hr hs; cases hs; exact inv_woke hi hp hr

/-- A process outside calls `cv_wait` or `cv_signal`. -/
theorem inv_call (hi : Inv g f) (hp : f.place p = .outside) (hspin : l.spin = none)
    (hpt : l.ptable = false) : Inv g (f.put p l) := by
  refine hi.aside hp rfl (.refl _ _) (by simp) (fun i => ?_)
    (hi.keepSpin hp hspin) (hi.keepPtable hp hpt)
  refine ⟨?_, ?_, ?_⟩ <;> rintro rfl
  · cases hspin
  · cases hspin
  · cases hpt

/-- **One step.** -/
theorem inv_step (hi : Inv g f) (hs : Step f op f') (hok : f.InRange op) : Inv g f' := by
  obtain ⟨he, hs⟩ := hs
  cases op with
  | call o =>
    obtain ⟨⟨r, k'⟩, h₁, hs⟩ := of_bind hs
    cases hs
    obtain ⟨hcv, hsl⟩ := call_frame he.1 he.2.1 h₁ g
    refine ⟨hi.spin, hi.ptable, fun q i hq => ?_, fun q i hq => ?_, fun q hq => ?_⟩
    · exact hcv.trans (hi.zero q i hq)
    · dsimp only [setKernel]
      rw [hcv]
      exact hi.handed q i hq
    · dsimp only [setKernel]
      rw [hcv]
      exact hi.asleep q (hsl q hq)
  | wait | signal =>
    unfold step at hs
    dsimp only at hs
    split at hs
    · cases hs; exact hi
    cases hs
    split
    · exact inv_call hi he.2 rfl rfl
    · exact hi
  | again p =>
    obtain ⟨-, hp, j, i, hctx, hfree⟩ := he
    simp only [step, hctx] at hs
    cases hs
    exact hi.aside hp rfl ((awake _ p).user _) (by simp) (by simp)
      (hi.takeSpin hfree hp rfl rfl) (hi.keepPtable hp rfl)
  | next p => exact inv_advance hi he.2 hok hs

theorem Inv.noLost (hi : Inv g f) : NoLost g f := by
  intro hspin hcv p hp
  rcases hi.asleep p hp with hle | ⟨q, hq⟩
  · omega
  · have := (hi.spin q).mpr (by rw [hq]; rfl)
    rw [hspin] at this
    cases this

theorem inv_quiet (h : ∀ p, k.sched.SleepsOn (.cv g) p →
    (k.mux.mutexes g).cvCount ≤ 0) : Inv g (quiet k) where
  spin _ := iff_of_false (fun h => by cases h) fun h => by cases h
  ptable _ := iff_of_false (fun h => by cases h) fun h => by cases h
  zero _ _ h := by rcases h with h | h <;> cases h
  handed _ _ h := by cases h
  asleep p hp := .inl (h p hp)

/-- **No signal is lost.**  From any state in which nobody is in `cv_wait` or `cv_signal`, and
nobody sleeps on the mutex `g` while its `cv_count` is positive (when `g` is created nobody sleeps
on it), in every run in which `cv_wait` stays inside `waiting_procs`: in every state in which the
spin lock of `g` is free and its `cv_count` is positive, nobody sleeps on `g`. -/
theorem no_lost_signal {k : Kernel} {t : List (CvFine × CvOp)}
    (h₀ : ∀ p, k.sched.SleepsOn (.cv g) p → (k.mux.mutexes g).cvCount ≤ 0)
    (hr : Run Step (quiet k) t f) (hok : ∀ x ∈ t, x.1.InRange x.2) :
    (∀ x ∈ t, NoLost g x.1) ∧ NoLost g f := by
  have h := hr.inv (I := Inv g)
    (fun f op _ hi hs (hok : f.InRange op) => inv_step hi hs hok) (inv_quiet h₀) hok
  exact ⟨fun x hx => (h.1 x hx).noLost, h.2.noLost⟩

/-! ### Runs that are computed -/

instance (f : CvFine) : DecidablePred f.allowed := fun op => by
  rcases op <;> dsimp only [allowed] <;> infer_instance

instance (k : Kernel) : DecidablePred (takesPtable k) := fun op => by
  rcases op <;> dsimp only [takesPtable] <;> infer_instance

instance (f : CvFine) (p : Slot) : DecidablePred (f.ready p) := fun pl => by
  rcases pl <;> dsimp only [ready] <;> infer_instance

instance (f : CvFine) : DecidablePred f.Enabled := fun op => by
  rcases op <;> dsimp only [Enabled] <;> infer_instance

instance (f : CvFine) : DecidablePred f.InRange := fun op => by
  rcases op <;> dsimp only [InRange] <;> infer_instance

/-- `Step` as a function. -/
def exec? (f : CvFine) (op : CvOp) : Option CvFine :=
  if f.Enabled op then
    match f.step op with
    | .ok f' => some f'
    | .error _ => none
  else none

theorem step_of_exec? (f : CvFine) (op : CvOp) (f' : CvFine) (h : f.exec? op = some f') :
    Step f op f' := by
  unfold exec? at h
  split at h
  · next he =>
    split at h
    · next f₁ hs => cases h; exact ⟨he, hs⟩
    · cases h
  · cases h

/-- The first process makes two mutexes and forks. -/
def twoMutexes : List Op :=
  [.allocFirst, .userinit 0, .scheduler, .mutexCreate 0 [97], .mutexCreate 0 [98], .fork2 0 (-1),
    .scheduler]

/-- The child sleeps in `cv_wait` on the second mutex. -/
def waitOps : List CvOp :=
  [.call (.mutexLock 1 1), .wait 1 1, .next 1, .next 1, .next 1, .next 1, .next 1]

/-- Then the parent signals. -/
def wakeOps : List CvOp :=
  waitOps ++ [.call (.mutexLock 0 1), .signal 0 1, .next 0, .next 0, .next 0, .next 0]

/-- A signal is sent to a sleeper; when the spin lock is free again, nobody sleeps. -/
theorem no_lost_signal_woken : ∃ k t f, Run Step (quiet k) t f ∧
    (f.spin 1 = none ∧ (f.kernel.mux.mutexes 1).cvCount = 1) ∧ NoLost 1 f := by
  obtain ⟨k, -, h₀, hops, hf⟩ := exists_run Kernel.step_of_exec? (boot smallMem) twoMutexes
    (fun k => (∀ p, ¬ k.sched.SleepsOn (.cv 1) p) ∧
      (∀ x ∈ traceFn exec? (quiet k) wakeOps, x.1.InRange x.2) ∧
      ((runFn exec? (quiet k) wakeOps).any fun f =>
        f.spin 1 = none ∧ (f.kernel.mux.mutexes 1).cvCount = 1) = true)
    (by decide +kernel)
  obtain ⟨f, hr, hx⟩ := exists_run step_of_exec? (quiet k) wakeOps
    (fun f => f.spin 1 = none ∧ (f.kernel.mux.mutexes 1).cvCount = 1) hf
  exact ⟨k, _, f, hr, hx, (no_lost_signal (fun p hp => absurd hp (h₀ p)) hr hops).2⟩

/-! ### A pid beyond the array

Every `fork2` that fails in `allocproc` for lack of memory uses up a pid. -/

/-- The state after such a failure in slot `i`, with the pid `n`. -/
def aged (k : Kernel) (i : Slot) (n : Int) : Kernel :=
  { k with
    sched := { k.sched with nextpid := n + 1 }.upd i fun e => { e with state := .unused, pid := n }
    vm := k.vm.upd i fun e => { e with kstack := none } }

section Aged

variable {k : Kernel} {i : Slot} {n : Int}

theorem aged_aged (k : Kernel) (i : Slot) (n m : Int) : aged (aged k i n) i m = aged k i m := by
  simp [aged, upd, Vm.upd]

section

variable (hi : k.freeSlot = some i)

include hi

theorem aged_state (n : Int) (j : Slot) :
    ((aged k i n).sched.proc j).state = (k.sched.proc j).state := by
  have hst : (k.sched.proc i).state = .unused := by simpa using List.find?_some hi
  dsimp only [aged]
  rw [upd_field PEntry.state hst.symm]

theorem aged_freeSlot (n : Int) : (aged k i n).freeSlot = some i := by
  unfold freeSlot
  simp only [aged_state hi]
  exact hi

theorem aged_inUser (hp : k.inUser p) (n : Int) : (aged k i n).inUser p := by
  refine ⟨(aged_state hi n p).trans hp.1, ?_⟩
  have hst : (k.sched.proc i).state = .unused := by simpa using List.find?_some hi
  have e : p ≠ i := by rintro rfl; rw [hp.1] at hst; cases hst
  dsimp only [aged]
  rw [upd_proc_ne e]
  exact hp.2

theorem fork2_aged (hmem : kalloc k.vm.mem = none) (h₁ : 1 < k.sched.nextpid)
    (h₂ : k.sched.nextpid < INT_MAX) : k.fork2 p (-1) = .ok (-1, aged k i k.sched.nextpid) := by
  unfold freeSlot at hi
  have he : k.sched.embryo i = .ok ({ k.sched with nextpid := k.sched.nextpid + 1 }.upd i
      fun e => { e with state := .embryo, pid := k.sched.nextpid }) := by
    unfold embryo
    rw [if_neg (by omega)]
    dsimp only
    rw [if_neg (by omega)]
  have hv : k.vm.allocKstack i = (false, k.vm.upd i fun e => { e with kstack := none }) := by
    simp only [Vm.allocKstack, hmem]
  have ha : k.allocproc (some p) (-1) = .ok (none, aged k i k.sched.nextpid) := by
    unfold allocproc
    simp only [hi, he, hv]
    simp [setnextproc, aged, upd, PEntry.free]
  unfold fork2
  rw [ha]
  rfl

/-- A process that forks without memory uses up as many pids as it likes. -/
theorem aged_run (hmem : kalloc k.vm.mem = none) (hp : k.inUser p)
    (h₁ : 1 < k.sched.nextpid) (m : Nat) (h₂ : k.sched.nextpid + m < INT_MAX) :
    ∃ t, Run Kernel.Step k t (aged k i (k.sched.nextpid + m)) := by
  induction m with
  | zero =>
    have h : Kernel.Step k (.fork2 p (-1)) (aged k i k.sched.nextpid) :=
      ⟨hp, some (-1), by rw [Kernel.step, fork2_aged hi hmem h₁ (by omega)]; rfl⟩
    rw [Nat.cast_zero, add_zero]
    exact ⟨_, .one h⟩
  | succ m ih =>
    obtain ⟨t, hr⟩ := ih (by omega)
    have hn : (aged k i (k.sched.nextpid + m)).sched.nextpid = k.sched.nextpid + m + 1 := rfl
    have h := fork2_aged (p := p) (aged_freeSlot hi (k.sched.nextpid + m)) hmem
      (by rw [hn]; omega) (by rw [hn]; omega)
    rw [aged_aged, hn] at h
    have hs : Kernel.Step (aged k i (k.sched.nextpid + m)) (.fork2 p (-1))
        (aged k i (k.sched.nextpid + m + 1)) :=
      ⟨aged_inUser hi hp _, some (-1), by rw [Kernel.step, h]; rfl⟩
    rw [Nat.cast_succ, ← add_assoc]
    exact ⟨_, hr.snoc hs⟩

end

end Aged

/-- The first process takes the rest of the memory. -/
def fullOps : List Op := twoMutexes ++ [.growproc 0 (4096 * 74)]

/-- It gives the memory back and forks: the new process has the next pid. -/
def forkLate : List Op := [.growproc 0 (-4096 * 74), .fork2 0 (-1), .scheduler]

/-- While the child sleeps on the second mutex, the late process waits on the first. -/
def strayOps : List CvOp :=
  waitOps ++ [.call (.mutexLock 2 0), .wait 2 0, .next 2]

/-- **A wait on one mutex signals another.**  For a process with pid 191 the element
`waiting_procs[191]` of a mutex is the `cv_count` of the next one: its `cv_wait` on mutex 0 sets the
`cv_count` of mutex 1, on which a process sleeps. -/
theorem cvWait_overruns : ∃ t₀ k t f, Run Kernel.Step (boot threeMem) t₀ k ∧
    (∀ p, ¬ k.sched.SleepsOn (.cv 1) p) ∧ Run Step (quiet k) t f ∧ ¬ NoLost 1 f := by
  obtain ⟨k₀, hr₀, ⟨hslot, hmem, hp, hpid⟩, hlate⟩ := exists_run Kernel.step_of_exec?
    (boot threeMem) fullOps
    (fun k => (k.freeSlot = some 2 ∧ kalloc k.vm.mem = none ∧ k.inUser 0 ∧ k.sched.nextpid = 3) ∧
      ((runFn Kernel.exec? (aged k 2 190) forkLate).any fun k =>
        (∀ p, ¬ k.sched.SleepsOn (.cv 1) p) ∧
        ((runFn exec? (quiet k) strayOps).any fun f =>
          f.spin 1 = none ∧ 0 < (f.kernel.mux.mutexes 1).cvCount ∧
            f.kernel.sched.SleepsOn (.cv 1) 1) = true) = true) (by decide +kernel)
  obtain ⟨t₁, hr₁⟩ := aged_run hslot hmem hp (by omega) 187 (by rw [hpid]; decide)
  rw [hpid] at hr₁
  obtain ⟨k, hr₂, h₀, hstray⟩ := exists_run Kernel.step_of_exec? (aged k₀ 2 190) forkLate
    (fun k => (∀ p, ¬ k.sched.SleepsOn (.cv 1) p) ∧
      ((runFn exec? (quiet k) strayOps).any fun f => f.spin 1 = none ∧
        0 < (f.kernel.mux.mutexes 1).cvCount ∧ f.kernel.sched.SleepsOn (.cv 1) 1) = true) hlate
  obtain ⟨f, hr, hspin, hcv, hsl⟩ := exists_run step_of_exec? (quiet k) strayOps
    (fun f => f.spin 1 = none ∧ 0 < (f.kernel.mux.mutexes 1).cvCount ∧
      f.kernel.sched.SleepsOn (.cv 1) 1) hstray
  exact ⟨_, k, _, f, (hr₀.trans hr₁).trans hr₂, h₀, hr, fun h => h hspin hcv 1 hsl⟩

end CvFine

end Xv6
