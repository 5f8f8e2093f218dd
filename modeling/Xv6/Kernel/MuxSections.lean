import Xv6.Kernel.CvSections
import Xv6.Kernel.Sections
import Xv6.Kernel.Forest

/-!
# Kernel — MuxSections

The mutex functions step by step.  `fork2` and `exit` are the sections of `Sections.lean`; the mutex
functions are cut wherever they touch `mutexes`:

* `mutex_create` reads one `count` after the other, takes the slot it found, and then
  `initsleeplock` writes `locked = 0` and `pid = 0` with no lock held;
* `mutex_get` reads one name after the other;
* `mutex_unlock` looks at the owner and then calls `releasesleep`; `mutex_delete` and `cv_wait` call
  it;
* `acquiresleep` and `releasesleep` are one section each, under the spin lock of the sleep lock.

The spin lock `mutexes[g].spin` is left out: `mutex_create` sets it free with `initlock` whoever
holds it, and the steps may interleave as if it were not there.  A process that `initlock` deprives
of the spin lock of a sleep lock panics in `release`.

A run of `System.lean` is a run of these steps in which no call is interrupted (`sections_of_run`).
-/

namespace Xv6

open Lib List

/-- What follows a `releasesleep` in the function that called `mutex_unlock`. -/
inductive After where
  | ret
  /-- `mutex_delete` drops the handle `i` -/
  | drop (i : Fin MUX_MAXNUM)
  /-- the loop of `cv_wait` on `g` sleeps -/
  | sleep (g : Mid) (i : Fin MUX_MAXNUM)
  deriving DecidableEq

/-- Where a process is in a mutex function. -/
inductive MuxPlace where
  | outside
  /-- `mutex_create`, before it reads the counts of `gs` -/
  | scan (name : CStr) (gs : List Mid)
  /-- `mutex_create`, before it takes the slot `g` -/
  | take (name : CStr) (g : Mid)
  /-- `initsleeplock`, before `locked = 0` -/
  | unlocked (g : Mid)
  /-- `initsleeplock`, before `pid = 0` -/
  | unowned (g : Mid)
  /-- `mutex_get`, before it reads the names of `gs` -/
  | find (name : CStr) (gs : List Mid)
  /-- `mutex_delete` by the owner of `g`, before it calls `mutex_unlock` -/
  | delete (i : Fin MUX_MAXNUM) (g : Mid)
  /-- `mutex_unlock` by the owner of `g`, before `releasesleep` -/
  | release (g : Mid) (a : After)
  /-- `mutex_delete`, before it drops the handle `i` of `g` -/
  | drop (i : Fin MUX_MAXNUM) (g : Mid)
  /-- `cv_wait` has checked its argument -/
  | mark (g : Mid) (i : Fin MUX_MAXNUM)
  /-- `cv_wait`, before it reads `cv_count` -/
  | look (g : Mid) (i : Fin MUX_MAXNUM)
  /-- `cv_wait` has called `mutex_unlock` -/
  | sleep (g : Mid) (i : Fin MUX_MAXNUM)
  /-- `cv_signal` has checked its argument -/
  | raise (g : Mid)
  deriving DecidableEq

/-- The place after the release of `g`. -/
def After.place (g : Mid) : After → MuxPlace
  | .ret => .outside
  | .drop i => .drop i g
  | .sleep g' i => .sleep g' i

/-- The kernel, and where each process is in `fork2`, `exit` and the mutex functions. -/
structure MuxFine where
  fine : Fine
  doing : Slot → MuxPlace

/-- A step. -/
inductive MuxOp where
  /-- a section of another call, of `fork2` or of `exit` -/
  | base (op : FineOp)
  | create (p : Slot) (name : CStr)
  | get (p : Slot) (name : CStr)
  | delete (p : Slot) (muxid : Int)
  | unlock (p : Slot) (muxid : Int)
  | wait (p : Slot) (muxid : Int)
  | signal (p : Slot) (muxid : Int)
  /-- `p`, which was woken in `cv_wait`, goes on -/
  | again (p : Slot)
  /-- the next step of `p` in a mutex function -/
  | next (p : Slot)
  deriving DecidableEq

namespace Kernel

/-- `p` has a handle to `g`. -/
def HandleTo (k : Kernel) (p : Slot) (g : Mid) : Prop := ∃ i, k.mux.locks p i = some g

instance (k : Kernel) (p : Slot) (g : Mid) : Decidable (k.HandleTo p g) :=
  inferInstanceAs (Decidable (∃ _, _))

/-- The mutexes changed. -/
def setMux (k : Kernel) (m : Mux) : Kernel := { k with mux := m }

/-- `lk->locked = 0` for the sleep lock of `g`. -/
def clearLocked (k : Kernel) (g : Mid) : Kernel :=
  k.setMux (k.mux.upd g fun e => { e with slp := { e.slp with locked := false } })

/-- `lk->pid = 0` for the sleep lock of `g`. -/
def clearOwner (k : Kernel) (g : Mid) : Kernel :=
  k.setMux (k.mux.upd g fun e => { e with slp := { e.slp with pid := 0 } })

end Kernel

namespace Mux

/-- `p` gets a handle to `g` from `mutex_create`, if one is free. -/
def giveHandle (m : Mux) (p : Slot) (g : Mid) : Mux :=
  match m.freeHandle p with
  | none => m
  | some i => m.setLock p i (some g)

/-- `mutex_create` takes the slot `g`. -/
def takeSlot (m : Mux) (p : Slot) (name : CStr) (g : Mid) : Res Mux := do
  let name ← copyName (m.mutexes g).name name
  return (m.upd g fun e => { e with name := name, count := e.count + 1 }).giveHandle p g

end Mux

namespace MuxFine

open Kernel

/-- The kernel. -/
abbrev kernel (f : MuxFine) : Kernel := f.fine.kernel

/-- The kernel changed. -/
def setKernel (f : MuxFine) (k : Kernel) : MuxFine := { f with fine := { f.fine with kernel := k } }

/-- `p` moves to another place of a mutex function. -/
def put (f : MuxFine) (p : Slot) (k : Kernel) (pl : MuxPlace) : MuxFine :=
  ⟨{ f.fine with kernel := k }, Function.update f.doing p pl⟩

/-- `mutex_unlock(muxid)` up to its test of the owner. -/
def unlockTest (k : Kernel) (p : Slot) (muxid : Int) (fail : MuxPlace) (a : After) : MuxPlace :=
  match k.handle p muxid with
  | none => fail
  | some (_, g) => if k.owns p g then .release g a else fail

/-- The next step of `p` in a mutex function. -/
def advance (f : MuxFine) (p : Slot) : MuxPlace → Res MuxFine
  | .outside => .ok f
  | .scan _ [] => .ok (f.put p f.kernel .outside)
  | .scan name (g :: gs) =>
    if (f.kernel.mux.mutexes g).count = 0 then .ok (f.put p f.kernel (.take name g))
    else .ok (f.put p f.kernel (.scan name gs))
  | .take name g => do
    let m ← f.kernel.mux.takeSlot p name g
    return f.put p (f.kernel.setMux m) (.unlocked g)
  | .unlocked g => .ok (f.put p (f.kernel.clearLocked g) (.unowned g))
  | .unowned g => .ok (f.put p (f.kernel.clearOwner g) .outside)
  | .find _ [] => .ok (f.put p f.kernel .outside)
  | .find name (g :: gs) =>
    if name <+: (f.kernel.mux.mutexes g).name then
      let m := (f.kernel.mux.getLoop p g (List.finRange MUX_MAXNUM)).2
      .ok (f.put p (f.kernel.setMux m) .outside)
    else .ok (f.put p f.kernel (.find name gs))
  | .delete i g => .ok (f.put p f.kernel (unlockTest f.kernel p i.val (.drop i g) (.drop i)))
  | .release g a => .ok (f.put p (f.kernel.releasesleep g) (a.place g))
  | .drop i g =>
    let m := (f.kernel.mux.addCount g (-1)).setLock p i none
    .ok (f.put p (f.kernel.setMux m) .outside)
  | .mark g i => do
    let k ← CvFine.mark f.kernel p g
    return f.put p k (.look g i)
  | .look g i =>
    if (f.kernel.mux.mutexes g).cvCount = 0 then
      .ok (f.put p f.kernel (unlockTest f.kernel p i.val (.sleep g i) (.sleep g i)))
    else .ok (f.put p (CvFine.addCv f.kernel g (-1)) .outside)
  | .sleep g i =>
    let s := f.kernel.sched.sleep p (.cv g) (.cvWait g i)
    .ok (f.put p { f.kernel with sched := s } .outside)
  | .raise g =>
    let k := CvFine.addCv f.kernel g 1
    .ok (f.put p { k with sched := k.sched.wakeup1 (.cv g) } .outside)

/-- The calls that are one section here; their process is in no mutex function. -/
def callable (f : MuxFine) : Op → Prop
  | .fork2 _ _ | .exit _ | .mutexCreate _ _ | .mutexGet _ _ | .mutexDelete _ _ | .mutexUnlock _ _
  | .cvWait _ _ | .cvSignal _ _ => False
  | .allocFirst | .userinit _ | .scheduler | .wakeup _ | .containers _ => True
  -- a clock interrupt
  | .yield _ => True
  | .resume p => f.doing p = .outside ∧ ∀ g i, (f.kernel.sched.proc p).context ≠ .cvWait g i
  | .wait p | .kill p _ | .prioSet p _ _ | .sleep p _ | .growproc p _ | .exec p _ _ | .shmGet p _
  | .shmRem p _ | .mutexLock p _ => f.doing p = .outside

/-- The sections that may be executed beside the mutex functions. -/
def allowed (f : MuxFine) : FineOp → Prop
  | .call op => f.callable op
  | .forkBegin p _ | .exitBegin p => f.doing p = .outside
  | .forkBody _ | .forkEnd _ | .exitRelease _ | .exitEnd _ => True

/-- `p` can make a system call. -/
def idle (f : MuxFine) (p : Slot) : Prop :=
  f.kernel.inUser p ∧ f.fine.place p = .outside ∧ f.doing p = .outside

/-- When a step can be made. -/
def Enabled (f : MuxFine) : MuxOp → Prop
  | .base op => f.fine.Enabled op ∧ f.allowed op
  | .create p _ | .get p _ | .delete p _ | .unlock p _ | .wait p _ | .signal p _ => f.idle p
  | .again p => (f.kernel.sched.proc p).state = .running ∧ f.fine.place p = .outside ∧
      f.doing p = .outside ∧ ∃ g i, (f.kernel.sched.proc p).context = .cvWait g i
  | .next p => (f.kernel.sched.proc p).state = .running ∧ f.doing p ≠ .outside

/-- The place where a function with the argument `muxid` starts, for the owner of the mutex and for
others. -/
def start (k : Kernel) (p : Slot) (muxid : Int) (owner other : Fin MUX_MAXNUM → Mid → MuxPlace) :
    MuxPlace :=
  match k.handle p muxid with
  | none => .outside
  | some (i, g) => if k.owns p g then owner i g else other i g

/-- The state after a step. -/
def step (f : MuxFine) : MuxOp → Res MuxFine
  | .base op => do
    let fine ← f.fine.step op
    return { f with fine := fine }
  | .create p name => .ok (f.put p f.kernel (.scan name (List.finRange MUX_MAXNUM)))
  | .get p name => .ok (f.put p f.kernel (.find name (List.finRange MUX_MAXNUM)))
  | .delete p muxid => .ok (f.put p f.kernel (start f.kernel p muxid .delete .drop))
  | .unlock p muxid => .ok (f.put p f.kernel (unlockTest f.kernel p muxid .outside .ret))
  | .wait p muxid =>
    .ok (f.put p f.kernel (start f.kernel p muxid (fun i g => .mark g i) fun _ _ => .outside))
  | .signal p muxid =>
    .ok (f.put p f.kernel (start f.kernel p muxid (fun _ g => .raise g) fun _ _ => .outside))
  | .again p =>
    match (f.kernel.sched.proc p).context with
    | .cvWait g i => .ok (f.put p (f.kernel.toUser p) (.look g i))
    | _ => .ok f
  | .next p => f.advance p (f.doing p)

/-- One step. -/
def Step (f : MuxFine) (op : MuxOp) (f' : MuxFine) : Prop := f.Enabled op ∧ f.step op = .ok f'

/-- Nobody is in `fork2`, `exit` or a mutex function. -/
def quiet (k : Kernel) : MuxFine := ⟨Fine.quiet k, fun _ => .outside⟩

/-! ### Runs that are computed -/

instance (f : MuxFine) : DecidablePred f.callable := fun op => by
  rcases op <;> dsimp only [callable] <;> infer_instance

instance (f : MuxFine) : DecidablePred f.allowed := fun op => by
  rcases op <;> dsimp only [allowed] <;> infer_instance

instance (f : MuxFine) (p : Slot) : Decidable (f.idle p) :=
  inferInstanceAs (Decidable (_ ∧ _ ∧ _))

instance (f : MuxFine) : DecidablePred f.Enabled := fun op => by
  rcases op <;> dsimp only [Enabled] <;> infer_instance

/-- `Step` as a function. -/
def exec? (f : MuxFine) (op : MuxOp) : Option MuxFine :=
  if f.Enabled op then
    match f.step op with
    | .ok f' => some f'
    | .error _ => none
  else none

variable {pl : MuxPlace} {m : Mux} {name : CStr} {r muxid : Int}

theorem step_of_exec? (f : MuxFine) (op : MuxOp) (f' : MuxFine) (h : f.exec? op = some f') :
    Step f op f' := by
  unfold exec? at h
  split at h
  · next he =>
    split at h
    · next f₁ hs => cases h; exact ⟨he, hs⟩
    · cases h
  · cases h

/-! ### The calls without interruption -/

variable {p : Slot} {g : Mid} {k k' : Kernel}

theorem handle_coe (i : Fin MUX_MAXNUM) :
    k.handle p i.val = (k.mux.locks p i).map fun g => (i, g) := by
  have hi : Mux.muxIndex i.val = some i := by
    unfold Mux.muxIndex
    rw [dif_pos ⟨by omega, by exact_mod_cast i.isLt⟩]
    simp
  rw [handle, hi]

/-- `p` is in a mutex function, and nobody else is in one. -/
def busy (k : Kernel) (p : Slot) (pl : MuxPlace) : MuxFine := (quiet k).put p k pl

theorem busy_outside (k : Kernel) (p : Slot) : busy k p .outside = quiet k := by
  simp [busy, put, quiet, Fine.quiet]

theorem busy_put (k k' : Kernel) (p : Slot) (pl pl' : MuxPlace) :
    (busy k p pl).put p k' pl' = busy k' p pl' := by
  simp [busy, put, quiet, Fine.quiet]

/-- From the place `pl`, the steps of `p` alone lead out of the function and to the kernel `k'`. -/
def Leads (p : Slot) (k : Kernel) (pl : MuxPlace) (k' : Kernel) : Prop :=
  Reach Step (busy k p pl) (quiet k')

namespace Leads

theorem done : Leads p k .outside k := ⟨[], by rw [busy_outside]; exact .refl _⟩

/-- A step of the process that is in a mutex function. -/
theorem next {pl' : MuxPlace} {k₁ : Kernel} (h : Leads p k₁ pl' k')
    (hp : (k.sched.proc p).state = .running) (hne : pl ≠ .outside)
    (hs : (busy k p pl).advance p pl = .ok ((busy k p pl).put p k₁ pl')) : Leads p k pl k' := by
  have hd : (busy k p pl).doing p = pl := Function.update_self ..
  refine Reach.step (a := .next p) ⟨⟨hp, by rw [hd]; exact hne⟩, ?_⟩ h
  rw [step, hd, hs, busy_put]

theorem start {a b : Fin MUX_MAXNUM → Mid → MuxPlace}
    (hnone : k.handle p muxid = none → k' = k)
    (hsome : ∀ i g, k.handle p muxid = some (i, g) →
      (k.owns p g → Leads p k (a i g) k') ∧ (¬ k.owns p g → Leads p k (b i g) k')) :
    Leads p k (MuxFine.start k p muxid a b) k' := by
  unfold MuxFine.start
  split
  · next hh =>
    rw [hnone hh]
    exact done
  · next i g hh =>
    split
    · next ho => exact (hsome i g hh).1 ho
    · next ho => exact (hsome i g hh).2 ho

/-- A call of `mutex_unlock` inside a function that goes on at `pl`. -/
theorem unlock {F : Kernel → Kernel} {a : After} (hp : (k.sched.proc p).state = .running)
    (ha : ∀ i g, k.handle p muxid = some (i, g) → a.place g = pl)
    (hcont : ∀ k₁ : Kernel, (k₁.sched.proc p).state = .running → Leads p k₁ pl (F k₁)) :
    Leads p k (unlockTest k p muxid pl a) (F (k.mutexUnlock p muxid).2) := by
  have hrun := hcont (k.mutexUnlock p muxid).2 (mutexUnlock_running hp)
  cases hh : k.handle p muxid with
  | none => simpa only [unlockTest, mutexUnlock, hh] using hrun
  | some x =>
    by_cases ho : k.owns p x.2
    · simp only [unlockTest, mutexUnlock, hh, if_pos ho] at hrun ⊢
      refine next hrun hp (by simp) ?_
      rw [← ha x.1 x.2 hh]
      rfl
    · simpa only [unlockTest, mutexUnlock, hh, if_neg ho] using hrun

/-- A walk over the mutexes up to the first with `P`. -/
theorem search (pl : CStr → List Mid → MuxPlace) (name : CStr) (P : Mid → Prop) [DecidablePred P]
    (hskip : ∀ g gs, ¬ P g → Leads p k (pl name gs) k' → Leads p k (pl name (g :: gs)) k')
    (hnone : (finRange MUX_MAXNUM).find? (P ·) = none → Leads p k (pl name []) k')
    (hsome : ∀ g gs, P g → (finRange MUX_MAXNUM).find? (P ·) = some g →
      Leads p k (pl name (g :: gs)) k') : Leads p k (pl name (finRange MUX_MAXNUM)) k' := by
  generalize finRange MUX_MAXNUM = gs at *
  induction gs with
  | nil => exact hnone rfl
  | cons g gs ih =>
    by_cases hg : P g
    · exact hsome g gs hg (find?_cons_of_pos (by simpa using hg))
    · rw [find?_cons_of_neg (by simpa using hg)] at hnone hsome
      exact hskip g gs hg (ih hnone hsome)

end Leads

/-- Taking the slot and then clearing its lock is what `mutex_create` does. -/
theorem takeSlot_clear (hg : k.mux.freeMutex = some g) (hc : k.mux.mutexCreate p name = .ok (r, m))
    : ∃ m₁, k.mux.takeSlot p name g = .ok m₁ ∧
      ((k.setMux m₁).clearLocked g).clearOwner g = k.setMux m := by
  unfold Mux.mutexCreate at hc
  rw [hg] at hc
  obtain ⟨nm, hn, hc⟩ := of_bind hc
  refine ⟨_, by rw [Mux.takeSlot, hn]; rfl, ?_⟩
  have hfree : ∀ e : Mutex → Mutex, (k.mux.upd g e).freeHandle p = k.mux.freeHandle p :=
    fun _ => rfl
  dsimp only at hc
  rw [hfree] at hc
  unfold Mux.giveHandle
  rw [hfree]
  cases hh : k.mux.freeHandle p with
  | none =>
    rw [hh] at hc
    cases hc
    simp [clearOwner, clearLocked, setMux, Mux.upd]
  | some i =>
    rw [hh] at hc
    cases hc
    simp [clearOwner, clearLocked, setMux, Mux.upd, Mux.setLock]

/-- **`mutex_create` without interruption.** -/
theorem sections_of_mutexCreate (hp : k.inUser p) (hc : k.mux.mutexCreate p name = .ok (r, m)) :
    Reach Step (quiet k) (quiet (k.setMux m)) := by
  refine .step (a := .create p name) ⟨⟨hp, rfl, rfl⟩, rfl⟩ (Leads.search .scan name
    (fun g => (k.mux.mutexes g).count = 0) (fun _ _ hg h => h.next hp.1 (by simp) (if_neg hg))
    (fun hg => ?_) fun g gs h₀ hg => ?_)
  · unfold Mux.mutexCreate at hc
    rw [show k.mux.freeMutex = none from hg] at hc
    cases hc
    exact .next .done hp.1 (by simp) rfl
  · obtain ⟨m₁, hm₁, hm⟩ := takeSlot_clear hg hc
    rw [← hm]
    have h₃ : Leads p ((k.setMux m₁).clearLocked g) (.unowned g)
        (((k.setMux m₁).clearLocked g).clearOwner g) := .next .done hp.1 (by simp) rfl
    have h₂ : Leads p (k.setMux m₁) (.unlocked g) _ := h₃.next hp.1 (by simp) rfl
    have h₁ : Leads p k (.take name g) _ := h₂.next hp.1 (by simp) (by
      show (do let m ← k.mux.takeSlot p name g; _) = _
      rw [hm₁]
      rfl)
    exact h₁.next hp.1 (by simp) (if_pos h₀)

/-- **`mutex_get` without interruption.** -/
theorem sections_of_mutexGet (hp : k.inUser p) :
    Reach Step (quiet k) (quiet (k.setMux (k.mux.mutexGet p name).2)) := by
  refine .step (a := .get p name) ⟨⟨hp, rfl, rfl⟩, rfl⟩ (Leads.search .find name
    (fun g => name <+: (k.mux.mutexes g).name) (fun _ _ hg h => h.next hp.1 (by simp) (if_neg hg))
    (fun hg => ?_) fun g gs h₀ hg => ?_)
  · rw [Mux.mutexGet, show k.mux.findMutex name = none from hg]
    exact .next .done hp.1 (by simp) rfl
  · rw [Mux.mutexGet, show k.mux.findMutex name = some g from hg]
    exact .next .done hp.1 (by simp) (if_pos h₀)

/-- **`mutex_unlock` without interruption.** -/
theorem sections_of_mutexUnlock (hp : k.inUser p) :
    Reach Step (quiet k) (quiet (k.mutexUnlock p muxid).2) :=
  .step (a := .unlock p muxid) ⟨⟨hp, rfl, rfl⟩, rfl⟩
    (Leads.unlock (F := id) hp.1 (fun _ _ _ => rfl) fun _ _ => .done)

/-- **`mutex_delete` without interruption.** -/
theorem sections_of_mutexDelete (hp : k.inUser p) :
    Reach Step (quiet k) (quiet (k.mutexDelete p muxid).2) := by
  refine .step (a := .delete p muxid) ⟨⟨hp, rfl, rfl⟩, rfl⟩
    (Leads.start (a := .delete) (b := .drop) (fun hh => ?_) fun i g hh => ?_)
  · simp only [mutexDelete, hh]
  have hi : k.handle p i.val = some (i, g) := by rw [handle_coe, (handle_eq_some hh).2]; rfl
  have hdrop : ∀ k₁ : Kernel, (k₁.sched.proc p).state = .running → Leads p k₁ (.drop i g)
      (k₁.setMux ((k₁.mux.addCount g (-1)).setLock p i none)) :=
    fun k₁ hk => .next .done hk (by simp) rfl
  simp only [mutexDelete, hh]
  refine ⟨fun ho => ?_, fun ho => by rw [if_neg ho]; exact hdrop k hp.1⟩
  have hu := Leads.unlock (a := .drop i) hp.1
    (fun i' g' (h : k.handle p i.val = _) => by rw [hi] at h; cases h; rfl) hdrop
  simp only [mutexUnlock, hi, if_pos ho] at hu
  rw [if_pos ho]
  exact hu.next hp.1 (by simp) rfl

/-- The loop of `cv_wait` without interruption. -/
theorem Leads.look {i : Fin MUX_MAXNUM} (hp : k.inUser p) :
    Leads p k (.look g i) (k.cvLoop p g i).2 := by
  by_cases hc : (k.mux.mutexes g).cvCount = 0
  · rw [cvLoop, if_pos hc]
    exact .next (.unlock
      (F := fun k₁ => { k₁ with sched := k₁.sched.sleep p (.cv g) (.cvWait g i) })
      hp.1 (fun _ _ _ => rfl) fun _ hk => .next .done hk (by simp) rfl) hp.1 (by simp) (if_pos hc)
  · rw [cvLoop_raised hp hc]
    exact .next .done hp.1 (by simp) (if_neg hc)

/-- **`cv_wait` without interruption.** -/
theorem cvWait_run {r : Option Int} (hp : k.inUser p) (hs : k.cvWait p muxid = .ok (r, k')) :
    Reach Step (quiet k) (quiet k') := by
  refine .step (a := .wait p muxid) ⟨⟨hp, rfl, rfl⟩, rfl⟩ (Leads.start
    (a := fun i g => .mark g i) (b := fun _ _ => .outside) (fun hh => ?_) fun i g hh => ?_)
  · simp only [cvWait, hh] at hs
    cases hs
    rfl
  simp only [cvWait, hh] at hs
  refine ⟨fun ho => ?_, fun ho => ?_⟩
  · rw [if_pos ho] at hs
    split at hs
    · next hpid =>
      obtain rfl : (k.cvLoop p g i).2 = k' := congrArg Prod.snd (Except.ok.inj hs)
      refine (Leads.look hp).next hp.1 (by simp) ?_
      show (do let k₁ ← CvFine.mark k p g; _) = _
      rw [CvFine.mark_inRange hpid]
      rfl
    · cases hs
  · rw [if_neg ho] at hs
    cases hs
    exact .done

/-- **`cv_signal` without interruption.** -/
theorem cvSignal_run (hp : k.inUser p) :
    Reach Step (quiet k) (quiet (k.cvSignal p muxid).2) := by
  refine .step (a := .signal p muxid) ⟨⟨hp, rfl, rfl⟩, rfl⟩ (Leads.start
    (a := fun _ g => .raise g) (b := fun _ _ => .outside) (fun hh => ?_) fun i g hh => ?_)
  · simp only [cvSignal, hh]
  simp only [cvSignal, hh]
  refine ⟨fun ho => ?_, fun ho => ?_⟩
  · rw [if_pos ho]
    exact .next .done hp.1 (by simp) rfl
  · rw [if_neg ho]
    exact .done

/-- **A process woken in `cv_wait`** without interruption. -/
theorem sections_of_again {i : Fin MUX_MAXNUM} (hp : (k.sched.proc p).state = .running)
    (hc : (k.sched.proc p).context = .cvWait g i) :
    Reach Step (quiet k) (quiet (k.cvLoop p g i).2) := by
  rw [← cvLoop_toUser]
  refine .step (a := .again p) ⟨⟨hp, rfl, rfl, g, i, hc⟩, ?_⟩ (Leads.look (inUser_toUser hp))
  have hc : ((quiet k).kernel.sched.proc p).context = .cvWait g i := hc
  simp only [step, hc]
  rfl

/-- **Steps of steps.**  A step of the kernel is a run, if `userinit` is called before there is a
first process and `fork2` after. -/
theorem sections_of_step {op : Op} (h : Kernel.Step k op k')
    (hu : ∀ q, op = .userinit q → k.sched.initproc = none)
    (hf : ∀ q cid, op = .fork2 q cid → k.sched.initproc ≠ none) :
    Reach Step (quiet k) (quiet k') := by
  -- the sections of `fork2` and `exit`, and the calls that are one section
  have hbase : ((Fine.quiet k).callFrom op → (quiet k).callable op) →
      Reach Step (quiet k) (quiet k') := fun hc => by
    obtain ⟨t, ht⟩ := Fine.sections_of_step h hu hf
    refine ht.reach (f := fun f => (⟨f, fun _ => .outside⟩ : MuxFine)) fun ⟨f, o⟩ _ f' hs => ?_
    obtain ⟨⟨he, hs⟩, ho⟩ := hs
    refine .one (a := .base o) ⟨⟨he, ?_⟩, by simp only [step] at *; rw [hs]; rfl⟩
    cases o with
    | call o =>
      obtain ⟨rfl, rfl⟩ := ho o rfl
      exact hc he.2
    | forkBegin | exitBegin => rfl
    | forkBody | forkEnd | exitRelease | exitEnd => trivial
  obtain ⟨he, r, hs⟩ := h
  cases op with
  | mutexCreate p name =>
    obtain ⟨⟨r, m⟩, hm, hs⟩ := of_bind hs
    cases hs
    exact sections_of_mutexCreate he hm
  | mutexGet p name => cases hs; exact sections_of_mutexGet he
  | mutexDelete p muxid => cases hs; exact sections_of_mutexDelete he
  | mutexUnlock p muxid => cases hs; exact sections_of_mutexUnlock he
  | cvWait p muxid => exact cvWait_run he hs
  | cvSignal p muxid => cases hs; exact cvSignal_run he
  | resume p =>
    by_cases hc : ∃ g i, (k.sched.proc p).context = .cvWait g i
    · obtain ⟨g, i, hc⟩ := hc
      simp only [Kernel.step, resume, hc] at hs
      obtain rfl : (k.cvLoop p g i).2 = k' := congrArg Prod.snd (Except.ok.inj hs)
      exact sections_of_again he.1 hc
    · exact hbase fun _ => ⟨rfl, fun g i e => hc ⟨g, i, e⟩⟩
  | fork2 | exit => exact hbase id
  | allocFirst | userinit | yield | scheduler | wakeup | containers => exact hbase fun _ => trivial
  | wait | kill | prioSet | sleep | growproc | exec | shmGet | shmRem | mutexLock =>
    exact hbase fun _ => rfl

/-- **Runs of steps.**  Every run of the kernel in which `userinit` is called once is a run of the
sections of `fork2` and `exit` and of the steps of the mutex functions. -/
theorem sections_of_run {mem : Kmem} {t : List (Kernel × Op)} (hr : Run Kernel.Step (boot mem) t k)
    (hu : ∀ x ∈ t, ∀ q, x.2 = .userinit q → x.1.sched.initproc = none) :
    Reach Step (quiet (boot mem)) (quiet k) := by
  refine hr.reach (f := quiet) fun x hx k₁ hs => sections_of_step hs (hu x hx) fun q cid e => ?_
  obtain ⟨he, -⟩ := hs
  rw [e] at he
  refine ((parentInv_run hr).1 x hx).2.booted q ?_ ?_ <;> rw [he.1] <;> decide

/-- A mutex whose condition variable is signalled and waited for, and a fork. -/
theorem sections_of_run_fork : ∃ t k, Run Kernel.Step (boot smallMem) t k ∧
    k.mux.locks 1 0 = some 0 ∧ Reach Step (quiet (boot smallMem)) (quiet k) := by
  obtain ⟨k, hr, hl⟩ := exists_run Kernel.step_of_exec? (boot smallMem)
    [.allocFirst, .userinit 0, .scheduler, .mutexCreate 0 [97], .mutexLock 0 0, .cvSignal 0 0,
      .cvWait 0 0, .fork2 0 (-1)] (fun k => k.mux.locks 1 0 = some 0) (by decide +kernel)
  exact ⟨_, k, hr, hl, sections_of_run hr (by decide +kernel)⟩

end MuxFine

end Xv6
