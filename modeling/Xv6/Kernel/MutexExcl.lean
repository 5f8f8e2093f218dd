import Xv6.Kernel.Life

/-!
# Kernel — MutexExcl

Mutual exclusion of user mutexes.  Who holds a mutex is a history: `p` holds `g` from a
`mutex_lock` on a handle of `g` that returned 0 until `p` unlocks or deletes `g`, sleeps in
`cv_wait` on `g`, or exits.  `HStep` runs the kernel with this history beside it.

A slot whose count is 0 is re-initialised by `mutex_create` even if its lock is held, and the count
does not include the handles `mutex_get` gave (`HandleCount.lean`), so two processes can hold one
mutex (`create_breaks_exclusion`).  In a run where `mutex_create` never takes a slot whose lock a
live process owns there is at most one holder (`mutex_exclusion`).
-/

namespace Xv6.Kernel

open Lib Res Sched
/-- Who holds which mutex. -/
abbrev Holders := Slot → Mid → Bool

namespace Holders

/-- `p` holds `g`, or no longer does. -/
def set (h : Holders) (p : Slot) (g : Mid) (b : Bool) : Holders :=
  fun q j => if q = p ∧ j = g then b else h q j

end Holders

/-- The mutex that handle `muxid` of `p` names is held by `p`, or no longer. -/
def setHandle (k : Kernel) (h : Holders) (p : Slot) (muxid : Int) (b : Bool) : Holders :=
  match k.handle p muxid with
  | some (_, g) => h.set p g b
  | none => h

/-- A `mutex_unlock(muxid)` by `p`, which succeeds if `p` is the owner. -/
def unlocked (k : Kernel) (h : Holders) (p : Slot) (muxid : Int) : Holders :=
  match k.handle p muxid with
  | some (_, g) => if k.owns p g then h.set p g false else h
  | none => h

/-- The holders after an operation that returned `r`. -/
def hold (k : Kernel) (h : Holders) (r : Option Int) : Op → Holders
  | .mutexLock p muxid => if r = some 0 then k.setHandle h p muxid true else h
  | .mutexUnlock p muxid | .mutexDelete p muxid =>
    if r = some 0 then k.setHandle h p muxid false else h
  | .cvWait p muxid => if r = none then k.setHandle h p muxid false else h
  | .resume p =>
    match (k.sched.proc p).context with
    | .acquiresleep g => if r = some 0 then h.set p g true else h
    | .cvWait g muxid =>
      -- back to sleep on `g`, after another `mutex_unlock(muxid)`
      if r = none then (k.unlocked h p muxid.val).set p g false else h
    | _ => h
  | .exit p => fun q g => if q = p then false else h q g
  | _ => h

/-- One step of the kernel and of the history. -/
def HStep (x : Kernel × Holders) (op : Op) (x' : Kernel × Holders) : Prop :=
  x.1.Enabled op ∧ ∃ r, x.1.step op = .ok (r, x'.1) ∧ x'.2 = hold x.1 x.2 r op

/-- No mutex has two holders. -/
def Exclusive (x : Kernel × Holders) : Prop := ∀ g p q, x.2 p g → x.2 q g → p = q

/-- The condition on a step: `mutex_create` does not take a slot whose lock a live process owns. -/
def ExclOk (k : Kernel) : Op → Prop
  | .mutexCreate _ _ => ∀ g, k.mux.freeMutex = some g →
      ∀ p, (k.sched.proc p).Live → ¬ k.owns p g
  | _ => True

/-! ### The invariant -/

variable {k k' : Kernel} {h h' : Holders} {p q : Slot} {g : Mid} {op : Op} {m : Mux}
  {r : Option Int} {cid muxid : Int}

/-- A holder is alive and owns the lock, which is locked. -/
def HoldInv (k : Kernel) (h : Holders) : Prop :=
  ∀ p g, h p g → (k.sched.proc p).Live ∧ (k.mux.mutexes g).slp.locked ∧ k.owns p g

theorem HoldInv.exclusive (hi : HoldInv k h) (hpid : PidInv k.sched) : Exclusive (k, h) := by
  intro g p q hp hq
  obtain ⟨lp, -, op⟩ := hi p g hp
  obtain ⟨-, -, oq⟩ := hi q g hq
  exact hpid.inj p q (op.symm.trans oq) (by have := hpid.pos p lp.1; omega)

theorem HoldInv.mono (hi : HoldInv k h) (hh : ∀ p g, h' p g → h p g) : HoldInv k h' :=
  fun p g hp => hi p g (hh p g hp)

/-- The lock of a holder, and the holder, stay as they are. -/
theorem HoldInv.congr (hi : HoldInv k h)
    (hs : ∀ p g, h p g → ((k'.sched.proc p).Live ∧ k'.pid p = k.pid p) ∧
      (k'.mux.mutexes g).slp = (k.mux.mutexes g).slp) : HoldInv k' h := by
  intro p g hp
  obtain ⟨hl, hk, ho⟩ := hi p g hp
  obtain ⟨⟨hl', hp'⟩, hg⟩ := hs p g hp
  refine ⟨hl', by rw [hg]; exact hk, ?_⟩
  unfold owns at ho ⊢
  rw [hg, hp', ho]

theorem HoldInv.keep (hi : HoldInv k h) (hs : Keep k.sched k'.sched)
    (hm : ∀ g, (k'.mux.mutexes g).slp = (k.mux.mutexes g).slp) : HoldInv k' h :=
  hi.congr fun p g hp =>
    ⟨⟨(hs.entry p).live.mpr (hi p g hp).1, (hs.entry p).pid⟩, hm g⟩

theorem set_false_le (h : Holders) (p : Slot) (g : Mid) : ∀ q j, h.set p g false q j → h q j := by
  intro q j hq
  unfold Holders.set at hq
  split at hq
  · cases hq
  · exact hq

/-- A free lock is taken by `p`. -/
theorem HoldInv.lock (hi : HoldInv k h) (hs : Keep k.sched k'.sched) (hp : (k.sched.proc p).Live)
    (hg : ¬ (k.mux.mutexes g).slp.locked) (hself : (k'.mux.mutexes g).slp = ⟨true, k.pid p⟩)
    (hne : ∀ j, j ≠ g → (k'.mux.mutexes j).slp = (k.mux.mutexes j).slp) :
    HoldInv k' (h.set p g true) := by
  intro q j hq
  have hpid : k'.pid q = k.pid q := (hs.entry q).pid
  by_cases e : q = p ∧ j = g
  · obtain ⟨rfl, rfl⟩ := e
    exact ⟨(hs.entry q).live.mpr hp, by rw [hself], by unfold owns; rw [hself, hpid]⟩
  rw [Holders.set, if_neg e] at hq
  obtain ⟨hl, hk, ho⟩ := hi q j hq
  -- `g` was free, so `j` is another mutex
  have hj : j ≠ g := by rintro rfl; exact hg hk
  refine ⟨(hs.entry q).live.mpr hl, by rw [hne j hj]; exact hk, ?_⟩
  unfold owns at ho ⊢
  rw [hne j hj, hpid, ho]

/-- A lock that `p` owns is released. -/
theorem HoldInv.unlock (hi : HoldInv k h) (hpid : PidInv k.sched) (ho : k.owns p g)
    (hs : Keep k.sched k'.sched)
    (hne : ∀ j, j ≠ g → (k'.mux.mutexes j).slp = (k.mux.mutexes j).slp) :
    HoldInv k' (h.set p g false) := by
  intro q j hq
  obtain ⟨hl, hk, hoq⟩ := hi q j (set_false_le h p g q j hq)
  -- the only holder of `g` is `p`
  have hj : j ≠ g := by
    rintro rfl
    have e : q = p := hpid.inj q p (hoq.symm.trans ho) (by have := hpid.pos q hl.1; omega)
    simp [Holders.set, e] at hq
  refine ⟨(hs.entry q).live.mpr hl, by rw [hne j hj]; exact hk, ?_⟩
  have hp' : k'.pid q = k.pid q := (hs.entry q).pid
  unfold owns at hoq ⊢
  rw [hne j hj, hp', hoq]

theorem slp_upd_ne {f : Mutex → Mutex} {j : Mid} (hj : j ≠ g) :
    ((m.upd g f).mutexes j).slp = (m.mutexes j).slp := by
  rw [Mux.upd_mutexes, if_neg hj]

/-! ### Locking and unlocking -/

/-- `acquiresleep` gives the lock only if it is free. -/
theorem hold_acquire (hi : HoldInv k h) (hp : (k.sched.proc p).state = .running) :
    ((k.acquiresleep p g).1 = some 0 ∧ HoldInv (k.acquiresleep p g).2 (h.set p g true)) ∨
    ((k.acquiresleep p g).1 = none ∧ HoldInv (k.acquiresleep p g).2 h) := by
  have hkeep := ((still p).acquiresleep g hp).sched.keep
  unfold acquiresleep at hkeep ⊢
  split at hkeep
  · next hg =>
    rw [if_pos hg]
    exact .inr ⟨rfl, hi.keep hkeep fun _ => rfl⟩
  next hg =>
  rw [if_neg hg]
  refine .inl ⟨rfl, hi.lock hkeep (by simp [PEntry.Live, hp]) hg ?_ fun j hj => ?_⟩
  · simp only [toUser, Mux.upd_mutexes, if_true]
  · simp only [toUser]; exact slp_upd_ne hj

theorem hold_releasesleep (hi : HoldInv k h) (hpid : PidInv k.sched) (ho : k.owns p g) :
    HoldInv (k.releasesleep g) (h.set p g false) :=
  hi.unlock hpid ho ((still p).releasesleep k g).sched.keep fun j hj => by
    simp only [releasesleep]; exact slp_upd_ne hj

/-- `mutex_unlock`: `p` no longer holds the mutex if the call succeeded. -/
theorem hold_mutexUnlock (hi : HoldInv k h) (hpid : PidInv k.sched) (muxid : Int) :
    HoldInv (k.mutexUnlock p muxid).2 (k.unlocked h p muxid) := by
  unfold mutexUnlock unlocked
  cases k.handle p muxid with
  | none => exact hi
  | some x =>
    dsimp only
    split
    · next ho => exact hold_releasesleep hi hpid ho
    · exact hi

/-- The result of `mutex_unlock` says whether the caller was the owner. -/
theorem unlocked_eq (k : Kernel) (h : Holders) (p : Slot) (muxid : Int) :
    (if some (k.mutexUnlock p muxid).1 = some 0 then k.setHandle h p muxid false else h) =
      k.unlocked h p muxid := by
  unfold mutexUnlock setHandle unlocked
  cases k.handle p muxid with
  | none => rfl
  | some x =>
    dsimp only
    split <;> rfl

theorem cvSignal_slp (k : Kernel) (p : Slot) (muxid : Int) (g : Mid) :
    ((k.cvSignal p muxid).2.mux.mutexes g).slp = (k.mux.mutexes g).slp := by
  unfold cvSignal
  split
  · rfl
  · split
    · exact cvCount_slp k.mux _ (· + 1) g
    · rfl

/-- Going to sleep after `mutex_unlock` in the loop of `cv_wait`, or taking a signal. -/
theorem hold_cvLoop (hi : HoldInv k h) (hpid : PidInv k.sched)
    (hp : (k.sched.proc p).state = .running) (muxid : Fin MUX_MAXNUM) :
    ((k.cvLoop p g muxid).1 = some 0 ∧ HoldInv (k.cvLoop p g muxid).2 h) ∨
    ((k.cvLoop p g muxid).1 = none ∧
      HoldInv (k.cvLoop p g muxid).2 (k.unlocked h p muxid.val)) := by
  have hkeep := ((still p).cvLoop (k := k) g muxid hp).sched.keep
  unfold cvLoop at hkeep ⊢
  split at hkeep
  · next hc =>
    rw [if_pos hc]
    have hu := hold_mutexUnlock (p := p) hi hpid muxid.val
    exact .inr ⟨rfl, hu.keep (calm_sleep (mutexUnlock_running hp)).keep fun _ => rfl⟩
  · next hc =>
    rw [if_neg hc]
    exact .inl ⟨rfl, hi.keep hkeep (cvCount_slp k.mux g (· - 1))⟩

theorem hold_mutexDelete (hi : HoldInv k h) (hpid : PidInv k.sched) (muxid : Int) :
    HoldInv (k.mutexDelete p muxid).2 (if some (k.mutexDelete p muxid).1 = some 0
      then k.setHandle h p muxid false else h) := by
  have hkeep := ((calm_vm p).mutexDelete k muxid).1.keep
  unfold mutexDelete at hkeep ⊢
  unfold setHandle
  cases hh : k.handle p muxid with
  | none => exact hi
  | some x =>
    obtain ⟨i, g⟩ := x
    rw [hh] at hkeep
    dsimp only at hkeep ⊢
    by_cases ho : k.owns p g
    · rw [if_pos ho] at hkeep ⊢
      refine hi.unlock hpid ho hkeep fun j hj => ?_
      simp only [Mux.setLock_mutexes, Mux.addCount, releasesleep]
      rw [slp_upd_ne hj, slp_upd_ne hj]
    · rw [if_neg ho] at hkeep ⊢
      exact (hi.mono (set_false_le h p g)).keep hkeep (same_slp.addCount k.mux g (-1))

/-- `mutex_create` may re-initialise a slot that no live process owns. -/
theorem hold_mutexCreate {name : CStr} {r : Int} (hi : HoldInv k h)
    (hok : ExclOk k (.mutexCreate p name)) (hc : k.mux.mutexCreate p name = .ok (r, m)) :
    HoldInv { k with mux := m } h := by
  unfold Mux.mutexCreate at hc
  cases hg : k.mux.freeMutex with
  | none => rw [hg] at hc; cases hc; exact hi
  | some g =>
    rw [hg] at hc
    obtain ⟨nm, -, hc⟩ := of_bind hc
    have hslp : ∀ j, j ≠ g → (m.mutexes j).slp = (k.mux.mutexes j).slp := fun j hj => by
      dsimp only at hc
      split at hc <;> cases hc
      · exact slp_upd_ne hj
      · rw [Mux.setLock_mutexes]; exact slp_upd_ne hj
    refine hi.congr fun q j hq => ⟨⟨(hi q j hq).1, rfl⟩, hslp j ?_⟩
    rintro rfl
    exact hok j hg q (hi q j hq).1 (hi q j hq).2.2

/-! ### Creation and exit -/

/-- `allocproc` takes a slot that holds nothing. -/
theorem hold_alloc {cur r : Option Slot} (hi : HoldInv k h) (ha : k.allocproc cur cid = .ok (r, k')) :
    HoldInv k' h := by
  rcases allocproc_cases ha with ⟨-, rfl⟩ | ⟨i, s, hst, he, hrest⟩
  · exact hi
  have hne : ∀ p g, h p g → p ≠ i := fun p g hp => by
    rintro rfl
    exact not_live_of_unused hst (hi p g hp).1
  have hs : ∀ p, p ≠ i → (k'.sched.proc p) = s.proc p ∧
      ((s.proc p).Live ↔ (k.sched.proc p).Live) ∧ (s.proc p).pid = k.pid p := fun p hp => by
    refine ⟨?_, embryo_live he hp, ?_⟩
    · rcases hrest with ⟨-, -, -, hs⟩ | ⟨-, -, -, hs⟩ <;> rw [hs, upd_proc_ne hp]
    · rw [((embryo_cases he).entry p).pid, newborn_ne hp]; rfl
  refine hi.congr fun p g hp => ?_
  obtain ⟨h₁, h₂, h₃⟩ := hs p (hne p g hp)
  refine ⟨⟨by rw [h₁, h₂]; exact (hi p g hp).1, by unfold pid; rw [h₁, h₃]; rfl⟩, ?_⟩
  rcases hrest with ⟨-, -, hm, -⟩ | ⟨-, -, hm, -⟩
  · rw [hm]
  · exact same_slp.initLocks hm g

theorem hold_fork2 {r : Int} (hi : HoldInv k h) (hf : k.fork2 p cid = .ok (r, k')) :
    HoldInv k' h := by
  rcases fork2_cases hf with ha | ⟨np, k₁, ha, hm, hrest⟩
  · exact hold_alloc hi ha
  have h₁ := hold_alloc hi ha
  have hne : ∀ q g, h q g → q ≠ np := fun q g hq => by
    rintro rfl
    obtain ⟨s, hst, -⟩ := allocproc_some ha
    exact not_live_of_unused hst (hi q g hq).1
  refine h₁.congr fun q g hq => ⟨?_, by rw [hm]⟩
  have hl := (h₁ q g hq).1
  rcases hrest with ⟨v, -, -, hs⟩ | ⟨v, -, -, hs⟩
  · unfold pid; rw [hs, upd_proc_ne (hne q g hq)]; exact ⟨hl, rfl⟩
  · have hk := (child_cases hs).entry q
    rw [birth_ne (hne q g hq)] at hk
    exact ⟨hk.live.mpr hl, hk.pid⟩

/-- The loop of `exit` releases only locks that `p` owns. -/
theorem hold_exitLocks (hh : ∀ g, h p g = false) : ∀ (is : List (Fin MUX_MAXNUM)) {k : Kernel},
    HoldInv k h → PidInv k.sched → HoldInv (exitLocks p is k) h
  | [], _, hi, _ => hi
  | i :: is, k, hi, hpid => by
    refine hold_exitLocks hh is (k := exitLock p k i) ?_ (hpid.keep ((calm_vm p).exitLock k i).1.keep)
    have hcalm := ((calm_vm p).exitLock k i).1.keep
    unfold exitLock at hcalm ⊢
    split at hcalm
    · exact hi
    next g hl =>
    dsimp only at hcalm ⊢
    have hcount := same_slp.addCount k.mux g (-1)
    split at hcalm
    · next ho =>
      rw [if_pos ho]
      have ho' : k.owns p g := by unfold owns at ho ⊢; rw [← hcount]; exact ho
      refine (hi.unlock hpid ho' hcalm fun j hj => ?_).mono fun q j hq => ?_
      · simp only [releasesleep]; rw [slp_upd_ne hj, hcount]
      · have hqp : q ≠ p := by rintro rfl; simp [hh] at hq
        simpa [Holders.set, hqp] using hq
    · next ho =>
      rw [if_neg ho]
      exact hi.keep hcalm hcount

theorem hold_exit (hi : HoldInv k h) (hpid : PidInv k.sched) (he : k.exit p = .ok k') :
    HoldInv k' fun q g => if q = p then false else h q g := by
  obtain ⟨-, v, s, -, hr, rfl⟩ := exit_cases he
  have hs : Keep k.sched s :=
    ((calm.wakeParent _ _).trans (calm_abandon _ _)).keep.trans (frame_removeNode hr).keep
  have h₀ : HoldInv k fun q g => if q = p then false else h q g :=
    hi.mono fun q g hq => by split at hq <;> simp_all
  have h₁ : HoldInv { k with vm := v, sched := s } fun q g => if q = p then false else h q g :=
    h₀.keep hs fun _ => rfl
  have h₂ := hold_exitLocks (p := p) (by simp) (List.finRange MUX_MAXNUM) h₁ (hpid.keep hs)
  refine h₂.congr fun q g hq => ⟨?_, rfl⟩
  have hqp : q ≠ p := by rintro rfl; simp at hq
  unfold pid
  simp only [upd_proc_ne hqp]
  exact ⟨(h₂ q g hq).1, trivial⟩

theorem hold_wait (hi : HoldInv k h) (hp : (k.sched.proc p).state = .running)
    (hw : k.wait p = .ok (r, k')) : HoldInv k' h := by
  rcases wait_cases hw with ⟨q, -, hq, -, hm, hs⟩ | rfl | rfl
  · refine hi.congr fun p' g hp' => ⟨?_, by rw [hm]⟩
    obtain ⟨hl, -, -⟩ := hi p' g hp'
    have hne : p' ≠ q := by rintro rfl; exact hl.2 hq
    have hc := (calm_context (k.sched.upd q PEntry.reaped) p).entry p'
    rw [← hs, upd_proc_ne hne] at hc
    exact ⟨hc.live.mpr hl, hc.pid⟩
  · exact hi.keep (calm_context _ _).keep fun _ => rfl
  · exact hi.keep (calm_sleep hp).keep fun _ => rfl

/-! ### Steps and runs -/

theorem hold_mutexLock (hi : HoldInv k h) (hp : (k.sched.proc p).state = .running) :
    HoldInv (k.mutexLock p muxid).2 (if (k.mutexLock p muxid).1 = some 0
      then k.setHandle h p muxid true else h) := by
  unfold mutexLock setHandle
  cases k.handle p muxid with
  | none => simpa using hi
  | some x =>
    dsimp only
    split
    · simpa using hi
    · rcases hold_acquire (g := x.2) hi hp with ⟨hr, h'⟩ | ⟨hr, h'⟩
      · rw [if_pos hr]; exact h'
      · rw [if_neg (by simp [hr])]; exact h'

theorem hold_resume (hi : HoldInv k h) (hpid : PidInv k.sched)
    (hp : (k.sched.proc p).state = .running) (hs : k.resume p = .ok (r, k')) :
    HoldInv k' (hold k h r (.resume p)) := by
  unfold resume at hs
  simp only [hold]
  cases hc : (k.sched.proc p).context with
  | user => rw [hc] at hs; cases hs; exact hi
  | wait => rw [hc] at hs; exact hold_wait hi hp hs
  | sleep =>
    rw [hc] at hs
    cases hs
    exact hi.keep (calm_context k.sched p).keep fun _ => rfl
  | acquiresleep g =>
    rw [hc] at hs
    rw [← snd_of_ok hs, ← fst_of_ok hs]
    rcases hold_acquire (g := g) hi hp with ⟨hr, h'⟩ | ⟨hr, h'⟩
    · simp only [hr, if_true]; exact h'
    · simp only [hr, reduceCtorEq, if_false]; exact h'
  | cvWait g muxid =>
    rw [hc] at hs
    rw [← snd_of_ok hs, ← fst_of_ok hs]
    rcases hold_cvLoop (g := g) hi hpid hp muxid with ⟨hr, h'⟩ | ⟨hr, h'⟩
    · simp only [hr, reduceCtorEq, if_false]; exact h'
    · simp only [hr, if_true]
      exact h'.mono (set_false_le _ p g)

/-- The owner of a mutex that goes to sleep in `cv_wait` has unlocked it. -/
theorem hold_cvWait (hi : HoldInv k h) (hpid : PidInv k.sched)
    (hp : (k.sched.proc p).state = .running) (hs : k.cvWait p muxid = .ok (r, k')) :
    HoldInv k' (if r = none then k.setHandle h p muxid false else h) := by
  unfold cvWait at hs
  unfold setHandle
  cases hh : k.handle p muxid with
  | none => rw [hh] at hs; cases hs; exact hi
  | some x =>
    obtain ⟨i, g⟩ := x
    rw [hh] at hs
    dsimp only at hs ⊢
    split at hs
    · next ho =>
      split at hs
      · have hmux := (handle_eq_some hh).1
        rw [← snd_of_ok hs, ← fst_of_ok hs]
        rcases hold_cvLoop (g := g) hi hpid hp i with ⟨hr, h'⟩ | ⟨hr, h'⟩
        · simp only [hr, reduceCtorEq, if_false]; exact h'
        simp only [hr, if_true]
        have hu : k.unlocked h p i.val = h.set p g false := by
          unfold unlocked; rw [hmux, hh]; simp [ho]
        exact hu ▸ h'
      · cases hs
    · cases hs; exact hi

/-- **One step.** -/
theorem hold_step (hi : HoldInv k h) (hpid : PidInv k.sched) (he : k.Enabled op)
    (hs : k.step op = .ok (r, k')) (hok : ExclOk k op) : HoldInv k' (hold k h r op) := by
  cases op with
  | allocFirst =>
    obtain ⟨⟨c, k₁⟩, h₁, hs⟩ := of_bind hs
    cases hs; exact hold_alloc hi h₁
  | userinit p =>
    obtain ⟨k₁, h₁, hs⟩ := of_bind hs
    cases hs
    obtain ⟨hc, -, hm⟩ := userinit_cases he h₁
    exact hi.keep hc.keep fun _ => by rw [hm]
  | fork2 p cid =>
    obtain ⟨⟨c, k₁⟩, h₁, hs⟩ := of_bind hs
    cases hs; exact hold_fork2 hi h₁
  | exit p =>
    obtain ⟨k₁, h₁, hs⟩ := of_bind hs
    cases hs; exact hold_exit hi hpid h₁
  | wait p => exact hold_wait hi he.1 hs
  | sleep p addr => cases hs; exact hi.keep (calm_sleep he.1).keep fun _ => rfl
  | resume p => exact hold_resume hi hpid he.1 hs
  | mutexCreate p name =>
    obtain ⟨⟨c, m⟩, h₁, hs⟩ := of_bind hs
    cases hs; exact hold_mutexCreate hi hok h₁
  | mutexGet p name => cases hs; exact hi.keep (.refl _) (same_slp.mutexGet k.mux p name)
  | mutexDelete p muxid =>
    cases hs
    exact hold_mutexDelete hi hpid muxid
  | mutexLock p muxid =>
    rw [← snd_of_ok hs, ← fst_of_ok hs]
    exact hold_mutexLock hi he.1
  | mutexUnlock p muxid =>
    cases hs
    have hu := hold_mutexUnlock (p := p) hi hpid muxid
    rw [← unlocked_eq] at hu
    exact hu
  | cvWait p muxid => exact hold_cvWait hi hpid he.1 hs
  | cvSignal p muxid =>
    cases hs
    exact hi.keep ((still p).cvSignal k p muxid).sched.keep (cvSignal_slp k p muxid)
  | _ =>
    obtain ⟨hk, hm, -⟩ := keep.bare Sched.Frame.keep
      (fun _ _ _ _ _ _ => ⟨rfl, .rfl, .rfl, id⟩) he hs rfl
    exact hi.keep hk fun _ => by rw [hm]

/-- `HStep` as a function. -/
def holdExec? (x : Kernel × Holders) (op : Op) : Option (Kernel × Holders) :=
  if x.1.Enabled op then
    match x.1.step op with
    | .ok (r, k') => some (k', hold x.1 x.2 r op)
    | .error _ => none
  else none

theorem hstep_of_holdExec? (x : Kernel × Holders) (op : Op) (x' : Kernel × Holders)
    (h : holdExec? x op = some x') : HStep x op x' := by
  unfold holdExec? at h
  split at h
  · next he =>
    split at h
    · next r k₁ hs => cases h; exact ⟨he, r, hs, rfl⟩
    · cases h
  · cases h

end Xv6.Kernel
