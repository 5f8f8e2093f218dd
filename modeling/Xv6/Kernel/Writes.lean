import Xv6.Kernel.RunQueue
import Xv6.Kernel.System

/-!
# Kernel — Writes

What the calls write, once for all relations that they keep.  Most operations of the kernel wake
processes, put their caller to sleep or let it return, and lock and unlock mutexes.  A relation
between the state before and after that holds for each of these writes holds for the operations:

* `Sched.Passive` and `Sched.Active` are the writes to the entries of the process table, those that
  may hit any process and those to the entry of the caller;
* `Kernel.Unlocks` are the writes of `mutex_unlock`; `Deletes` adds those of `mutex_delete` and
  `exit`, `CvSignals` those of `cv_signal`, `Locks` those of `mutex_lock`, and `CvLocks` those of
  `cv_wait`;
* `Mux.EachRel` is for relations that look at one mutex at a time.
-/

namespace Xv6

open Function

namespace Sched

variable {s s₁ s' : Sched} {p i j np : Slot} {cid : Int} {b : Fin PRIO_MAX} {pid : Int}

/-! ### The queue operations, on any queue -/

theorem frame_enqueue {prio : Int} (h : pq1Enqueue s p prio = .ok s') : Frame s s' := by
  obtain ⟨b, -, h⟩ := of_bind h
  split at h <;> cases h
  · exact frame_write _ _ _
  · exact (frame_write _ _ _).trans (frame_write _ _ _)

theorem frame_removeLoop : ∀ {n : Nat} {prev cur : Option Slot},
    removeLoop s b pid n prev cur = .ok s' → Frame s s'
  | _, _, none, h => by rw [removeLoop_none] at h; cases h; exact .refl _
  | 0, _, some _, h => by cases h
  | n + 1, prev, some cur, h => by
    rw [removeLoop_some] at h
    split at h
    · cases h
      refine Frame.trans ?_ (frame_write _ _ _)
      cases prev with
      | none => exact frame_write _ (.head b) _
      | some j => exact frame_write _ (.next j) _
    · exact frame_removeLoop h

theorem frame_removeNode (h : removeNode s p = .ok s') : Frame s s' := by
  obtain ⟨b, -, h⟩ := of_bind h
  exact frame_removeLoop h

theorem frame_takeOut (h : takeOut s b p = .ok s') : Frame s s' := by
  unfold takeOut at h
  split at h
  · cases h; exact frame_write _ _ _
  obtain ⟨c, -, h⟩ := of_bind h
  split at h <;> cases h
  · exact .refl _
  · exact frame_write _ _ _

theorem frame_putLast (h : putLast s b p = .ok s') : Frame s s' := by
  obtain ⟨c, -, h⟩ := of_bind h
  cases h
  exact (frame_write _ _ _).trans (frame_write _ _ _)

theorem skipLoop_runnable : ∀ {n : Nat} {cur : Option Slot},
    skipLoop s n cur = .ok (some p) → (s.proc p).state = .runnable
  | n, none, h => by cases n <;> cases h
  | 0, some c, h => by
    unfold skipLoop at h
    split at h <;> cases h
    assumption
  | n + 1, some c, h => by
    unfold skipLoop at h
    split at h
    · cases h; assumption
    · exact skipLoop_runnable h

theorem firstRunnable_runnable : ∀ {bs : List (Fin PRIO_MAX)},
    firstRunnable s bs = .ok (some p) → (s.proc p).state = .runnable
  | [], h => by cases h
  | b :: bs, h => by
    obtain ⟨r, hr, h⟩ := of_bind h
    cases r with
    | none => exact firstRunnable_runnable h
    | some cur => cases h; exact skipLoop_runnable hr

/-- What `pq1_dequeue` returns is RUNNABLE, and only links change. -/
theorem frame_dequeue {r : Option Slot} (h : pq1Dequeue s = .ok (r, s')) :
    Frame s s' ∧ ∀ p ∈ r, (s.proc p).state = .runnable := by
  obtain ⟨c, hc, h⟩ := of_bind h
  cases c with
  | none => cases h; exact ⟨.refl _, by simp⟩
  | some cur =>
    obtain ⟨b, -, h⟩ := of_bind h
    obtain ⟨s₁, h₁, h⟩ := of_bind h
    obtain ⟨s₂, h₂, h⟩ := of_bind h
    cases h
    refine ⟨(frame_takeOut h₁).trans (frame_putLast h₂), fun p hp => ?_⟩
    cases hp
    exact firstRunnable_runnable hc

/-- The slot that `allocproc` fills. -/
def newborn (s : Sched) (i : Slot) : Sched :=
  { s with nextpid := s.nextpid + 1 }.upd i fun e =>
    { e with state := .embryo, pid := s.nextpid, priority := if s.nextpid = 1 then 0 else e.priority }

theorem newborn_ne (hj : j ≠ i) : (s.newborn i).proc j = s.proc j :=
  upd_proc_ne hj

theorem newborn_self : (s.newborn i).proc i = { s.proc i with
    state := .embryo, pid := s.nextpid,
    priority := if s.nextpid = 1 then 0 else (s.proc i).priority } := upd_proc_self ..

theorem frame_embryo (h : s.embryo i = .ok s') : Frame (s.newborn i) s' := by
  unfold embryo at h
  dsimp only at h
  split at h
  · cases h
  split at h
  · next h1 =>
    refine Frame.trans ?_ (frame_enqueue h)
    refine ⟨fun j => ?_, rfl, rfl⟩
    by_cases e : j = i
    · subst e; simp [newborn, h1]
    · simp [newborn, upd_proc_ne e]
  · next h1 =>
    cases h
    refine ⟨fun j => ?_, rfl, rfl⟩
    by_cases e : j = i
    · subst e; simp [newborn, h1]
    · simp [newborn, upd_proc_ne e]

/-- The child `np` that `fork2` completes. -/
def birth (s : Sched) (p np : Slot) (cid : Int) : Sched :=
  s.upd np fun e =>
    { e with cid := cid, parent := some p, priority := s.childPriority p np, state := .runnable }

theorem birth_ne (hj : j ≠ np) : (s.birth p np cid).proc j = s.proc j := upd_proc_ne hj

theorem birth_self : (s.birth p np cid).proc np = { s.proc np with
    cid := cid, parent := some p, priority := s.childPriority p np, state := .runnable } :=
  upd_proc_self ..

theorem frame_child (h : s.child p np cid = .ok s') : Frame (s.birth p np cid) s' := by
  obtain ⟨s₁, h₁, h⟩ := of_bind h
  cases h
  have hf := frame_enqueue h₁
  refine ⟨fun j => ?_, hf.nextpid, hf.initproc⟩
  have hc := hf.core j
  by_cases e : j = np
  · subst e
    rw [upd_proc_self] at hc ⊢
    rw [birth_self]
    exact congrArg (fun e => { e with state := .runnable }) hc
  · rw [upd_proc_ne e] at hc ⊢
    rw [birth_ne e]
    exact hc

/-- The checks of `prio_set(pid, priority)` called by `p` pass, and `q` is the process it found. -/
structure PrioAllowed (s : Sched) (p : Slot) (pid priority : Int) (q : Slot) : Prop where
  valid : 0 ≤ priority ∧ priority < PRIO_MAX
  lower : (s.proc p).priority ≤ priority
  found : findPid s pid = some q
  ancestor : ancestorLoop s (s.proc p).pid NPROC (some q) = .ok true

/-- `prio_set` past its checks: `q` leaves its bucket, gets the priority, and enters the bucket of
that priority. -/
theorem prioSet_cases {priority r : Int} (h : prioSet s p pid priority = .ok (r, s')) :
    (s' = s ∧ ∀ q, ¬ PrioAllowed s p pid priority q) ∨
    ∃ q s₁, PrioAllowed s p pid priority q ∧ removeNode s q = .ok s₁ ∧
      pq1Enqueue (s₁.upd q fun e => { e with priority := priority }) q priority = .ok s' := by
  unfold prioSet at h
  split at h
  · cases h; exact .inl ⟨rfl, fun q a => by have := a.valid; omega⟩
  split at h
  · cases h; exact .inl ⟨rfl, fun q a => by have := a.lower; omega⟩
  obtain ⟨found, hf, h⟩ := of_bind h
  cases found with
  | false =>
    cases h
    refine .inl ⟨rfl, fun q a => ?_⟩
    rw [a.found, a.ancestor] at hf
    cases hf
  | true =>
    cases hq : findPid s pid with
    | none =>
      rw [hq] at h
      cases h
      exact .inl ⟨rfl, fun q a => by rw [a.found] at hq; cases hq⟩
    | some q =>
      simp only [hq, Bool.not_true, Bool.false_eq_true, if_false] at h
      obtain ⟨s₁, h₁, h⟩ := of_bind h
      obtain ⟨s₂, h₂, h⟩ := of_bind h
      cases h
      exact .inr ⟨q, s₁, ⟨by omega, by omega, hq, hq ▸ hf⟩, h₁, h₂⟩

/-! ### Entries -/

/-- `R` holds when every entry changes as `E` allows, and `E` allows a process to be woken, killed,
preempted and dispatched. -/
structure Passive (E : Slot → PEntry → PEntry → Prop) (R : Sched → Sched → Prop) : Prop where
  trans : ∀ {s s₁ s'}, R s s₁ → R s₁ s' → R s s'
  entries : ∀ {s : Sched} {f : Slot → PEntry}, (∀ i, E i (s.proc i) (f i)) → R s { s with proc := f }
  same : ∀ i e, E i e e
  woken : ∀ {i e}, e.state = .sleeping → E i e { e with state := .runnable }
  killed : ∀ i e, E i e { e with killed := true }
  preempted : ∀ {i e}, e.state = .running → E i e { e with state := .runnable }
  dispatched : ∀ {i e}, e.state = .runnable → E i e { e with state := .running, chan := none }

/-- `Passive`, and the caller `p` may return to user space, and sleep as `S` allows. -/
structure Active (p : Slot) (S : Chan → Context → Prop) (E : Slot → PEntry → PEntry → Prop)
    (R : Sched → Sched → Prop) : Prop extends Passive E R where
  returns : ∀ e, E p e { e with context := .user }
  asleep : ∀ {chan ctx e}, S chan ctx → e.state = .running →
    E p e { e with chan := some chan, state := .sleeping, context := ctx }

section Entries

variable {S : Chan → Context → Prop} {E : Slot → PEntry → PEntry → Prop} {R : Sched → Sched → Prop}

namespace Passive

variable (h : Passive E R)

include h

theorem refl (s : Sched) : R s s := h.entries fun i => h.same i _

theorem upd {f : PEntry → PEntry} (hf : E i (s.proc i) (f (s.proc i))) : R s (s.upd i f) := by
  refine h.entries fun j => ?_
  by_cases e : j = i
  · subst e; rw [update_self]; exact hf
  · rw [update_of_ne e]; exact h.same j _

theorem wakeup1 (s : Sched) (chan : Chan) : R s (s.wakeup1 chan) := by
  refine h.entries fun i => ?_
  split
  · next hi => exact h.woken hi.1
  · exact h.same i _

theorem wakeParent (s : Sched) (p : Slot) : R s (s.wakeParent p) := by
  unfold Sched.wakeParent
  split
  · exact h.refl s
  · exact h.wakeup1 _ _

theorem yield (hp : (s.proc p).state = .running) : R s (s.yield p) := h.upd (h.preempted hp)

theorem kill (s : Sched) (pid : Int) : R s (s.kill pid).2 := by
  unfold Sched.kill
  split
  · exact h.refl s
  next i _ =>
  by_cases hs : (s.proc i).state = .sleeping
  · have hw : R s (s.upd i fun e => { e with state := .runnable }) := h.upd (h.woken hs)
    refine h.trans hw ?_
    have hk := h.upd (s := s.upd i fun e => { e with state := .runnable }) (i := i)
      (f := fun e => { e with killed := true }) (h.killed i _)
    simpa [Sched.upd, hs] using hk
  · simp only [Sched.upd, if_neg hs]
    exact h.upd (f := fun e => { e with killed := true }) (h.killed i _)

/-- Links and buckets may change. -/
theorem scheduler {r : Option Slot} (hl : ∀ {s s' : Sched}, Frame s s' → R s s')
    (hs : s.scheduler = .ok (r, s')) : R s s' := by
  obtain ⟨⟨q, s₁⟩, hq, hs⟩ := of_bind hs
  obtain ⟨hf, hr⟩ := frame_dequeue hq
  cases q with
  | none => cases hs; exact hl hf
  | some q =>
    cases hs
    exact h.trans (hl hf) (h.upd (h.dispatched ((hf.state q).trans (hr q rfl))))

/-- Priorities may change too. -/
theorem prioSet {pid priority r : Int} (hl : ∀ {s s' : Sched}, Frame s s' → R s s')
    (hv : ∀ i e, E i e { e with priority := priority })
    (hs : s.prioSet p pid priority = .ok (r, s')) : R s s' := by
  rcases prioSet_cases hs with ⟨rfl, -⟩ | ⟨q, s₁, -, h₁, h₂⟩
  · exact h.refl _
  · exact h.trans (hl (frame_removeNode h₁)) (h.trans (h.upd (hv q _)) (hl (frame_enqueue h₂)))

/-- The children of `p` may get another parent. -/
theorem abandon (p : Slot) (hr : ∀ i e v, e.parent = some p → E i e { e with parent := v }) :
    R s (s.abandon p) := by
  have h₁ : R s (s.reparent p) := by
    refine h.entries fun i => ?_
    split
    · next hi => exact hr i _ _ hi
    · exact h.same i _
  unfold Sched.abandon
  split
  · split
    · exact h₁
    · exact h.trans h₁ (h.wakeup1 _ _)
  · exact h₁

end Passive

theorem Active.user (h : Active p S E R) (s : Sched) :
    R s (s.upd p fun e => { e with context := .user }) := h.upd (h.returns _)

theorem Active.sleep {chan : Chan} {ctx : Context} (h : Active p S E R) (hS : S chan ctx)
    (hp : (s.proc p).state = .running) : R s (s.sleep p chan ctx) := h.upd (h.asleep hS hp)

end Entries

end Sched

namespace Mux

/-- `M` holds between every mutex of `m` and the same one of `m'`. -/
def Each (M : Mutex → Mutex → Prop) (m m' : Mux) : Prop := ∀ g, M (m.mutexes g) (m'.mutexes g)

/-- `M` is kept by a change of `count`. -/
structure EachRel (M : Mutex → Mutex → Prop) : Prop where
  same : ∀ e, M e e
  next : ∀ {e e₁ e'}, M e e₁ → M e₁ e' → M e e'
  count : ∀ e n, M e { e with count := n }

namespace EachRel

variable {M : Mutex → Mutex → Prop} {m m₁ m' : Mux} (h : EachRel M)

include h

theorem refl (m : Mux) : Each M m m := fun _ => h.same _

theorem trans (h₁ : Each M m m₁) (h₂ : Each M m₁ m') : Each M m m' := fun g => h.next (h₁ g) (h₂ g)

theorem upd {g : Mid} {f : Mutex → Mutex} (hf : M (m.mutexes g) (f (m.mutexes g))) :
    Each M m (m.upd g f) := by
  intro j
  rw [upd_mutexes]
  split
  · next e => rw [e]; exact hf
  · exact h.same _

theorem addCount (m : Mux) (g : Mid) (d : Int) : Each M m (m.addCount g d) := h.upd (h.count _ _)

theorem copyLocks (p np : Slot) : ∀ (is : List (Fin MUX_MAXNUM)) (m : Mux),
    Each M m (Mux.copyLocks p np is m)
  | [], m => h.refl m
  | i :: is, m => by
    refine h.trans ?_ (copyLocks p np is (copyLock p np m i))
    unfold copyLock
    dsimp only
    split
    · exact h.refl m
    · exact h.addCount (m.setLock np i (m.locks p i)) _ _

theorem initLocks {cur : Option Slot} {np : Slot} {pid : Int}
    (hm : m.initLocks cur np pid = .ok m') : Each M m m' := by
  unfold Mux.initLocks at hm
  split at hm
  · cases hm; exact h.refl m
  · split at hm
    · cases hm
    · cases hm; exact h.copyLocks _ _ _ _

theorem mutexGet (m : Mux) (p : Slot) (name : CStr) : Each M m (m.mutexGet p name).2 := by
  unfold Mux.mutexGet
  split
  · exact h.refl m
  next g _ =>
  generalize List.finRange MUX_MAXNUM = is
  induction is with
  | nil => exact h.refl m
  | cons i is ih =>
    unfold getLoop
    split
    · exact h.refl m
    · split
      · exact h.refl m
      · exact ih

end EachRel

end Mux

namespace Kernel

variable {k k₁ k' : Kernel} {p : Slot} {R : Kernel → Kernel → Prop}

/-! ### Mutexes -/

/-- `R` is kept by what `mutex_unlock` writes. -/
structure Unlocks (R : Kernel → Kernel → Prop) : Prop where
  refl : ∀ k, R k k
  trans : ∀ {k k₁ k'}, R k k₁ → R k₁ k' → R k k'
  wakeup : ∀ k chan, R k { k with sched := k.sched.wakeup1 chan }
  unlock : ∀ k g, R k { k with mux := k.mux.upd g fun e => { e with slp := ⟨false, 0⟩ } }

/-- `Unlocks`, with what `mutex_delete` and `exit` called by `p` write. -/
structure Deletes (p : Slot) (R : Kernel → Kernel → Prop) : Prop extends Unlocks R where
  count : ∀ k g d, R k { k with mux := k.mux.addCount g d }
  handle : ∀ k i v, R k { k with mux := k.mux.setLock p i v }

/-- `Unlocks`, with what `mutex_lock` called by `p` writes. -/
structure Locks (p : Slot) (R : Kernel → Kernel → Prop) : Prop extends Unlocks R where
  user : ∀ k, R k (k.toUser p)
  sleep : ∀ {k} g, (k.sched.proc p).state = .running →
    R k { k with sched := k.sched.sleep p (.slp g) (.acquiresleep g) }
  lock : ∀ k g, R k { k with mux := k.mux.upd g fun e => { e with slp := ⟨true, k.pid p⟩ } }

/-- `Unlocks`, with what `cv_signal` writes. -/
structure CvSignals (R : Kernel → Kernel → Prop) : Prop extends Unlocks R where
  cvCount : ∀ k g (f : Int → Int),
    R k { k with mux := k.mux.upd g fun e => { e with cvCount := f e.cvCount } }

/-- `Locks` and `CvSignals`, with what `cv_wait` writes. -/
structure CvLocks (p : Slot) (R : Kernel → Kernel → Prop) : Prop extends Locks p R, CvSignals R where
  cvSleep : ∀ {k} g i, (k.sched.proc p).state = .running →
    R k { k with sched := k.sched.sleep p (.cv g) (.cvWait g i) }

/-- Waking others does not stop `p`. -/
theorem mutexUnlock_running {muxid : Int} (hp : (k.sched.proc p).state = .running) :
    ((k.mutexUnlock p muxid).2.sched.proc p).state = .running := by
  unfold mutexUnlock
  split
  · exact hp
  · split
    · simp [releasesleep, Sched.wakeup1, hp]
    · exact hp

/-- Two relations that are kept together. -/
theorem Deletes.and {R' : Kernel → Kernel → Prop} (h : Deletes p R) (h' : Deletes p R') :
    Deletes p fun k k' => R k k' ∧ R' k k' where
  refl k := ⟨h.refl k, h'.refl k⟩
  trans a b := ⟨h.trans a.1 b.1, h'.trans a.2 b.2⟩
  wakeup k c := ⟨h.wakeup k c, h'.wakeup k c⟩
  unlock k g := ⟨h.unlock k g, h'.unlock k g⟩
  count k g d := ⟨h.count k g d, h'.count k g d⟩
  handle k i v := ⟨h.handle k i v, h'.handle k i v⟩

section Unlocks

variable (h : Unlocks R)

include h

theorem Unlocks.releasesleep (k : Kernel) (g : Mid) : R k (k.releasesleep g) :=
  h.trans (h.unlock k g) (h.wakeup _ (.slp g))

theorem Unlocks.mutexUnlock (k : Kernel) (p : Slot) (muxid : Int) :
    R k (k.mutexUnlock p muxid).2 := by
  unfold Kernel.mutexUnlock
  split
  · exact h.refl k
  · split
    · exact h.releasesleep k _
    · exact h.refl k

end Unlocks

theorem CvSignals.cvSignal (h : CvSignals R) (k : Kernel) (p : Slot) (muxid : Int) :
    R k (k.cvSignal p muxid).2 := by
  unfold Kernel.cvSignal
  split
  · exact h.refl k
  · split
    · exact h.trans (h.cvCount k _ fun n => n + 1) (h.wakeup _ _)
    · exact h.refl k

section Deletes

variable (h : Deletes p R)

include h

theorem Deletes.mutexDelete (k : Kernel) (muxid : Int) : R k (k.mutexDelete p muxid).2 := by
  unfold Kernel.mutexDelete
  split
  · exact h.refl k
  next g _ =>
  dsimp only
  split
  · exact h.trans (h.releasesleep k g) (h.trans (h.count _ g (-1)) (h.handle _ _ none))
  · exact h.trans (h.count k g (-1)) (h.handle _ _ none)

theorem Deletes.exitLock (k : Kernel) (i : Fin MUX_MAXNUM) : R k (exitLock p k i) := by
  unfold Kernel.exitLock
  split
  · exact h.refl k
  next g _ =>
  dsimp only
  split
  · exact h.trans (h.count k g (-1)) (h.releasesleep _ g)
  · exact h.count k g (-1)

theorem Deletes.exitLocks : ∀ (is : List (Fin MUX_MAXNUM)) (k : Kernel), R k (exitLocks p is k)
  | [], k => h.refl k
  | i :: is, k => h.trans (h.exitLock k i) (Deletes.exitLocks is _)

end Deletes

section Locks

variable (h : Locks p R)

include h

theorem Locks.acquiresleep (g : Mid) (hp : (k.sched.proc p).state = .running) :
    R k (k.acquiresleep p g).2 := by
  unfold Kernel.acquiresleep
  split
  · exact h.sleep g hp
  · exact h.trans (h.lock k g) (h.user _)

theorem Locks.mutexLock (muxid : Int) (hp : (k.sched.proc p).state = .running) :
    R k (k.mutexLock p muxid).2 := by
  unfold Kernel.mutexLock
  split
  · exact h.refl k
  · split
    · exact h.refl k
    · exact h.acquiresleep _ hp

end Locks

section CvLocks

variable (h : CvLocks p R)

include h

theorem CvLocks.cvLoop (g : Mid) (i : Fin MUX_MAXNUM) (hp : (k.sched.proc p).state = .running) :
    R k (k.cvLoop p g i).2 := by
  unfold Kernel.cvLoop
  split
  · exact h.trans (h.mutexUnlock k p i.val) (h.cvSleep g i (mutexUnlock_running hp))
  · exact h.trans (h.cvCount k g fun n => n - 1) (h.user _)

theorem CvLocks.cvWait {muxid : Int} {r : Option Int} (hp : (k.sched.proc p).state = .running)
    (hs : k.cvWait p muxid = .ok (r, k')) : R k k' := by
  unfold Kernel.cvWait at hs
  split at hs
  · cases hs; exact h.refl k
  split at hs
  · split at hs
    · rw [← Res.snd_of_ok hs]; exact h.cvLoop _ _ hp
    · cases hs
  · cases hs; exact h.refl k

/-- The rest of a call. -/
theorem CvLocks.resume {r : Option Int} (hp : (k.sched.proc p).state = .running)
    (hs : k.resume p = .ok (r, k')) : R k k' ∨ k.wait p = .ok (r, k') := by
  unfold Kernel.resume at hs
  split at hs
  · cases hs; exact .inl (h.refl k)
  · exact .inr hs
  · rw [← Res.snd_of_ok hs]; exact .inl (h.acquiresleep _ hp)
  · rw [← Res.snd_of_ok hs]; exact .inl (h.cvLoop _ _ hp)
  · cases hs; exact .inl (h.user _)

end CvLocks

end Kernel

/-- The operations that create and reap no process, put nobody to sleep and touch no mutex. -/
def Kernel.Op.bare : Kernel.Op → Bool
  | .kill _ _ | .yield _ | .scheduler | .prioSet _ _ _ | .wakeup _ | .growproc _ _ | .exec _ _ _
  | .shmGet _ _ | .shmRem _ _ | .containers _ => true
  | _ => false

section Relations

variable {p : Slot} {S : Chan → Context → Prop} {E : Slot → PEntry → PEntry → Prop}
  {R : Sched → Sched → Prop}

theorem Sched.Passive.bare {k k' : Kernel} {op : Kernel.Op} {r : Option Int}
    (h : Sched.Passive E R) (hl : ∀ {s s' : Sched}, Sched.Frame s s' → R s s')
    (hv : ∀ p pid v, op = .prioSet p pid v → ∀ i e, E i e { e with priority := v })
    (he : k.Enabled op) (hs : k.step op = .ok (r, k')) (ho : op.bare) :
    R k.sched k'.sched ∧ k'.mux = k.mux ∧ (k'.con = k.con ∨ ∃ con, op = .containers con) := by
  cases op with
  | kill p pid => cases hs; exact ⟨h.kill _ _, rfl, .inl rfl⟩
  | yield p => cases hs; exact ⟨h.yield he, rfl, .inl rfl⟩
  | scheduler =>
    obtain ⟨⟨c, s⟩, h₁, hs⟩ := of_bind hs
    cases hs; exact ⟨h.scheduler hl h₁, rfl, .inl rfl⟩
  | prioSet p pid priority =>
    obtain ⟨⟨c, s⟩, h₁, hs⟩ := of_bind hs
    cases hs; exact ⟨h.prioSet hl (hv p pid priority rfl) h₁, rfl, .inl rfl⟩
  | wakeup addr => cases hs; exact ⟨h.wakeup1 _ _, rfl, .inl rfl⟩
  | growproc p n | exec p file argv | shmGet p name | shmRem p name =>
    obtain ⟨x, -, hs⟩ := of_bind hs
    cases hs; exact ⟨h.refl _, rfl, .inl rfl⟩
  | containers con => cases hs; exact ⟨h.refl _, rfl, .inr ⟨con, rfl⟩⟩
  | _ => cases ho

/-- A relation on the process table is kept by what touches only mutexes. -/
theorem Sched.Passive.deletes (h : Sched.Passive E R) (p : Slot) :
    Kernel.Deletes p fun k k' => R k.sched k'.sched where
  refl _ := h.refl _
  trans := h.trans
  wakeup _ _ := h.wakeup1 _ _
  unlock _ _ := h.refl _
  count _ _ _ := h.refl _
  handle _ _ _ := h.refl _

theorem Sched.Passive.signals (h : Sched.Passive E R) :
    Kernel.CvSignals fun k k' => R k.sched k'.sched where
  toUnlocks := (h.deletes 0).toUnlocks
  cvCount _ _ _ := h.refl _

theorem Sched.Active.locks (h : Sched.Active p S E R) (hS : ∀ g, S (.slp g) (.acquiresleep g)) :
    Kernel.Locks p fun k k' => R k.sched k'.sched where
  toUnlocks := (h.deletes p).toUnlocks
  user _ := h.user _
  sleep g hp := h.sleep (hS g) hp
  lock _ _ := h.refl _

theorem Sched.Active.cvLocks (h : Sched.Active p S E R) (hS : ∀ g, S (.slp g) (.acquiresleep g))
    (hcv : ∀ g i, S (.cv g) (.cvWait g i)) : Kernel.CvLocks p fun k k' => R k.sched k'.sched where
  toLocks := h.locks hS
  cvSleep g i hp := h.sleep (hcv g i) hp
  cvCount _ _ _ := h.refl _

end Relations

variable {M : Mutex → Mutex → Prop}

/-- A relation on the mutexes that lets the sleep lock be freed. -/
theorem Mux.EachRel.deletes (h : Mux.EachRel M) (p : Slot)
    (hf : ∀ e, M e { e with slp := ⟨false, 0⟩ }) :
    Kernel.Deletes p fun k k' => Mux.Each M k.mux k'.mux where
  refl _ := h.refl _
  trans := h.trans
  wakeup _ _ := h.refl _
  unlock _ _ := h.upd (f := fun e => { e with slp := ⟨false, 0⟩ }) (hf _)
  count _ _ _ := h.addCount _ _ _
  handle _ _ _ := h.refl _

/-- A relation on the mutexes that does not look at the sleep lock. -/
theorem Mux.EachRel.locks (h : Mux.EachRel M) (p : Slot) (hslp : ∀ e v, M e { e with slp := v }) :
    Kernel.Locks p fun k k' => Mux.Each M k.mux k'.mux where
  toUnlocks := (h.deletes p fun e => hslp e _).toUnlocks
  user _ := h.refl _
  sleep _ _ := h.refl _
  lock k _ := h.upd (f := fun e => { e with slp := ⟨true, k.pid p⟩ }) (hslp _ _)

/-- Nor at the count of signals. -/
theorem Mux.EachRel.cvLocks (h : Mux.EachRel M) (p : Slot) (hslp : ∀ e v, M e { e with slp := v })
    (hcv : ∀ e n, M e { e with cvCount := n }) :
    Kernel.CvLocks p fun k k' => Mux.Each M k.mux k'.mux where
  toLocks := h.locks p hslp
  cvCount _ _ f := h.upd (f := fun e => { e with cvCount := f e.cvCount }) (hcv _ _)
  cvSleep _ _ _ := h.refl _

namespace Kernel

theorem same_slp : Mux.EachRel fun e e' => e'.slp = e.slp where
  same _ := rfl
  next h₁ h₂ := h₂.trans h₁
  count _ _ := rfl

theorem cvCount_slp (m : Mux) (g : Mid) (f : Int → Int) : Mux.Each (fun e e' => e'.slp = e.slp) m
      (m.upd g fun e => { e with cvCount := f e.cvCount }) := same_slp.upd rfl

end Kernel

end Xv6
