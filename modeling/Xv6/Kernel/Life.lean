import Xv6.Kernel.Writes

/-!
# Kernel — Life

The life of a slot of the process table: which operations take it into use, make it a zombie and
free it.  Most operations do none of these (`Keep`); the inversion `step_kind` names the ones that
do, with what they do to each subsystem.  In every run the pids of the slots are distinct and
below `nextpid`, and a free slot has no parent (`PidInv`); `kill` hits the right process
(`kill_exact`).
-/

namespace Xv6

open Sched PEntry

namespace PEntry

/-- What an operation may do to the entry of a slot that it neither creates nor frees. -/
structure Keep (e e' : PEntry) : Prop where
  pid : e'.pid = e.pid
  unused : e'.state = .unused ↔ e.state = .unused
  zombie : e'.state = .zombie ↔ e.state = .zombie
  parent : e.parent = none → e'.parent = none

/-- `Keep`, and the place of the entry in the run queue stays. -/
structure Calm (e e' : PEntry) : Prop extends Keep e e' where
  priority : e'.priority = e.priority
  next : e'.next = e.next

variable {e e₁ e' : PEntry}

theorem Keep.refl (e : PEntry) : Keep e e := ⟨rfl, .rfl, .rfl, id⟩

theorem Keep.trans (h₁ : Keep e e₁) (h₂ : Keep e₁ e') : Keep e e' :=
  ⟨h₂.pid.trans h₁.pid, h₂.unused.trans h₁.unused, h₂.zombie.trans h₁.zombie,
    fun h => h₂.parent (h₁.parent h)⟩

theorem Calm.refl (e : PEntry) : Calm e e := ⟨.refl e, rfl, rfl⟩

theorem Calm.trans (h₁ : Calm e e₁) (h₂ : Calm e₁ e') : Calm e e' :=
  ⟨h₁.toKeep.trans h₂.toKeep, h₂.priority.trans h₁.priority, h₂.next.trans h₁.next⟩

/-- A slot in use that is not a zombie. -/
def Live (e : PEntry) : Prop := e.state ≠ .unused ∧ e.state ≠ .zombie

instance (e : PEntry) : Decidable e.Live := inferInstanceAs (Decidable (_ ∧ _))

theorem Keep.live (h : e.Keep e') : e'.Live ↔ e.Live := by
  simp only [Live, ne_eq, h.unused, h.zombie]

/-- A change of state between two live states. -/
theorem calm_state {st : ProcState} {c : Option Chan} {kd : Bool} {ctx : Context}
    (h : e.Live) (h' : st ≠ .unused ∧ st ≠ .zombie) :
    Calm e { e with state := st, chan := c, killed := kd, context := ctx } :=
  ⟨⟨rfl, by simp [h.1, h'.1], by simp [h.2, h'.2], id⟩, rfl, rfl⟩

end PEntry

namespace Sched

variable {s s₁ s' : Sched} {p i : Slot}

/-! ### Operations that create and free nothing -/

/-- The slots in use, the zombies and the pids are the same in `s'` as in `s`. -/
structure Keep (s s' : Sched) : Prop where
  entry : ∀ i, (s.proc i).Keep (s'.proc i)
  nextpid : s'.nextpid = s.nextpid

/-- `Keep`, with the run queue and the priorities also the same. -/
structure Calm (s s' : Sched) : Prop where
  entry : ∀ i, (s.proc i).Calm (s'.proc i)
  nextpid : s'.nextpid = s.nextpid
  queue : s'.queue = s.queue

theorem Keep.refl (s : Sched) : Keep s s := ⟨fun _ => .refl _, rfl⟩

theorem Keep.trans (h₁ : Keep s s₁) (h₂ : Keep s₁ s') : Keep s s' :=
  ⟨fun i => (h₁.entry i).trans (h₂.entry i), h₂.nextpid.trans h₁.nextpid⟩

theorem Calm.keep (h : Calm s s') : Keep s s' := ⟨fun i => (h.entry i).toKeep, h.nextpid⟩

theorem Calm.refl (s : Sched) : Calm s s := ⟨fun _ => .refl _, rfl, rfl⟩

theorem Calm.trans (h₁ : Calm s s₁) (h₂ : Calm s₁ s') : Calm s s' :=
  ⟨fun i => (h₁.entry i).trans (h₂.entry i), h₂.nextpid.trans h₁.nextpid, h₂.queue.trans h₁.queue⟩

theorem Calm.next (h : Calm s s') : s'.next = s.next := funext fun i => (h.entry i).next

theorem Frame.keep (h : Frame s s') : Keep s s' :=
  ⟨fun i => ⟨h.pid i, by rw [h.state i], by rw [h.state i], (h.parent i).trans⟩, h.nextpid⟩

theorem calm : Passive (fun _ => PEntry.Calm) Calm where
  trans := .trans
  entries h := ⟨h, rfl, rfl⟩
  same _ := .refl
  woken h := calm_state (by simp [PEntry.Live, h]) (by simp)
  killed _ _ := ⟨⟨rfl, .rfl, .rfl, id⟩, rfl, rfl⟩
  preempted h := calm_state (by simp [PEntry.Live, h]) (by simp)
  dispatched h := calm_state (by simp [PEntry.Live, h]) (by simp)

theorem calmBy (p : Slot) : Active p (fun _ _ => True) (fun _ => PEntry.Calm) Calm where
  toPassive := calm
  returns _ := ⟨⟨rfl, .rfl, .rfl, id⟩, rfl, rfl⟩
  asleep _ h := calm_state (by simp [PEntry.Live, h]) (by simp)

theorem calm_context (s : Sched) (p : Slot) : Calm s (s.upd p fun e => { e with context := .user }) :=
  (calmBy p).user s

theorem calm_sleep {chan : Chan} {ctx : Context} (hp : (s.proc p).state = .running) :
    Calm s (s.sleep p chan ctx) := (calmBy p).sleep trivial hp

theorem calm_abandon (s : Sched) (p : Slot) : Calm s (s.abandon p) :=
  calm.abandon p fun _ _ _ hp => ⟨⟨rfl, .rfl, .rfl, fun h => by rw [hp] at h; cases h⟩, rfl, rfl⟩

theorem keep : Passive (fun _ => PEntry.Keep) Keep where
  trans := .trans
  entries h := ⟨h, rfl⟩
  same _ := .refl
  woken h := (calm.woken (i := 0) h).toKeep
  killed _ _ := ⟨rfl, .rfl, .rfl, id⟩
  preempted h := (calm.preempted (i := 0) h).toKeep
  dispatched h := (calm.dispatched (i := 0) h).toKeep

theorem keep_scheduler {r : Option Slot} (h : scheduler s = .ok (r, s')) : Keep s s' :=
  keep.scheduler Frame.keep h

theorem keep_prioSet {pid priority r : Int} (h : prioSet s p pid priority = .ok (r, s')) :
    Keep s s' := keep.prioSet Frame.keep (fun _ _ => ⟨rfl, .rfl, .rfl, id⟩) h

/-! ### Creation -/

/-- The section of `allocproc` under `ptable.lock`, apart from the queue. -/
theorem embryo_cases (h : embryo s i = .ok s') : Keep (s.newborn i) s' := (frame_embryo h).keep

theorem embryo_live_self (h : s.embryo i = .ok s') : (s'.proc i).Live := by
  rw [((embryo_cases h).entry i).live, newborn_self]
  simp [PEntry.Live]

theorem embryo_live {j : Slot} (h : s.embryo i = .ok s') (hj : j ≠ i) :
    (s'.proc j).Live ↔ (s.proc j).Live := by
  rw [((embryo_cases h).entry j).live, newborn_ne hj]

theorem not_live_of_unused (h : (s.proc i).state = .unused) : ¬ (s.proc i).Live :=
  fun hl => hl.1 h

/-- The child of `fork2`, apart from the queue. -/
theorem child_cases {np : Slot} {cid : Int} (h : child s p np cid = .ok s') :
    Keep (s.birth p np cid) s' := (frame_child h).keep

end Sched

namespace Mux

/-- The handles and their counts are the same in `m'` as in `m`. -/
structure SameHandles (m m' : Mux) : Prop where
  locks : m'.locks = m.locks
  count : ∀ g, (m'.mutexes g).count = (m.mutexes g).count

variable {m : Mux}

theorem SameHandles.refl (m : Mux) : SameHandles m m := ⟨rfl, fun _ => rfl⟩

theorem SameHandles.trans {m₁ m' : Mux} (h₁ : SameHandles m m₁) (h₂ : SameHandles m₁ m') :
    SameHandles m m' :=
  ⟨h₂.locks.trans h₁.locks, fun g => (h₂.count g).trans (h₁.count g)⟩

theorem sameHandles_upd {g : Mid} {f : Mutex → Mutex}
    (h : (f (m.mutexes g)).count = (m.mutexes g).count) : SameHandles m (m.upd g f) := by
  refine ⟨rfl, fun j => ?_⟩
  by_cases e : j = g
  · subst e; simpa [upd] using h
  · simp [upd, e]

end Mux

namespace Kernel

open Mux (SameHandles)

variable {k k₁ k' : Kernel} {p q : Slot} {op : Op} {g : Mid} {s : Sched} {r : Option Int}
  {cid : Int}

theorem inUser.live (h : k.inUser p) : (k.sched.proc p).Live := by simp [PEntry.Live, h.1]

theorem handle_eq_some {muxid : Int} {i : Fin MUX_MAXNUM} (h : k.handle p muxid = some (i, g)) :
    (i.val : Int) = muxid ∧ k.mux.locks p i = some g := by
  unfold handle Mux.muxIndex at h
  split at h
  · cases h
  next j hj =>
  split at hj
  · cases hl : k.mux.locks p j with
    | none => rw [hl] at h; cases h
    | some g' =>
      rw [hl] at h
      cases h
      cases hj
      exact ⟨by simp; omega, hl⟩
  · cases hj

/-! ### Operations that create and free no process, handle or page -/

/-- The slots in use, the memory and the handles are the same in `k'` as in `k`. -/
structure Mild (k k' : Kernel) : Prop where
  sched : Keep k.sched k'.sched
  vm : k'.vm = k.vm
  mux : SameHandles k.mux k'.mux

/-- `Mild`, with the run queue also the same. -/
structure Still (k k' : Kernel) : Prop where
  sched : Calm k.sched k'.sched
  vm : k'.vm = k.vm
  mux : SameHandles k.mux k'.mux

theorem Still.mild (h : Still k k') : Mild k k' := ⟨h.sched.keep, h.vm, h.mux⟩

theorem Still.refl (k : Kernel) : Still k k := ⟨.refl _, rfl, .refl _⟩

theorem Still.trans (h₁ : Still k k₁) (h₂ : Still k₁ k') : Still k k' :=
  ⟨h₁.sched.trans h₂.sched, h₂.vm.trans h₁.vm, h₁.mux.trans h₂.mux⟩

theorem mild_sched (h : Keep k.sched s) : Mild k { k with sched := s } :=
  ⟨h, rfl, .refl _⟩

theorem still_sched (h : Calm k.sched s) : Still k { k with sched := s } :=
  ⟨h, rfl, .refl _⟩

theorem still_upd {f : Mutex → Mutex} (h : (f (k.mux.mutexes g)).count = (k.mux.mutexes g).count) :
    Still k { k with mux := k.mux.upd g f } :=
  ⟨.refl _, rfl, Mux.sameHandles_upd h⟩

theorem still (p : Slot) : CvLocks p Still where
  refl := .refl
  trans := .trans
  wakeup _ _ := still_sched (calm.wakeup1 _ _)
  user _ := still_sched (calm_context _ _)
  sleep _ hp := still_sched (calm_sleep hp)
  lock _ _ := still_upd rfl
  unlock _ _ := still_upd rfl
  cvSleep _ _ hp := still_sched (calm_sleep hp)
  cvCount _ _ _ := still_upd rfl

/-! ### Inversions -/

/-- What `allocproc` can do. -/
theorem allocproc_cases {cur r : Option Slot} (h : k.allocproc cur cid = .ok (r, k')) :
    (r = none ∧ k' = k) ∨ ∃ i s, (k.sched.proc i).state = .unused ∧ k.sched.embryo i = .ok s ∧
      ((r = none ∧ k.vm.allocKstack i = (false, k'.vm) ∧ k'.mux = k.mux ∧ k'.sched = s.upd i free) ∨
        (r = some i ∧ k.vm.allocKstack i = (true, k'.vm) ∧
          k.mux.initLocks cur i (s.proc i).pid = .ok k'.mux ∧
          k'.sched = s.upd i fun e => { e with context := .user })) := by
  unfold allocproc at h
  split at h
  · cases h; exact .inl ⟨rfl, rfl⟩
  next i hi =>
  have hst : (k.sched.proc i).state = .unused := by simpa using List.find?_some hi
  obtain ⟨⟨c, con⟩, -, h⟩ := of_bind h
  dsimp only at h
  split at h
  · cases h; exact .inl ⟨rfl, rfl⟩
  obtain ⟨s, hs, h⟩ := of_bind h
  refine .inr ⟨i, s, hst, hs, ?_⟩
  split at h
  · next vm hv => cases h; exact .inl ⟨rfl, hv, rfl, rfl⟩
  next vm hv =>
  obtain ⟨mux, hm, h⟩ := of_bind h
  cases h
  exact .inr ⟨rfl, hv, hm, rfl⟩

/-- An `allocproc` that finds a slot. -/
theorem allocproc_some {cur : Option Slot} {np : Slot}
    (h : k.allocproc cur cid = .ok (some np, k')) :
    ∃ s, (k.sched.proc np).state = .unused ∧ k.sched.embryo np = .ok s ∧
      k.mux.initLocks cur np (s.proc np).pid = .ok k'.mux ∧
      k'.sched = s.upd np fun e => { e with context := .user } := by
  rcases allocproc_cases h with ⟨hc, -⟩ | ⟨i, s, hi, he, ⟨hc, -⟩ | ⟨hc, -, hm, hs⟩⟩ <;> cases hc
  exact ⟨s, hi, he, hm, hs⟩

/-- What `fork2` can do after `allocproc`. -/
theorem fork2_cases {r : Int} (h : k.fork2 p cid = .ok (r, k')) :
    k.allocproc (some p) cid = .ok (none, k') ∨
    ∃ np k₁, k.allocproc (some p) cid = .ok (some np, k₁) ∧ k'.mux = k₁.mux ∧
      ((∃ v, k₁.vm.copyMem p np = .ok (false, v) ∧ v.freeKstack np = .ok k'.vm ∧
          k'.sched = k₁.sched.upd np free) ∨
        (∃ v, k₁.vm.copyMem p np = .ok (true, v) ∧ k'.vm = v.inherit p np ∧
          k₁.sched.child p np cid = .ok k'.sched)) := by
  obtain ⟨⟨c, k₁⟩, hc, h⟩ := of_bind h
  cases c with
  | none => cases h; exact .inl hc
  | some np =>
    dsimp only at h
    obtain ⟨⟨ok, v⟩, hv, h⟩ := of_bind h
    cases ok with
    | false =>
      obtain ⟨v', hk, h⟩ := of_bind h
      cases h
      exact .inr ⟨np, k₁, hc, rfl, .inl ⟨v, hv, hk, rfl⟩⟩
    | true =>
      obtain ⟨s, hs, h⟩ := of_bind h
      cases h
      exact .inr ⟨np, k₁, hc, rfl, .inr ⟨v, hv, rfl, hs⟩⟩

/-- What `exit` does, up to its last loop. -/
theorem exit_cases (h : k.exit p = .ok k') : k.sched.initproc ≠ some p ∧
    ∃ v s, Vm.exitShm p (List.finRange SHM_MAXNUM) k.vm = .ok v ∧
      ((k.sched.wakeParent p).abandon p).removeNode p = .ok s ∧
      let k₁ := exitLocks p (List.finRange MUX_MAXNUM) { k with vm := v, sched := s }
      k' = { k₁ with sched := k₁.sched.upd p fun e => { e with state := .zombie } } := by
  unfold exit at h
  split at h
  · cases h
  next hi =>
  obtain ⟨v, hv, h⟩ := of_bind h
  obtain ⟨s, hs, h⟩ := of_bind h
  cases h
  exact ⟨hi, v, s, hv, hs, rfl⟩

/-- What `wait` can do: it reaps a zombie child, returns -1 or sleeps. -/
theorem wait_cases (h : k.wait p = .ok (r, k')) :
    (∃ q, (k.sched.proc q).parent = some p ∧ (k.sched.proc q).state = .zombie ∧
      k.vm.reap q = .ok k'.vm ∧ k'.mux = k.mux ∧
      k'.sched = (k.sched.upd q reaped).upd p fun e => { e with context := .user }) ∨
    k' = k.toUser p ∨ k' = { k with sched := k.sched.sleep p (.proc p) .wait } := by
  unfold wait at h
  split at h
  · next q hq =>
    have hst : (k.sched.proc q).parent = some p ∧ (k.sched.proc q).state = .zombie := by
      simpa using List.find?_some hq
    obtain ⟨v, hv, h⟩ := of_bind h
    obtain ⟨con, -, h⟩ := of_bind h
    cases h
    exact .inl ⟨q, hst.1, hst.2, hv, rfl, rfl⟩
  · split at h <;> cases h
    · exact .inr (.inl rfl)
    · exact .inr (.inr rfl)

/-- The first process becomes RUNNABLE, with an address space. -/
theorem userinit_cases (hp : (k.sched.proc p).state = .embryo) (h : k.userinit p = .ok k') :
    Calm k.sched k'.sched ∧ k.vm.initMem p = .ok k'.vm ∧ k'.mux = k.mux := by
  obtain ⟨v, hv, h⟩ := of_bind h
  cases h
  have hc : Calm k.sched (k.sched.upd p fun e => { e with cid := -1, state := .runnable }) :=
    calm.upd ⟨⟨rfl, by simp [hp], by simp [hp], id⟩, rfl, rfl⟩
  exact ⟨⟨hc.entry, hc.nextpid, hc.queue⟩, hv, rfl⟩

section Mutexes

variable {M : Mutex → Mutex → Prop} (hM : Mux.EachRel M) {cid : Int}

include hM

theorem each_alloc {cur r : Option Slot} (h : k.allocproc cur cid = .ok (r, k')) :
    Mux.Each M k.mux k'.mux := by
  rcases allocproc_cases h with ⟨-, rfl⟩ | ⟨i, s, -, -, ⟨-, -, hm, -⟩ | ⟨-, -, hm, -⟩⟩
  · exact hM.refl _
  · rw [hm]; exact hM.refl _
  · exact hM.initLocks hm

theorem each_fork2 {r : Int} (h : k.fork2 p cid = .ok (r, k')) : Mux.Each M k.mux k'.mux := by
  rcases fork2_cases h with ha | ⟨np, k₁, ha, hm, -⟩
  · exact each_alloc hM ha
  · rw [hm]; exact each_alloc hM ha

theorem each_exit (hf : ∀ e, M e { e with slp := ⟨false, 0⟩ }) (h : k.exit p = .ok k') :
    Mux.Each M k.mux k'.mux := by
  obtain ⟨-, v, s, -, -, rfl⟩ := exit_cases h
  exact (hM.deletes p hf).exitLocks _ { k with vm := v, sched := s }

theorem each_wait {r : Option Int} (h : k.wait p = .ok (r, k')) : Mux.Each M k.mux k'.mux := by
  rcases wait_cases h with ⟨q, -, -, -, hm, -⟩ | rfl | rfl
  · rw [hm]; exact hM.refl _
  · exact hM.refl _
  · exact hM.refl _

end Mutexes

/-- The operations that touch no memory and no handle, unless they reap a zombie. -/
def Op.Plain : Op → Prop
  | .wait _ | .kill _ _ | .yield _ | .sleep _ _ | .wakeup _ | .resume _ | .mutexLock _ _
  | .mutexUnlock _ _ | .cvWait _ _ | .cvSignal _ _ | .containers _ => True
  | _ => False

/-- **What a step can do.**  It is `Still`, it reaps a zombie, or it is one of the named
operations. -/
inductive StepKind (k : Kernel) : Op → Kernel → Prop where
  | still {op : Op} {k' : Kernel} (ho : op.Plain) (h : Still k k') : StepKind k op k'
  | scheduler {r : Option Slot} {s : Sched} (h : k.sched.scheduler = .ok (r, s)) :
      StepKind k .scheduler { k with sched := s }
  | prioSet {p : Slot} {pid priority r : Int} {s : Sched} (hp : k.inUser p)
      (h : k.sched.prioSet p pid priority = .ok (r, s)) :
      StepKind k (.prioSet p pid priority) { k with sched := s }
  | growproc {p : Slot} {n r : Int} {v : Vm} (hp : k.inUser p)
      (h : k.vm.growproc p n = .ok (r, v)) : StepKind k (.growproc p n) { k with vm := v }
  | exec {p : Slot} {file : Option (List UInt8)} {argv : List CStr} {r : Int} {v : Vm}
      (hp : k.inUser p) (h : k.vm.exec p file argv = .ok (r, v)) :
      StepKind k (.exec p file argv) { k with vm := v }
  | shmGet {p : Slot} {name : CStr} {r : Nat} {v : Vm} (hp : k.inUser p)
      (h : k.vm.shmGet p name = .ok (r, v)) : StepKind k (.shmGet p name) { k with vm := v }
  | shmRem {p : Slot} {name : CStr} {r : Int} {v : Vm} (hp : k.inUser p)
      (h : k.vm.shmRem p name = .ok (r, v)) : StepKind k (.shmRem p name) { k with vm := v }
  | mutexCreate {p : Slot} {name : CStr} {r : Int} {m : Mux} (hp : k.inUser p)
      (h : k.mux.mutexCreate p name = .ok (r, m)) :
      StepKind k (.mutexCreate p name) { k with mux := m }
  | mutexGet {p : Slot} {name : CStr} (hp : k.inUser p) :
      StepKind k (.mutexGet p name) { k with mux := (k.mux.mutexGet p name).2 }
  | mutexDelete {p : Slot} {muxid : Int} (hp : k.inUser p) :
      StepKind k (.mutexDelete p muxid) (k.mutexDelete p muxid).2
  | allocFirst {r : Option Slot} {k' : Kernel} (hn : k.sched.nextpid = 1)
      (h : k.allocproc none (-1) = .ok (r, k')) : StepKind k .allocFirst k'
  | userinit {p : Slot} {k' : Kernel} (hp : (k.sched.proc p).state = .embryo)
      (h : k.userinit p = .ok k') : StepKind k (.userinit p) k'
  | fork2 {p : Slot} {cid r : Int} {k' : Kernel} (hp : k.inUser p)
      (h : k.fork2 p cid = .ok (r, k')) : StepKind k (.fork2 p cid) k'
  | exit {p : Slot} {k' : Kernel} (hp : k.inUser p) (h : k.exit p = .ok k') :
      StepKind k (.exit p) k'
  | reap {op : Op} {q : Slot} {k' : Kernel} (ho : op.Plain) (hq : (k.sched.proc q).state = .zombie)
      (hv : k.vm.reap q = .ok k'.vm) (hm : k'.mux = k.mux)
      (hs : Calm (k.sched.upd q PEntry.reaped) k'.sched) : StepKind k op k'

theorem wait_kind (ho : op.Plain) (hp : (k.sched.proc p).state = .running)
    (h : k.wait p = .ok (r, k')) : StepKind k op k' := by
  rcases wait_cases h with ⟨q, -, hq, hv, hm, hs⟩ | rfl | rfl
  · exact .reap ho hq hv hm (hs ▸ (calm_context _ _))
  · exact .still ho ((still _).user _)
  · exact .still ho (still_sched (calm_sleep hp))

/-- The inversion of `Step`. -/
theorem step_kind (h : Step k op k') : StepKind k op k' := by
  obtain ⟨he, r, h⟩ := h
  cases op with
  | allocFirst =>
    obtain ⟨⟨c, k₁⟩, h₁, h⟩ := of_bind h
    cases h; exact .allocFirst he h₁
  | userinit p =>
    obtain ⟨k₁, h₁, h⟩ := of_bind h
    cases h; exact .userinit he h₁
  | fork2 p cid =>
    obtain ⟨⟨c, k₁⟩, h₁, h⟩ := of_bind h
    cases h; exact .fork2 he h₁
  | exit p =>
    obtain ⟨k₁, h₁, h⟩ := of_bind h
    cases h; exact .exit he h₁
  | wait p => exact wait_kind trivial he.1 h
  | kill p pid => cases h; exact .still trivial (still_sched (calm.kill _ _))
  | yield p => cases h; exact .still trivial (still_sched (calm.yield he))
  | scheduler =>
    obtain ⟨⟨c, s⟩, h₁, h⟩ := of_bind h
    cases h; exact .scheduler h₁
  | prioSet p pid priority =>
    obtain ⟨⟨c, s⟩, h₁, h⟩ := of_bind h
    cases h; exact .prioSet he h₁
  | sleep p addr => cases h; exact .still trivial (still_sched (calm_sleep he.1))
  | wakeup addr => cases h; exact .still trivial (still_sched (calm.wakeup1 _ _))
  | resume p => exact ((still p).resume he.1 h).elim (.still trivial) (wait_kind trivial he.1)
  | growproc p n =>
    obtain ⟨⟨c, v⟩, h₁, h⟩ := of_bind h
    cases h; exact .growproc he h₁
  | exec p file argv =>
    obtain ⟨⟨c, v⟩, h₁, h⟩ := of_bind h
    cases h; exact .exec he h₁
  | shmGet p name =>
    obtain ⟨⟨c, v⟩, h₁, h⟩ := of_bind h
    cases h; exact .shmGet he h₁
  | shmRem p name =>
    obtain ⟨⟨c, v⟩, h₁, h⟩ := of_bind h
    cases h; exact .shmRem he h₁
  | mutexCreate p name =>
    obtain ⟨⟨c, m⟩, h₁, h⟩ := of_bind h
    cases h; exact .mutexCreate he h₁
  | mutexGet p name => cases h; exact .mutexGet he
  | mutexDelete p muxid => cases h; exact .mutexDelete he
  | mutexLock p muxid => rw [← Res.snd_of_ok h]; exact .still trivial ((still p).mutexLock muxid he.1)
  | mutexUnlock p muxid => cases h; exact .still trivial ((still p).mutexUnlock k p muxid)
  | cvWait p muxid => exact .still trivial ((still p).cvWait he.1 h)
  | cvSignal p muxid => cases h; exact .still trivial ((still p).cvSignal k p muxid)
  | containers con => cases h; exact .still trivial ⟨.refl _, rfl, .refl _⟩

/-- What only wakes processes and touches mutexes leaves the memory as it is. -/
theorem calm_vm (p : Slot) : Deletes p fun k k' => Calm k.sched k'.sched ∧ k'.vm = k.vm where
  refl _ := ⟨.refl _, rfl⟩
  trans h₁ h₂ := ⟨h₁.1.trans h₂.1, h₂.2.trans h₁.2⟩
  wakeup _ _ := ⟨calm.wakeup1 _ _, rfl⟩
  unlock _ _ := ⟨.refl _, rfl⟩
  count _ _ _ := ⟨.refl _, rfl⟩
  handle _ _ _ := ⟨.refl _, rfl⟩

/-- Until its last assignment, `exit` frees no slot. -/
theorem exit_keep (v : Vm) (h : ((k.sched.wakeParent p).abandon p).removeNode p = .ok s) :
    Keep k.sched (exitLocks p (List.finRange MUX_MAXNUM) { k with vm := v, sched := s }).sched :=
  ((calm.wakeParent _ _).trans (calm_abandon _ _)).keep.trans ((frame_removeNode h).keep.trans
      ((calm_vm p).exitLocks _ { k with vm := v, sched := s }).1.keep)

end Kernel

/-! ### Pids -/

namespace Sched

variable {s s' : Sched} {p i : Slot}

/-- The pids in the process table: distinct, below `nextpid`, and positive for a slot in use; a
free slot has no parent. -/
structure PidInv (s : Sched) : Prop where
  nextpid : 1 ≤ s.nextpid
  bound : ∀ i, 0 ≤ (s.proc i).pid ∧ (s.proc i).pid < s.nextpid
  pos : ∀ i, (s.proc i).state ≠ .unused → 0 < (s.proc i).pid
  inj : ∀ i j, (s.proc i).pid = (s.proc j).pid → (s.proc i).pid ≠ 0 → i = j
  parent : ∀ i, (s.proc i).state = .unused → (s.proc i).parent = none

namespace PidInv

theorem pinit : PidInv pinit where
  nextpid := by decide
  bound _ := by simp [Sched.pinit, zero]
  pos _ h := absurd rfl h
  inj _ _ _ h := absurd rfl h
  parent _ _ := rfl

theorem keep (h : PidInv s) (hk : Keep s s') : PidInv s' where
  nextpid := by rw [hk.nextpid]; exact h.nextpid
  bound i := by rw [(hk.entry i).pid, hk.nextpid]; exact h.bound i
  pos i hi := by rw [(hk.entry i).pid]; exact h.pos i fun e => hi ((hk.entry i).unused.mpr e)
  inj i j := by rw [(hk.entry i).pid, (hk.entry j).pid]; exact h.inj i j
  parent i hi := (hk.entry i).parent (h.parent i ((hk.entry i).unused.mp hi))

/-- A change of one entry that keeps its pid. -/
theorem upd {f : PEntry → PEntry} (h : PidInv s) (hpid : (f (s.proc i)).pid = (s.proc i).pid)
    (hpos : (f (s.proc i)).state ≠ .unused → 0 < (s.proc i).pid)
    (hpar : (f (s.proc i)).state = .unused → (f (s.proc i)).parent = none) :
    PidInv (s.upd i f) := by
  have hp : ∀ j, ((s.upd i f).proc j).pid = (s.proc j).pid := fun j => by
    rw [upd_proc]; split
    · next e => rw [hpid, e]
    · rfl
  refine ⟨h.nextpid, fun j => by rw [hp]; exact h.bound j, fun j hj => ?_,
    fun j l => by rw [hp, hp]; exact h.inj j l, fun j hj => ?_⟩
  · rw [hp]
    rw [upd_proc] at hj
    split at hj
    · next e => exact e ▸ hpos hj
    · exact h.pos j hj
  · rw [upd_proc] at hj ⊢
    split at hj
    · next e => rw [if_pos e]; exact hpar hj
    · next e => rw [if_neg e]; exact h.parent j hj

/-- `allocproc` gives the slot a pid that no slot has. -/
theorem embryo (h : PidInv s) (he : s.embryo i = .ok s') : PidInv s' := by
  refine keep ?_ (embryo_cases he)
  unfold newborn
  have hn := h.nextpid
  have hb := h.bound
  refine ⟨by simp only [upd_nextpid]; omega, fun j => ?_, fun j hj => ?_, fun j l => ?_,
    fun j hj => ?_⟩
  · simp only [upd_proc, upd_nextpid]
    have := hb j
    split
    · simp only; omega
    · omega
  · simp only [upd_proc] at hj ⊢
    split at hj
    · next e => rw [if_pos e]; simp only; omega
    · next e => rw [if_neg e]; exact h.pos j hj
  · simp only [upd_proc]
    have h₁ := hb j
    have h₂ := hb l
    by_cases a : j = i <;> by_cases b : l = i <;> simp only [a, b, if_true, if_false]
    · simp
    · omega
    · omega
    · exact h.inj j l
  · simp only [upd_proc] at hj ⊢
    split at hj
    · cases hj
    · next e => rw [if_neg e]; exact h.parent j hj

/-- The slot that `allocproc` takes has no parent yet. -/
theorem embryo_parent (h : PidInv s) (hi : (s.proc i).state = .unused)
    (he : s.embryo i = .ok s') : (s'.proc i).parent = none :=
  ((embryo_cases he).entry i).parent (by rw [newborn_self]; exact h.parent i hi)

theorem reaped (h : PidInv s) : PidInv (s.upd i reaped) := by
  refine ⟨h.nextpid, fun j => ?_, fun j hj => ?_, fun j l => ?_, fun j hj => ?_⟩
  · have := h.bound j
    have := h.nextpid
    simp only [upd_proc, upd_nextpid]
    split
    · simp only [PEntry.reaped]; omega
    · omega
  · simp only [upd_proc] at hj ⊢
    split at hj
    · exact absurd rfl hj
    · next e => rw [if_neg e]; exact h.pos j hj
  · simp only [upd_proc]
    split <;> split <;> intro e e0
    · next a b => exact a.trans b.symm
    · exact absurd rfl e0
    · exact absurd e e0
    · exact h.inj j l e e0
  · simp only [upd_proc] at hj ⊢
    split
    · rfl
    · next e => rw [if_neg e] at hj; exact h.parent j hj

end PidInv

end Sched

namespace Kernel

variable {k k' : Kernel} {p : Slot} {op : Op}

theorem pidInv_alloc {cur r : Option Slot} {cid : Int} (h : PidInv k.sched)
    (ha : k.allocproc cur cid = .ok (r, k')) :
    PidInv k'.sched ∧ ∀ np ∈ r, (k'.sched.proc np).parent = none ∧
      (k'.sched.proc np).state ≠ .unused := by
  rcases allocproc_cases ha with ⟨rfl, rfl⟩ | ⟨i, s, hi, he, ⟨rfl, -, -, hs⟩ | ⟨rfl, -, -, hs⟩⟩
  · exact ⟨h, by simp⟩
  · rw [hs]
    exact ⟨(h.embryo he).upd rfl (fun h => absurd rfl h) fun _ => h.embryo_parent hi he, by simp⟩
  rw [hs]
  refine ⟨(h.embryo he).keep (calm_context _ _).keep, fun np hnp => ?_⟩
  cases hnp
  have hst := ((embryo_cases he).entry i).unused
  simp only [upd_proc_self, newborn_self] at hst ⊢
  exact ⟨h.embryo_parent hi he, by simp [hst]⟩

/-- There is a process, so the next one is not the first. -/
theorem nextpid_ne_one (h : PidInv k.sched) (hp : k.inUser p) : k.sched.nextpid ≠ 1 := by
  have h₁ := h.pos p (by simp [hp.1])
  have h₂ := (h.bound p).2
  omega

/-- **Pids stay distinct.** -/
theorem pidInv_step (h : PidInv k.sched) (hs : Step k op k') : PidInv k'.sched := by
  cases step_kind hs with
  | still _ hm => exact h.keep hm.sched.keep
  | scheduler hd => exact h.keep (keep_scheduler hd)
  | prioSet _ hp => exact h.keep (keep_prioSet hp)
  | growproc | exec | shmGet | shmRem | mutexCreate | mutexGet => exact h
  | mutexDelete hp => exact h.keep ((calm_vm _).mutexDelete _ _).1.keep
  | allocFirst _ ha => exact (pidInv_alloc h ha).1
  | userinit hp hu => exact h.keep (userinit_cases hp hu).1.keep
  | fork2 hp hf =>
    rcases fork2_cases hf with ha | ⟨np, k₁, ha, -, ⟨v, -, -, hs⟩ | ⟨v, -, -, hs⟩⟩
    · exact (pidInv_alloc h ha).1
    · obtain ⟨h₁, hr⟩ := pidInv_alloc h ha
      rw [hs]
      exact h₁.upd rfl (fun h => absurd rfl h) fun _ => (hr np rfl).1
    · obtain ⟨h₁, hr⟩ := pidInv_alloc h ha
      refine PidInv.keep ?_ (child_cases hs)
      exact h₁.upd rfl (fun _ => h₁.pos np (hr np rfl).2) (by simp)
  | @exit p _ hp he =>
    obtain ⟨-, v, s, -, hr, rfl⟩ := exit_cases he
    have hk := exit_keep v hr
    have h₁ := h.keep hk
    have hne : (k.sched.proc p).state ≠ .unused := by simp [hp.1]
    show PidInv (upd _ p fun e => { e with state := .zombie })
    exact h₁.upd rfl (fun _ => h₁.pos p (mt (hk.entry p).unused.mp hne)) (by simp)
  | reap _ hq hv hm hs => exact h.reaped.keep hs.keep

/-- **`kill` hits the right process.**  In every state of every run it marks the process with this
pid, which no longer sleeps, and it changes no other process. -/
theorem kill_exact {m : Kmem} {t : List (Kernel × Op)} (hr : Lib.Run Step (boot m) t k)
    (hp : (k.sched.proc p).state ≠ .unused) (pid : Int) :
    ((k.sched.proc p).pid = pid → (k.sched.kill pid).1 = 0 ∧
      (k.sched.kill pid).2.proc p = { k.sched.proc p with
        killed := true
        state := if (k.sched.proc p).state = .sleeping then .runnable
          else (k.sched.proc p).state }) ∧
    ((k.sched.proc p).pid ≠ pid → (k.sched.kill pid).2.proc p = k.sched.proc p) := by
  have h := (hr.inv_all (I := fun k => PidInv k.sched) (fun _ _ _ => pidInv_step) .pinit).2
  unfold Sched.kill
  split
  · next hf =>
    have hne := List.find?_eq_none.mp hf p (List.mem_finRange p)
    exact ⟨fun e => absurd e (by simpa using hne), fun _ => rfl⟩
  · next i hf =>
    have hi : (k.sched.proc i).pid = pid := by simpa using List.find?_some hf
    dsimp only
    refine ⟨fun e => ?_, fun e => ?_⟩
    · obtain rfl := h.inj p i (e.trans hi.symm) (h.pos p hp).ne'
      exact ⟨rfl, by rw [upd_proc_self]⟩
    · rw [upd_proc_ne]
      rintro rfl
      exact e hi

/-- The first process kills itself. -/
theorem kill_exact_self : ∃ t k, Lib.Run Step (boot smallMem) t k ∧
    (k.sched.kill 1).1 = 0 ∧ ((k.sched.kill 1).2.proc 0).killed = true := by
  obtain ⟨k, hr, hp, hpid⟩ := Lib.exists_run step_of_exec? (boot smallMem)
    [.allocFirst, .userinit 0, .scheduler]
    (fun k => (k.sched.proc 0).state ≠ .unused ∧ (k.sched.proc 0).pid = 1) (by decide +kernel)
  obtain ⟨h, hk⟩ := (kill_exact hr hp 1).1 hpid
  exact ⟨_, k, hr, h, by rw [hk]⟩

end Kernel

end Xv6
