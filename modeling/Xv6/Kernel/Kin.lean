import Xv6.Kernel.Life

/-!
# Kernel — Kin

Who a process is: its pid, its parent, its priority and its container, and whether its slot is
free, being filled, in use or a zombie (`PEntry.ident`).  Most operations of the kernel change none
of that for any slot (`Kin`); `KinStep` lists those that do, with exactly what they do.
-/

namespace Xv6

open PEntry Sched

/-- The states of a slot, with SLEEPING, RUNNABLE and RUNNING taken together. -/
inductive Phase where
  | unused | embryo | alive | zombie
  deriving DecidableEq

def ProcState.phase : ProcState → Phase
  | .unused => .unused
  | .embryo => .embryo
  | .zombie => .zombie
  | .sleeping | .runnable | .running => .alive

/-- Who a process is. -/
structure Ident where
  pid : Int
  parent : Option Slot
  priority : Int
  cid : Int
  phase : Phase
  deriving DecidableEq

def PEntry.ident (e : PEntry) : Ident := ⟨e.pid, e.parent, e.priority, e.cid, e.state.phase⟩

namespace ProcState

variable {st : ProcState}

theorem phase_unused : st.phase = .unused ↔ st = .unused := by cases st <;> simp [phase]

theorem phase_embryo : st.phase = .embryo ↔ st = .embryo := by cases st <;> simp [phase]

theorem phase_zombie : st.phase = .zombie ↔ st = .zombie := by cases st <;> simp [phase]

end ProcState

namespace Sched

/-- Every slot holds the same process, as far as `ident` goes. -/
structure Kin (s s' : Sched) : Prop where
  ident : ∀ i, (s'.proc i).ident = (s.proc i).ident
  nextpid : s'.nextpid = s.nextpid
  initproc : s'.initproc = s.initproc

variable {s s₁ s' : Sched} {p i j np : Slot} {cid : Int}

namespace Kin

theorem refl (s : Sched) : Kin s s := ⟨fun _ => rfl, rfl, rfl⟩

theorem trans (h₁ : Kin s s₁) (h₂ : Kin s₁ s') : Kin s s' :=
  ⟨fun i => (h₂.ident i).trans (h₁.ident i), h₂.nextpid.trans h₁.nextpid,
    h₂.initproc.trans h₁.initproc⟩

variable (h : Kin s s') (i : Slot)

include h

theorem pid : (s'.proc i).pid = (s.proc i).pid := congrArg Ident.pid (h.ident i)

theorem parent : (s'.proc i).parent = (s.proc i).parent := congrArg Ident.parent (h.ident i)

theorem priority : (s'.proc i).priority = (s.proc i).priority :=
  congrArg Ident.priority (h.ident i)

theorem phase : (s'.proc i).state.phase = (s.proc i).state.phase :=
  congrArg Ident.phase (h.ident i)

theorem unused : (s'.proc i).state = .unused ↔ (s.proc i).state = .unused := by
  rw [← ProcState.phase_unused, h.phase i, ProcState.phase_unused]

end Kin

theorem Frame.kin (h : Frame s s') : Kin s s' := by
  refine ⟨fun i => ?_, h.nextpid, h.initproc⟩
  show (s'.proc i).core.ident = (s.proc i).core.ident
  rw [h.core i]

theorem kinBy (p : Slot) : Active p (fun _ _ => True) (fun _ e e' => e'.ident = e.ident) Kin where
  trans := .trans
  entries h := ⟨h, rfl, rfl⟩
  same _ _ := rfl
  woken h := by simp [ident, ProcState.phase, h]
  killed _ _ := rfl
  preempted h := by simp [ident, ProcState.phase, h]
  dispatched h := by simp [ident, ProcState.phase, h]
  returns _ := rfl
  asleep _ h := by simp [ident, ProcState.phase, h]

/-- The same change made before and after. -/
theorem Kin.upd {f : PEntry → PEntry} (h : Kin s s')
    (hf : ∀ e e' : PEntry, e'.ident = e.ident → (f e').ident = (f e).ident) :
    Kin (s.upd i f) (s'.upd i f) := by
  refine ⟨fun j => ?_, h.nextpid, h.initproc⟩
  by_cases e : j = i
  · subst e; rw [upd_proc_self, upd_proc_self]; exact hf _ _ (h.ident j)
  · rw [upd_proc_ne e, upd_proc_ne e]; exact h.ident j

/-- `exit` hands the children over, and wakes. -/
theorem kin_abandon (s : Sched) (p : Slot) : Kin (s.reparent p) (s.abandon p) := by
  unfold abandon
  split
  · split
    · exact .refl _
    · exact (kinBy p).wakeup1 _ _
  · exact .refl _

/-- Children are handed over alike whatever else has changed. -/
theorem Kin.reparent (h : Kin s s') (p : Slot) : Kin (s.reparent p) (s'.reparent p) := by
  refine ⟨fun i => ?_, h.nextpid, h.initproc⟩
  simp only [Sched.reparent, h.parent i, h.initproc]
  split
  · have := h.ident i
    simp only [PEntry.ident, Ident.mk.injEq] at this ⊢
    exact ⟨this.1, trivial, this.2.2⟩
  · exact h.ident i

/-- What `exit` by `p` leaves: its children belong to the first process, and it is a zombie. -/
def exited (s : Sched) (p : Slot) : Sched :=
  (s.reparent p).upd p fun e => { e with state := .zombie }

theorem exited_entry (s : Sched) (p j : Slot) : (s.exited p).proc j = { s.proc j with
      parent := if (s.proc j).parent = some p then s.initproc else (s.proc j).parent
      state := if j = p then .zombie else (s.proc j).state } := by
  by_cases e : j = p
  · subst e
    rw [exited, upd_proc_self]
    simp only [reparent, if_true]
    split <;> rfl
  · rw [exited, upd_proc_ne e, if_neg e]
    simp only [reparent]
    split <;> rfl

/-- A child is completed alike whatever else has changed. -/
theorem Kin.birth (h : Kin s s') (p np : Slot) (cid : Int) :
    Kin (s.birth p np cid) (s'.birth p np cid) := by
  have hprio : s'.childPriority p np = s.childPriority p np := by
    simp only [childPriority, h.pid, h.priority]
  unfold Sched.birth
  rw [hprio]
  refine h.upd fun e e' he => ?_
  simp only [PEntry.ident, Ident.mk.injEq] at he ⊢
  exact ⟨he.1, trivial, trivial, trivial, trivial⟩

/-- A slot that is given up again. -/
theorem Kin.free (h : Kin s s') (i : Slot) : Kin (s.upd i free) (s'.upd i free) :=
  h.upd fun e e' he => by
    simp only [PEntry.ident, PEntry.free, Ident.mk.injEq] at he ⊢
    exact ⟨he.1, he.2.1, he.2.2.1, he.2.2.2.1, trivial⟩

end Sched

namespace Kernel

variable {k k₁ k' : Kernel} {p q : Slot} {op : Op} {r cid : Int}

theorem kin_locks (p : Slot) : CvLocks p fun k k' => Kin k.sched k'.sched :=
  (kinBy p).cvLocks (fun _ => trivial) fun _ _ => trivial

/-! ### The operations that change somebody -/

/-- What a step does to who the processes are. -/
inductive KinStep (k : Kernel) : Op → Kernel → Prop where
  /-- Nothing. -/
  | kin {op : Op} {k' : Kernel} (h : Kin k.sched k'.sched) : KinStep k op k'
  /-- The slot for the first process is filled. -/
  | first {i : Slot} {k' : Kernel} (hn : k.sched.nextpid = 1)
      (hi : (k.sched.proc i).state = .unused) (h : Kin (k.sched.newborn i) k'.sched) :
      KinStep k .allocFirst k'
  /-- The first process is complete. -/
  | init {p : Slot} {k' : Kernel} (hp : (k.sched.proc p).state = .embryo)
      (h : Kin { k.sched.upd p fun e => { e with cid := -1, state := .runnable } with
        initproc := some p } k'.sched) : KinStep k (.userinit p) k'
  /-- A creation that failed: the slot is free again, with the pid it was given. -/
  | stillborn {op : Op} {i : Slot} {k' : Kernel} (hop : op = .allocFirst ∨ ∃ p cid, op = .fork2 p cid)
      (hi : (k.sched.proc i).state = .unused)
      (h : Kin ((k.sched.newborn i).upd i PEntry.free) k'.sched) : KinStep k op k'
  /-- `fork2` by `p` creates the process in slot `np`. -/
  | birth {p np : Slot} {cid : Int} {k' : Kernel} (hp : k.inUser p)
      (hi : (k.sched.proc np).state = .unused)
      (h : Kin ((k.sched.newborn np).birth p np cid) k'.sched) : KinStep k (.fork2 p cid) k'
  /-- `exit` by `p`, which is not the first process. -/
  | exit {p : Slot} {k' : Kernel} (hp : k.inUser p) (hne : k.sched.initproc ≠ some p)
      (h : Kin (k.sched.exited p) k'.sched) : KinStep k (.exit p) k'
  /-- `wait` by `p`, or its continuation, reaps a zombie child. -/
  | reap {op : Op} {p q : Slot} {k' : Kernel}
      (hop : op = .wait p ∨ op = .resume p ∧ (k.sched.proc p).context = .wait)
      (hparent : (k.sched.proc q).parent = some p) (hz : (k.sched.proc q).state = .zombie)
      (h : Kin (k.sched.upd q PEntry.reaped) k'.sched) : KinStep k op k'
  /-- `prio_set` by `p` past its checks. -/
  | prio {p q : Slot} {pid priority : Int} {k' : Kernel} (hp : k.inUser p)
      (ha : k.sched.PrioAllowed p pid priority q)
      (h : Kin (k.sched.upd q fun e => { e with priority := priority }) k'.sched) :
      KinStep k (.prioSet p pid priority) k'

theorem kin_allocproc {cur r : Option Slot} (h : k.allocproc cur cid = .ok (r, k')) :
    (r = none ∧ Kin k.sched k'.sched) ∨ ∃ i, (k.sched.proc i).state = .unused ∧
      ((r = none ∧ Kin ((k.sched.newborn i).upd i free) k'.sched) ∨
        (r = some i ∧ Kin (k.sched.newborn i) k'.sched)) := by
  rcases allocproc_cases h with ⟨hr, rfl⟩ | ⟨i, s, hi, he, ⟨hr, -, -, hs⟩ | ⟨hr, -, -, hs⟩⟩
  · exact .inl ⟨hr, .refl _⟩
  · refine .inr ⟨i, hi, .inl ⟨hr, ?_⟩⟩
    rw [hs]
    exact (frame_embryo he).kin.free i
  · refine .inr ⟨i, hi, .inr ⟨hr, ?_⟩⟩
    rw [hs]
    exact (frame_embryo he).kin.trans ((kinBy i).user _)

theorem kin_fork2 (hp : k.inUser p) (h : k.fork2 p cid = .ok (r, k')) :
    KinStep k (.fork2 p cid) k' := by
  rcases fork2_cases h with ha | ⟨np, k₁, ha, -, hrest⟩
  · rcases kin_allocproc ha with ⟨-, hk⟩ | ⟨i, hi, ⟨-, hk⟩ | ⟨hr, -⟩⟩
    · exact .kin hk
    · exact .stillborn (.inr ⟨p, cid, rfl⟩) hi hk
    · cases hr
  rcases kin_allocproc ha with ⟨hr, -⟩ | ⟨i, hi, ⟨hr, -⟩ | ⟨hr, hk⟩⟩
  · cases hr
  · cases hr
  cases hr
  rcases hrest with ⟨v, -, -, hs⟩ | ⟨v, -, -, hs⟩
  · exact .stillborn (.inr ⟨p, cid, rfl⟩) hi (hs ▸ hk.free np)
  · exact .birth hp hi ((hk.birth p np cid).trans (frame_child hs).kin)

theorem kin_exit (hp : k.inUser p) (h : k.exit p = .ok k') : KinStep k (.exit p) k' := by
  obtain ⟨hne, v, s, -, hs, rfl⟩ := exit_cases h
  have h₁ : Kin (k.sched.reparent p) ((k.sched.wakeParent p).abandon p) :=
    (((kinBy p).wakeParent k.sched p).reparent p).trans (kin_abandon _ p)
  have h₂ := h₁.trans (frame_removeNode hs).kin
  have h₃ := h₂.trans (((kinBy p).deletes p).exitLocks (List.finRange MUX_MAXNUM)
    { k with vm := v, sched := s })
  refine .exit hp hne (h₃.upd fun e e' he => ?_)
  simp only [ident, Ident.mk.injEq] at he ⊢
  exact ⟨he.1, he.2.1, he.2.2.1, he.2.2.2.1, trivial⟩

theorem kin_wait {r : Option Int} (hp : (k.sched.proc p).state = .running)
    (hop : op = .wait p ∨ op = .resume p ∧ (k.sched.proc p).context = .wait)
    (h : k.wait p = .ok (r, k')) : KinStep k op k' := by
  rcases wait_cases h with ⟨q, hq, hz, -, -, hs⟩ | rfl | rfl
  · exact .reap hop hq hz (hs ▸ (kinBy p).user _)
  · exact .kin ((kinBy p).user _)
  · exact .kin ((kinBy p).sleep trivial hp)

theorem kin_prioSet {pid priority : Int} {s : Sched} (hp : k.inUser p)
    (h : k.sched.prioSet p pid priority = .ok (r, s)) :
    KinStep k (.prioSet p pid priority) { k with sched := s } := by
  rcases prioSet_cases h with ⟨rfl, -⟩ | ⟨q, s₁, ha, h₁, h₂⟩
  · exact .kin (.refl _)
  refine .prio hp ha (((frame_removeNode h₁).kin.upd fun e e' he => ?_).trans
    (frame_enqueue h₂).kin)
  simp only [ident, Ident.mk.injEq] at he ⊢
  exact ⟨he.1, he.2.1, trivial, he.2.2.2⟩

/-- The inversion of `Step`. -/
theorem step_kin (h : Step k op k') : KinStep k op k' := by
  obtain ⟨he, r, h⟩ := h
  cases op with
  | allocFirst =>
    obtain ⟨⟨c, k₁⟩, h₁, h⟩ := of_bind h
    cases h
    rcases kin_allocproc h₁ with ⟨-, hk⟩ | ⟨i, hi, ⟨-, hk⟩ | ⟨-, hk⟩⟩
    · exact .kin hk
    · exact .stillborn (.inl rfl) hi hk
    · exact .first he hi hk
  | userinit p =>
    obtain ⟨k₁, h₁, h⟩ := of_bind h
    cases h
    obtain ⟨v, -, h₁⟩ := of_bind h₁
    cases h₁
    exact .init he (.refl _)
  | fork2 p cid =>
    obtain ⟨⟨c, k₁⟩, h₁, h⟩ := of_bind h
    cases h; exact kin_fork2 he h₁
  | exit p =>
    obtain ⟨k₁, h₁, h⟩ := of_bind h
    cases h; exact kin_exit he h₁
  | wait p => exact kin_wait he.1 (.inl rfl) h
  | prioSet p pid priority =>
    obtain ⟨⟨c, s⟩, h₁, h⟩ := of_bind h
    cases h; exact kin_prioSet he h₁
  | sleep p addr => cases h; exact .kin ((kinBy p).sleep trivial he.1)
  | resume p =>
    simp only [step, resume] at h
    split at h
    · cases h; exact .kin (.refl _)
    · next hc => exact kin_wait he.1 (.inr ⟨rfl, hc⟩) h
    · rw [← Res.snd_of_ok h]; exact .kin ((kin_locks p).acquiresleep _ he.1)
    · rw [← Res.snd_of_ok h]; exact .kin ((kin_locks p).cvLoop _ _ he.1)
    · cases h; exact .kin ((kinBy p).user _)
  | mutexCreate p name =>
    obtain ⟨⟨c, v⟩, h₁, h⟩ := of_bind h
    cases h; exact .kin (.refl _)
  | mutexGet p name => cases h; exact .kin (.refl _)
  | mutexDelete p muxid => cases h; exact .kin (((kinBy p).deletes p).mutexDelete _ _)
  | mutexLock p muxid => rw [← Res.snd_of_ok h]; exact .kin ((kin_locks p).mutexLock _ he.1)
  | mutexUnlock p muxid => cases h; exact .kin ((kin_locks p).mutexUnlock _ _ _)
  | cvWait p muxid => exact .kin ((kin_locks p).cvWait he.1 h)
  | cvSignal p muxid => cases h; exact .kin ((kin_locks p).cvSignal _ _ _)
  | _ => exact .kin ((kinBy 0).bare Sched.Frame.kin (fun _ _ _ e => by cases e) he h rfl).1

end Kernel

end Xv6
