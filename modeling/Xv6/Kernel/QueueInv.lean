import Xv6.Kernel.Life
import Mathlib.Order.WellFounded

/-!
# Kernel — QueueInv

The run queue over whole runs.  `QueueInv` says that every bucket is a finite list, that a process
in use that is not a zombie is queued once, in the bucket of its priority, and that no other slot
is queued.

`prio_set` does not look at the state of the process it re-queues, and the first `allocproc` does
not take its process out of the queue again when it finds no kernel stack.  Apart from these the
invariant is kept: it holds all along a run exactly when no `prio_set` reaches a zombie and the
first process gets a kernel stack (`queueInv_iff`).
-/

namespace Xv6

open Lib Function List PEntry Sched

namespace Sched

variable {s s₁ s' : Sched} {p i : Slot} {L : Slot → Prop} {b : Fin PRIO_MAX} {pid priority : Int}

/-- The run-queue invariant. -/
def QueueInv (s : Sched) : Prop :=
  ∃ q : Fin PRIO_MAX → List Slot, (∀ b, Chain s.next (s.queue b) (q b)) ∧
    (∀ i, (s.proc i).Live → ((List.finRange PRIO_MAX).flatMap q).count i = 1 ∧
      ∃ b, i ∈ q b ∧ (s.proc i).priority = b) ∧
    ∀ i, ¬ (s.proc i).Live → ∀ b, i ∉ q b

/-! ### The queued processes -/

/-- The queue holds the processes of `L`, each in the bucket of its priority. -/
structure Queues (s : Sched) (L : Slot → Prop) : Prop where
  rep : ∃ q, Rep s q ∧ ∀ i b, i ∈ q b ↔ L i ∧ (s.proc i).priority = (b : Fin PRIO_MAX)
  prio : ∀ i, L i → ∃ b : Fin PRIO_MAX, (s.proc i).priority = b

theorem Queues.queueInv (h : Queues s fun i => (s.proc i).Live) : QueueInv s := by
  obtain ⟨⟨q, hr, hq⟩, hp⟩ := h
  refine ⟨q, hr.chain, fun i hi => ?_, fun i hi b hb => hi ((hq i b).mp hb).1⟩
  obtain ⟨b, hb⟩ := hp i hi
  have hmem : i ∈ q b := (hq i b).mpr ⟨hi, hb⟩
  refine ⟨count_eq_one_of_mem ?_ (mem_flatMap.mpr ⟨b, by simp, hmem⟩), b, hmem, hb⟩
  refine nodup_flatMap.mpr ⟨fun c _ => (hr.chain c).nodup, ?_⟩
  refine (nodup_finRange _).imp fun {c d} hne j hc hd => hne (hr.disj c d j hc hd)

theorem queues_pinit : Queues pinit fun i => (pinit.proc i).Live :=
  ⟨⟨_, rep_pinit, fun _ _ => by simp [PEntry.Live, pinit, zero]⟩, fun _ h => absurd rfl h.1⟩

/-- Only the links, the buckets and the priorities of the queued processes matter. -/
theorem Queues.congr {L' : Slot → Prop} (h : Queues s L) (hn : s'.next = s.next)
    (hq : s'.queue = s.queue) (hl : ∀ i, L' i ↔ L i)
    (hp : ∀ i, L i → (s'.proc i).priority = (s.proc i).priority) : Queues s' L' := by
  obtain ⟨⟨q, hr, hm⟩, hb⟩ := h
  refine ⟨⟨q, hr.congr hn hq, fun i b => ?_⟩, fun i hi => ?_⟩
  · rw [hm, hl]
    exact and_congr_right fun hi => by rw [hp i hi]
  · rw [hp i ((hl i).mp hi)]
    exact hb i ((hl i).mp hi)

theorem Queues.calm (h : Queues s fun i => (s.proc i).Live) (hc : Calm s s') :
    Queues s' fun i => (s'.proc i).Live :=
  h.congr hc.next hc.queue (fun i => (hc.entry i).live) fun i _ => (hc.entry i).priority

theorem Queues.enqueue (h : Queues s L) (hp : ¬ L p) (hb : (s.proc p).priority = b) :
    ∃ s', pq1Enqueue s p b = .ok s' ∧ Frame s s' ∧ Queues s' fun i => L i ∨ i = p := by
  obtain ⟨⟨q, hr, hm⟩, hprio⟩ := h
  obtain ⟨s', he, hf, hr'⟩ := rep_enqueue (b := b) hr fun c hc => hp ((hm p c).mp hc).1
  refine ⟨s', he, hf, ⟨_, hr', fun i c => ?_⟩, fun i hi => ?_⟩
  · rw [hf.priority]
    by_cases hc : c = b
    · subst hc
      rw [update_self, mem_cons, hm]
      constructor
      · rintro (rfl | ⟨hi, hc⟩)
        · exact ⟨.inr rfl, hb⟩
        · exact ⟨.inl hi, hc⟩
      · rintro ⟨hi | rfl, hc⟩
        · exact .inr ⟨hi, hc⟩
        · exact .inl rfl
    · rw [update_of_ne hc, hm]
      refine ⟨fun ⟨hi, hc⟩ => ⟨.inl hi, hc⟩, ?_⟩
      rintro ⟨hi | rfl, hi'⟩
      · exact ⟨hi, hi'⟩
      · rw [hb] at hi'
        exact absurd (Fin.ext (by omega)) hc
  · rw [hf.priority]
    rcases hi with hi | rfl
    · exact hprio i hi
    · exact ⟨b, hb⟩

theorem Queues.remove (h : Queues s L) (hp : L p)
    (hpid : ∀ i, L i → (s.proc i).pid = (s.proc p).pid → i = p) :
    ∃ s', removeNode s p = .ok s' ∧ Frame s s' ∧ Queues s' fun i => L i ∧ i ≠ p := by
  obtain ⟨⟨q, hr, hm⟩, hprio⟩ := h
  obtain ⟨b, hb⟩ := hprio p hp
  obtain ⟨s', he, hf, hr'⟩ := rep_removeNode hr hb ((hm p b).mpr ⟨hp, hb⟩)
    fun i hi => hpid i ((hm i b).mp hi).1
  refine ⟨s', he, hf, ⟨_, hr', fun i c => ?_⟩, fun i hi => by rw [hf.priority]; exact hprio i hi.1⟩
  rw [hf.priority]
  by_cases hc : c = b
  · subst hc
    rw [update_self, (hr.chain c).nodup.mem_erase_iff, hm]
    tauto
  rw [update_of_ne hc, hm]
  refine ⟨fun ⟨hi, hi'⟩ => ⟨⟨hi, ?_⟩, hi'⟩, fun ⟨⟨hi, _⟩, hi'⟩ => ⟨hi, hi'⟩⟩
  rintro rfl
  rw [hb] at hi'
  exact hc (Fin.ext (by omega))

theorem Queues.dequeue (h : Queues s L) :
    ∃ r s', pq1Dequeue s = .ok (r, s') ∧ Frame s s' ∧ Queues s' L := by
  obtain ⟨⟨q, hr, hm⟩, hprio⟩ := h
  by_cases hn : ∃ b, ∃ i ∈ q b, (s.proc i).state = .runnable
  · -- the first bucket with a RUNNABLE process, and the first such process in it
    classical
    obtain ⟨b, ⟨i, hi, hrun⟩, hmin⟩ :=
      (wellFounded_lt : WellFounded (@LT.lt (Fin PRIO_MAX) _)).has_min
      {b | ∃ i ∈ q b, (s.proc i).state = .runnable} hn
    obtain ⟨cur, hcur⟩ : ∃ cur, (q b).find? (fun i => (s.proc i).state = .runnable) = some cur :=
      Option.isSome_iff_exists.mp (by simpa using ⟨i, hi, hrun⟩)
    obtain ⟨hst, l₁, l₂, hl, hl₁⟩ := find?_eq_some_iff_append.mp hcur
    obtain ⟨s', he, hf, hr'⟩ := rep_dequeue (b := b) hr
      (fun c j hj => ((hm j c).mp hj).2) (fun c hc j hj hrunj => hmin c ⟨j, hj, hrunj⟩ hc) hl
      (fun j hj => by simpa using hl₁ j hj) (by simpa using hst)
    refine ⟨_, s', he, hf, ⟨_, hr', fun j c => ?_⟩, fun j hj => by rw [hf.priority]; exact hprio j hj⟩
    rw [hf.priority, ← hm]
    by_cases hc : c = b
    · subst hc
      rw [update_self, hl]
      simp only [mem_append, mem_cons, not_mem_nil, or_false]
      tauto
    · rw [update_of_ne hc]
  · have hnone : ∀ b, ∀ i ∈ q b, (s.proc i).state ≠ .runnable :=
      fun b i hi hrun => hn ⟨b, i, hi, hrun⟩
    exact ⟨_, s, dequeue_none hr.lists hnone, .refl _, ⟨q, hr, hm⟩, hprio⟩

/-! ### One operation at a time -/

/-- The invariant in its inductive form: the queue holds the live processes. -/
abbrev Queued (s : Sched) : Prop := Queues s fun i => (s.proc i).Live

theorem Queued.scheduler {r : Option Slot} (h : Queued s) (hs : s.scheduler = .ok (r, s')) :
    Queued s' := by
  obtain ⟨c, s₁, hd, hf, hq⟩ := h.dequeue
  have hq₁ : Queued s₁ := hq.congr rfl rfl (fun i => (hf.keep.entry i).live) fun _ _ => rfl
  have hrun := (frame_dequeue hd).2
  rw [Sched.scheduler, hd, Res.ok_bind] at hs
  cases c with
  | none => cases hs; exact hq₁
  | some cur =>
    cases hs
    have hst := (hf.state cur).trans (hrun cur rfl)
    exact hq₁.calm (calm.upd (calm_state (by simp [PEntry.Live, hst]) (by simp)))

/-- A process that `prio_set` accepts is in use: a free slot has neither the caller's pid nor a
parent. -/
theorem PrioAllowed.used {q : Slot} (hpid : PidInv s) (hp : (s.proc p).state ≠ .unused)
    (h : PrioAllowed s p pid priority q) : (s.proc q).state ≠ .unused := by
  intro hq
  have ha := h.ancestor
  have hne : (s.proc q).pid ≠ (s.proc p).pid := fun e => by
    have hpos := hpid.pos p hp
    exact hp (hpid.inj q p e (by omega) ▸ hq)
  rw [show NPROC = 63 + 1 from rfl, ancestorLoop, if_neg hne, hpid.parent q hq] at ha
  cases ha

theorem Queued.prioSet {r : Int} (h : Queued s) (hpid : PidInv s) (hp : (s.proc p).state ≠ .unused)
    (hz : ∀ q, PrioAllowed s p pid priority q → (s.proc q).state ≠ .zombie)
    (hs : s.prioSet p pid priority = .ok (r, s')) : Queued s' := by
  rcases prioSet_cases hs with ⟨rfl, -⟩ | ⟨q, s₁, ha, h₁, h₂⟩
  · exact h
  have hlive : (s.proc q).Live := ⟨ha.used hpid hp, hz q ha⟩
  obtain ⟨s₁', e₁, f₁, q₁⟩ := h.remove hlive fun i hi e =>
    hpid.inj i q e (by have := hpid.pos i hi.1; omega)
  cases h₁.symm.trans e₁
  obtain ⟨b, hb⟩ : ∃ b : Fin PRIO_MAX, priority = b :=
    ⟨⟨priority.toNat, by have := ha.valid; omega⟩, by have := ha.valid; simp; omega⟩
  subst hb
  -- the priority of `q` may be changed, as `q` is in no bucket
  have q₂ : Queues (s₁.upd q fun e => { e with priority := (b : Int) })
      fun i => (s.proc i).Live ∧ i ≠ q := by
    refine q₁.congr ?_ rfl (fun _ => .rfl) fun i hi => by rw [upd_proc_ne hi.2]
    funext i
    simp only [next, upd_proc]
    split
    · next e => rw [e]
    · rfl
  obtain ⟨s₂, e₂, f₂, q₃⟩ := q₂.enqueue (p := q) (b := b) (by simp) (by simp)
  cases h₂.symm.trans e₂
  refine q₃.congr rfl rfl (fun i => ?_) fun _ _ => rfl
  rw [((keep_prioSet hs).entry i).live]
  by_cases e : i = q
  · simp [e, hlive]
  · simp [e]

/-- `s'` differs from `s` in the entry of `i` at most, and not in its link. -/
structure Off (i : Slot) (s s' : Sched) : Prop where
  queue : s'.queue = s.queue
  link : (s'.proc i).next = (s.proc i).next
  proc : ∀ j, j ≠ i → s'.proc j = s.proc j

theorem Off.trans (h₁ : Off i s s₁) (h₂ : Off i s₁ s') : Off i s s' :=
  ⟨h₂.queue.trans h₁.queue, h₂.link.trans h₁.link, fun j hj => (h₂.proc j hj).trans (h₁.proc j hj)⟩

theorem Off.next (h : Off i s s') : s'.next = s.next := by
  funext j
  by_cases e : j = i
  · subst e; exact h.link
  · simp only [Sched.next, h.proc j e]

theorem off_upd {f : PEntry → PEntry} (h : (f (s.proc i)).next = (s.proc i).next) :
    Off i s (s.upd i f) :=
  ⟨rfl, by rw [upd_proc_self, h], fun _ hj => upd_proc_ne hj⟩

/-- A slot that stays out of the queue may change. -/
theorem Queued.off (h : Queued s) (hi : ¬ (s.proc i).Live) (ho : Off i s s')
    (hi' : ¬ (s'.proc i).Live) : Queued s' := by
  refine h.congr ho.next ho.queue (fun j => ?_) fun j hj => ?_
  · by_cases e : j = i
    · subst e; exact iff_of_false hi' hi
    · rw [ho.proc j e]
  · rw [ho.proc j]
    rintro rfl
    exact hi hj

/-- A process that was not queued enters bucket `b`. -/
theorem Queued.enter {s₂ : Sched} (h : Queued s) (hi : ¬ (s.proc i).Live) (ho : Off i s s₁)
    (hb : (s₁.proc i).priority = b) (he : pq1Enqueue s₁ i b = .ok s₂) (ho' : Off i s₂ s')
    (hb' : (s'.proc i).priority = (s₂.proc i).priority) (hl : (s'.proc i).Live) : Queued s' := by
  have h₁ : Queues s₁ fun j => (s.proc j).Live :=
    h.congr ho.next ho.queue (fun _ => .rfl) fun j hj => by
      rw [ho.proc j]
      rintro rfl
      exact hi hj
  obtain ⟨s₂, e₂, f₂, q₂⟩ := h₁.enqueue hi hb
  cases he.symm.trans e₂
  refine q₂.congr ho'.next ho'.queue (fun j => ?_) fun j _ => ?_
  · by_cases e : j = i
    · subst e; simp [hl]
    · rw [ho'.proc j e, (f₂.keep.entry j).live, ho.proc j e]; simp [e]
  · by_cases e : j = i
    · subst e; exact hb'
    · rw [ho'.proc j e]

/-- A later `allocproc` does not queue the process it creates. -/
theorem embryo_later (hn : s.nextpid ≠ 1) (h : s.embryo i = .ok s') :
    Off i s s' ∧ (s'.proc i).pid = s.nextpid ∧ (s'.proc i).priority = (s.proc i).priority := by
  unfold embryo at h
  dsimp only at h
  rw [if_neg hn] at h
  split at h <;> cases h
  refine ⟨⟨rfl, by simp, fun j hj => upd_proc_ne hj⟩, by simp, by simp⟩

/-- The first `allocproc` queues its process in bucket 0. -/
theorem embryo_first (hn : s.nextpid = 1) (h : s.embryo i = .ok s') :
    ∃ s₁, Off i s s₁ ∧ (s₁.proc i).priority = 0 ∧ pq1Enqueue s₁ i 0 = .ok s' := by
  unfold embryo at h
  dsimp only at h
  rw [if_pos hn] at h
  split at h
  · cases h
  refine ⟨_, ?_, ?_, h⟩
  · refine ⟨rfl, by simp, fun j hj => ?_⟩
    rw [upd_proc_ne hj, upd_proc_ne hj]
  · simp

/-- The child enters the bucket of its priority. -/
theorem Queued.child {np : Slot} {cid : Int} (h : Queued s) (hnp : ¬ (s.proc np).Live)
    (hp : (s.proc p).Live) (ho : Off np s s₁) (hpid : (s₁.proc np).pid ≠ 1)
    (hc : s₁.child p np cid = .ok s') : Queued s' := by
  have hne : p ≠ np := by rintro rfl; exact hnp hp
  obtain ⟨b, hb⟩ : ∃ b : Fin PRIO_MAX, s₁.childPriority p np = b := by
    unfold childPriority
    rw [if_neg hpid]
    split
    · exact ⟨⟨5, by decide⟩, rfl⟩
    · rw [ho.proc p hne]; exact h.prio p hp
  obtain ⟨s₂, h₂, hc⟩ := of_bind hc
  cases hc
  rw [hb] at h₂
  exact h.enter hnp (ho.trans (off_upd rfl)) (by simp) h₂ (off_upd rfl) (by simp)
    (by simp [PEntry.Live])

/-! ### What breaks the invariant -/

/-- A bucket whose first entry is not live. -/
theorem QueueInv.head_live (h : QueueInv s) (hb : s.queue b = some i) : (s.proc i).Live := by
  obtain ⟨q, hc, -, hd⟩ := h
  by_contra hi
  have hcb := hc b
  rw [hb] at hcb
  cases hq : q b with
  | nil => rw [hq] at hcb; cases hcb
  | cons j l =>
    rw [hq] at hcb
    obtain rfl : i = j := Option.some.inj hcb.1
    exact hd i hi b (by simp [hq])

theorem enqueue_head {prio : Int} (h : pq1Enqueue s p prio = .ok s') :
    ∃ b, s'.queue b = some p := by
  obtain ⟨b, -, h⟩ := of_bind h
  refine ⟨b, ?_⟩
  split at h <;> cases h <;> simp

end Sched

namespace Kernel

variable {k k' : Kernel} {p : Slot} {op : Op}

/-- The condition on a step: the first process finds a kernel stack, and `prio_set` does not reach
a zombie. -/
def QueueOk (k : Kernel) : Op → Prop
  | .allocFirst => k.vm.mem.freelist ≠ []
  | .prioSet p pid priority =>
    ∀ q, PrioAllowed k.sched p pid priority q → (k.sched.proc q).state ≠ .zombie
  | _ => True

theorem queued_fork2 {cid r : Int} (h : Queued k.sched) (hpid : PidInv k.sched)
    (hp : k.inUser p) (hf : k.fork2 p cid = .ok (r, k')) : Queued k'.sched := by
  have hn := nextpid_ne_one hpid hp
  have hnext := hpid.nextpid
  rcases fork2_cases hf with ha | ⟨np, k₁, ha, -, hrest⟩
  · rcases allocproc_cases ha with ⟨-, rfl⟩ | ⟨i, s, hi, he, ⟨-, -, -, hs⟩ | ⟨hc, -⟩⟩
    · exact h
    · rw [hs]
      exact h.off (not_live_of_unused hi) ((embryo_later hn he).1.trans (off_upd rfl))
        (by simp [PEntry.Live, free])
    · cases hc
  · obtain ⟨s, hi, he, -, hs₁⟩ := allocproc_some ha
    obtain ⟨ho, hpi, -⟩ := embryo_later hn he
    have ho₁ : Sched.Off np k.sched k₁.sched := hs₁ ▸ ho.trans (off_upd rfl)
    have hdead := not_live_of_unused hi
    rcases hrest with ⟨v, -, -, hs⟩ | ⟨v, -, -, hs⟩
    · rw [hs]
      exact h.off hdead (ho₁.trans (off_upd rfl)) (by simp [PEntry.Live, free])
    refine h.child hdead hp.live ho₁ ?_ hs
    rw [hs₁, upd_proc_self]
    simp only
    omega

/-- The first process, when it finds a kernel stack. -/
theorem queued_allocFirst {r : Option Slot} (h : Queued k.sched) (hn : k.sched.nextpid = 1)
    (hm : k.vm.mem.freelist ≠ []) (ha : k.allocproc none (-1) = .ok (r, k')) : Queued k'.sched := by
  rcases allocproc_cases ha with ⟨-, rfl⟩ | ⟨i, s, hi, he, ⟨-, hv, -, -⟩ | ⟨-, -, -, hs⟩⟩
  · exact h
  · cases hl : k.vm.mem.freelist with
    | nil => exact absurd hl hm
    | cons pg rest => simp [Vm.allocKstack, kalloc, hl] at hv
  obtain ⟨s₁, ho, hp, hq⟩ := embryo_first hn he
  rw [hs]
  exact h.enter (b := ⟨0, by decide⟩) (not_live_of_unused hi) ho hp hq
    (off_upd rfl) (by simp) (by simpa [PEntry.Live] using embryo_live_self he)

theorem queued_exit (h : Queued k.sched) (hpid : PidInv k.sched) (hp : k.inUser p)
    (he : k.exit p = .ok k') : Queued k'.sched := by
  obtain ⟨-, v, s, -, hr, rfl⟩ := exit_cases he
  have hc := (calm.wakeParent k.sched p).trans (calm_abandon _ p)
  have hpid' := hpid.keep hc.keep
  have hlive : (((k.sched.wakeParent p).abandon p).proc p).Live := (hc.entry p).live.mpr hp.live
  obtain ⟨s', hr', hf, hq⟩ := (h.calm hc).remove hlive fun i hi e =>
    hpid'.inj i p e (by have := hpid'.pos i hi.1; omega)
  cases hr.symm.trans hr'
  have hl := ((calm_vm p).exitLocks (finRange MUX_MAXNUM) { k with vm := v, sched := s }).1
  show Queued (upd _ p fun e => { e with state := .zombie })
  refine hq.congr ((off_upd rfl).next.trans hl.next) hl.queue (fun i => ?_) fun i hi => ?_
  · by_cases e : i = p
    · subst e; simp [PEntry.Live]
    · rw [upd_proc_ne e, (hl.entry i).live, (hf.keep.entry i).live]; simp [e]
  · rw [upd_proc_ne hi.2, (hl.entry i).priority]

/-- **One step.** -/
theorem queued_step (h : Queued k.sched) (hpid : PidInv k.sched) (hs : Step k op k')
    (hok : QueueOk k op) : Queued k'.sched := by
  cases step_kind hs with
  | still _ hc => exact h.calm hc.sched
  | scheduler hd => exact h.scheduler hd
  | prioSet hp hps => exact h.prioSet hpid hp.live.1 hok hps
  | growproc | exec | shmGet | shmRem | mutexCreate | mutexGet => exact h
  | mutexDelete hp => exact h.calm ((calm_vm _).mutexDelete _ _).1
  | allocFirst hn ha => exact queued_allocFirst h hn hok ha
  | userinit hp hu => exact h.calm (userinit_cases hp hu).1
  | fork2 hp hf => exact queued_fork2 h hpid hp hf
  | exit hp he => exact queued_exit h hpid hp he
  | reap _ hq _ _ hc =>
    refine Sched.Queues.calm (h.off ?_ (off_upd rfl) ?_) hc
    · simp [PEntry.Live, hq]
    · simp [PEntry.Live, reaped]

/-- The first process without a kernel stack is queued and UNUSED. -/
theorem queueOk_allocFirst (hpid : PidInv k.sched) (hs : Step k .allocFirst k')
    (hinv : QueueInv k'.sched) : k.vm.mem.freelist ≠ [] := by
  obtain ⟨hn, r, hs⟩ := hs
  change k.sched.nextpid = 1 at hn
  obtain ⟨⟨c, k₁⟩, ha, hs⟩ := of_bind hs
  cases hs
  intro hm
  have hunused : ∀ i, (k.sched.proc i).state = .unused := fun i => by
    by_contra hi
    have h₁ := hpid.pos i hi
    have h₂ := (hpid.bound i).2
    omega
  unfold allocproc at ha
  split at ha
  · next hnone => simpa [hunused] using find?_eq_none.mp hnone ⟨0, by decide⟩
  next i hi =>
  have hset : setnextproc k.con (-1) i = .ok (0, k.con) := by simp [setnextproc]
  rw [hset, Res.ok_bind] at ha
  simp only [Vm.allocKstack, kalloc, hm] at ha
  obtain ⟨s, he, ha⟩ := of_bind ha
  cases ha
  obtain ⟨s₁, -, -, hq⟩ := embryo_first hn he
  obtain ⟨b, hb⟩ := enqueue_head hq
  have hl := hinv.head_live hb
  simp [PEntry.Live, free] at hl

/-- A zombie that `prio_set` reaches is queued. -/
theorem queueOk_prioSet {pid priority : Int} (hs : Step k (.prioSet p pid priority) k')
    (hinv : QueueInv k'.sched) : QueueOk k (.prioSet p pid priority) := by
  obtain ⟨-, r, hs⟩ := hs
  obtain ⟨⟨c, s⟩, h₁, hs⟩ := of_bind hs
  cases hs
  intro q ha hz
  rcases prioSet_cases h₁ with ⟨-, hno⟩ | ⟨q', s₁, ha', -, h₂⟩
  · exact hno q ha
  obtain rfl : q = q' := Option.some.inj (ha.found.symm.trans ha'.found)
  obtain ⟨b, hb⟩ := enqueue_head h₂
  have hl := ((keep_prioSet h₁).entry q).live.mp (hinv.head_live hb)
  exact hl.2 hz

/-- **The run queue, over whole runs.**  `QueueInv` holds in every state of a run exactly when each
step of it meets `QueueOk`. -/
theorem queueInv_iff {m : Kmem} {t : List (Kernel × Op)} (hr : Run Step (boot m) t k) :
    ((∀ x ∈ t, QueueInv x.1.sched) ∧ QueueInv k.sched) ↔ ∀ x ∈ t, QueueOk x.1 x.2 := by
  refine hr.inv_iff (I := fun k => PidInv k.sched ∧ Queued k.sched)
    (P := fun k => QueueInv k.sched) (fun k h => h.2.queueInv) (fun k op k' h hs hok => ?_)
    (fun k op k' h hs hinv => ?_) ⟨.pinit, queues_pinit⟩
  · exact ⟨pidInv_step h.1 hs, queued_step h.2 h.1 hs hok⟩
  · cases op with
    | allocFirst => exact queueOk_allocFirst h.1 hs hinv
    | prioSet p pid priority => exact queueOk_prioSet hs hinv
    | _ => trivial

/-- After a fork the queue holds the parent and the child. -/
theorem queueInv_forkOps : ∃ t k, Run Step (boot smallMem) t k ∧
    (k.sched.queue 0 = some 0 ∧ k.sched.queue 5 = some 1) ∧
    (∀ x ∈ t, QueueInv x.1.sched) ∧ QueueInv k.sched := by
  obtain ⟨k, hr, hq⟩ := exists_run step_of_exec? (boot smallMem) forkOps
    (fun k => k.sched.queue 0 = some 0 ∧ k.sched.queue 5 = some 1) (by decide +kernel)
  have hops : ∀ x ∈ traceFn exec? (boot smallMem) forkOps,
      x.1.vm.mem.freelist ≠ [] ∧ x.2 ∈ forkOps := by
    decide +kernel
  refine ⟨_, k, hr, hq, (queueInv_iff hr).mpr fun ⟨k', op⟩ hx => ?_⟩
  obtain ⟨hm, hop⟩ := hops _ hx
  obtain rfl | rfl | rfl | rfl | rfl : op = .allocFirst ∨ op = .userinit 0 ∨ op = .scheduler ∨
      op = .fork2 0 (-1) ∨ op = .scheduler := by simpa [forkOps] using hop
  · exact hm
  all_goals trivial

/-- **A zombie in the queue.**  The child exits, and its parent, which has not waited for it,
lowers its priority: `prio_set` returns 0 and leaves the zombie in bucket 9. -/
theorem prioSet_queues_zombie : ∃ t k, Run Step (boot smallMem) t k ∧ ¬ QueueInv k.sched := by
  obtain ⟨k, hr, hz, hq⟩ := exists_run step_of_exec? (boot smallMem)
    (forkOps ++ [.exit 1, .prioSet 0 2 9])
    (fun k => (k.sched.proc 1).state = .zombie ∧ k.sched.queue 9 = some 1) (by decide +kernel)
  exact ⟨_, k, hr, fun hinv => (hinv.head_live hq).2 hz⟩

end Kernel

end Xv6
