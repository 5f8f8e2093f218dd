import Xv6.Kernel.Sections

/-!
# Kernel — WaitZombie

Does `wait` sleep past a zombie?  `exit` wakes the parent before it becomes a ZOMBIE, which is the
right order only if both happen in one section of `ptable.lock`.  They do unless the process owns a
mutex: to release it, `exit` lets go of the lock in between, and the parent can look for zombies,
find none and sleep again (`exit_loses_wakeup`).

* `NoMissed`: no process that sleeps in `wait` and is not killed has a ZOMBIE child.
* `noMissed_run`: it holds in every state of a run in which no process exits that owns a mutex.
-/

namespace Xv6

open Function PEntry Sched Kernel

/-- The entry of slot `i` keeps its parent, and does not go to sleep in `wait`. -/
structure PEntry.Lull (i : Slot) (e e' : PEntry) : Prop where
  keep : Keep e e'
  parent : e'.parent = e.parent
  wait : e'.state = .sleeping ∧ e'.chan = some (.proc i) ∧ e'.killed = false →
    e.state = .sleeping ∧ e.chan = some (.proc i) ∧ e.killed = false

namespace Sched

variable {s s₁ s' : Sched} {p q i : Slot} {f : PEntry → PEntry}

/-- `p` sleeps in `wait` and is not killed. -/
def InWait (s : Sched) (p : Slot) : Prop :=
  (s.proc p).state = .sleeping ∧ (s.proc p).chan = some (.proc p) ∧ (s.proc p).killed = false

instance (s : Sched) (p : Slot) : Decidable (s.InWait p) := inferInstanceAs (Decidable (_ ∧ _))

/-- No process that sleeps in `wait` has a ZOMBIE child. -/
def NoMissed (s : Sched) : Prop :=
  ∀ p q, s.InWait p → (s.proc q).parent = some p → (s.proc q).state ≠ .zombie

/-! ### Operations that put nobody to sleep in `wait` -/

/-- The parents, the zombies and the free slots are the same in `s'` as in `s`, and nobody has
gone to sleep in `wait`. -/
structure Lull (s s' : Sched) : Prop where
  keep : Keep s s'
  parent : ∀ i, (s'.proc i).parent = (s.proc i).parent
  initproc : s'.initproc = s.initproc
  wait : ∀ p, s'.InWait p → s.InWait p

theorem Lull.refl (s : Sched) : Lull s s := ⟨.refl s, fun _ => rfl, rfl, fun _ => id⟩

theorem Lull.trans (h₁ : Lull s s₁) (h₂ : Lull s₁ s') : Lull s s' :=
  ⟨h₁.keep.trans h₂.keep, fun i => (h₂.parent i).trans (h₁.parent i),
    h₂.initproc.trans h₁.initproc, fun p hp => h₁.wait p (h₂.wait p hp)⟩

theorem Lull.noMissed (h : Lull s s') (hm : NoMissed s) : NoMissed s' := by
  intro p q hp hq hz
  rw [h.parent] at hq
  exact hm p q (h.wait p hp) hq ((h.keep.entry q).zombie.mp hz)

theorem Frame.lull (h : Frame s s') : Lull s s' := by
  refine ⟨h.keep, h.parent, h.initproc, fun p hp => ?_⟩
  have hcore := h.core p
  have hs : (s'.proc p).core.state = .sleeping ∧ (s'.proc p).core.chan = some (.proc p) ∧
      (s'.proc p).core.killed = false := hp
  rw [hcore] at hs
  exact hs

theorem lullBy (p : Slot) : Active p (fun c _ => c ≠ .proc p) PEntry.Lull Lull where
  trans := .trans
  entries h := ⟨⟨fun i => (h i).keep, rfl⟩, fun i => (h i).parent, rfl, fun i => (h i).wait⟩
  same _ e := ⟨.refl e, rfl, id⟩
  woken h := ⟨keep.woken (i := 0) h, rfl, fun hw => by cases hw.1⟩
  killed _ _ := ⟨keep.killed 0 _, rfl, fun hw => by cases hw.2.2⟩
  preempted h := ⟨keep.preempted (i := 0) h, rfl, fun hw => by cases hw.1⟩
  dispatched h := ⟨keep.dispatched (i := 0) h, rfl, fun hw => by cases hw.1⟩
  returns _ := ⟨⟨rfl, .rfl, .rfl, id⟩, rfl, id⟩
  asleep hc h := ⟨((calmBy p).asleep trivial h).toKeep, rfl, fun hw =>
    absurd (Option.some.inj hw.2.1) hc⟩

theorem lull_priority (i : Slot) (e : PEntry) (v : Int) : e.Lull i { e with priority := v } :=
  ⟨⟨rfl, .rfl, .rfl, id⟩, rfl, id⟩

/-- Who is woken no longer sleeps in `wait`. -/
theorem wakeup1_not_inWait (s : Sched) (p : Slot) : ¬ (s.wakeup1 (.proc p)).InWait p := by
  intro hp
  unfold InWait wakeup1 at hp
  dsimp only at hp
  split at hp
  · cases hp.1
  · next hn => exact hn ⟨hp.1, hp.2.1⟩

/-! ### Families -/

/-- The first process is alive and has no parent, no process is its own parent, and no zombie is
missed. -/
structure Family (s : Sched) : Prop where
  init : ∀ r, s.initproc = some r → (s.proc r).Live ∧ (s.proc r).parent = none
  orphan : s.initproc = none → ∀ i, (s.proc i).parent = none
  self : ∀ i, (s.proc i).parent ≠ some i
  missed : NoMissed s

theorem Family.lull (h : Family s) (hl : Lull s s') : Family s' := by
  refine ⟨fun r hr => ?_, fun hn i => ?_, fun i => ?_, hl.noMissed h.missed⟩
  · rw [hl.initproc] at hr
    rw [(hl.keep.entry r).live, hl.parent]
    exact h.init r hr
  · rw [hl.initproc] at hn
    rw [hl.parent]
    exact h.orphan hn i
  · rw [hl.parent]
    exact h.self i

theorem inWait_upd_ne (h : q ≠ p) : (s.upd p f).InWait q ↔ s.InWait q := by
  unfold InWait
  rw [upd_proc_ne h]

/-- A slot other than that of the first process is taken, freed or made RUNNABLE. -/
theorem Family.upd (h : Family s) (hi : s.initproc ≠ some p)
    (hst : (f (s.proc p)).state ≠ .zombie ∧ (f (s.proc p)).state ≠ .sleeping)
    (hpar : (f (s.proc p)).parent = (s.proc p).parent ∨ (f (s.proc p)).parent = none) :
    Family (s.upd p f) := by
  have hne : ∀ r, s.initproc = some r → r ≠ p := by rintro r hr rfl; exact hi hr
  refine ⟨fun r hr => ?_, fun hn i => ?_, fun i => ?_, fun r q hr hq => ?_⟩
  · rw [upd_proc_ne (hne r hr)]
    exact h.init r hr
  · by_cases e : i = p
    · subst e
      rw [upd_proc_self]
      exact hpar.elim (fun e => e.trans (h.orphan hn i)) id
    · rw [upd_proc_ne e]; exact h.orphan hn i
  · by_cases e : i = p
    · subst e
      rw [upd_proc_self]
      rcases hpar with e | e
      · rw [e]; exact h.self i
      · rw [e]; simp
    · rw [upd_proc_ne e]; exact h.self i
  · have hrp : r ≠ p := by
      rintro rfl
      unfold InWait at hr
      rw [upd_proc_self] at hr
      exact hst.2 hr.1
    by_cases e : q = p
    · subst e; rw [upd_proc_self]; exact hst.1
    · rw [upd_proc_ne e] at hq ⊢
      exact h.missed r q ((inWait_upd_ne hrp).mp hr) hq

/-- The child `np` gets its parent `p`, which is awake. -/
theorem Family.adopt {np : Slot} (h : Family s) (hi : s.initproc ≠ some np) (hb : s.initproc ≠ none)
    (hne : np ≠ p) (hp : (s.proc p).state = .running) (hpar : (f (s.proc np)).parent = some p)
    (hst : (f (s.proc np)).state = (s.proc np).state)
    (hch : (f (s.proc np)).chan = (s.proc np).chan)
    (hkd : (f (s.proc np)).killed = (s.proc np).killed) : Family (s.upd np f) := by
  have hwait : ∀ r, (s.upd np f).InWait r ↔ s.InWait r := by
    intro r
    by_cases e : r = np
    · subst e; unfold InWait; rw [upd_proc_self, hst, hch, hkd]
    · exact inWait_upd_ne e
  refine ⟨fun r hr => ?_, fun hn => absurd hn hb, fun i => ?_, fun r q hr hq => ?_⟩
  · have e : r ≠ np := by rintro rfl; exact hi hr
    rw [upd_proc_ne e]
    exact h.init r hr
  · by_cases e : i = np
    · subst e; rw [upd_proc_self, hpar]; exact fun e => hne (Option.some.inj e).symm
    · rw [upd_proc_ne e]; exact h.self i
  · rw [hwait] at hr
    by_cases e : q = np
    · subst e
      rw [upd_proc_self, hpar] at hq
      obtain rfl : p = r := Option.some.inj hq
      unfold InWait at hr
      rw [hp] at hr
      cases hr.1
    · rw [upd_proc_ne e] at hq ⊢
      exact h.missed r q hr hq

theorem Family.init_ne_unused (h : Family s) (hp : (s.proc p).state = .unused) :
    s.initproc ≠ some p := fun hi => (h.init p hi).1.1 hp

theorem Family.embryo (h : Family s) (hu : (s.proc i).state = .unused) (he : s.embryo i = .ok s') :
    Family s' := by
  have h₀ : Family { s with nextpid := s.nextpid + 1 } := ⟨h.init, h.orphan, h.self, h.missed⟩
  have h₁ : Family (s.newborn i) := h₀.upd (h.init_ne_unused hu) (by simp) (.inl rfl)
  exact h₁.lull (frame_embryo he).lull

/-- `p` found no zombie among its children and goes to sleep in `wait`. -/
theorem Family.sleep (h : Family s) {ctx : Context} (hp : (s.proc p).state = .running)
    (hno : ∀ i, ¬ ((s.proc i).parent = some p ∧ (s.proc i).state = .zombie)) :
    Family (s.sleep p (.proc p) ctx) := by
  have hc : Calm s (s.sleep p (.proc p) ctx) := calm_sleep hp
  have hpar : ∀ i, ((s.sleep p (.proc p) ctx).proc i).parent = (s.proc i).parent :=
    upd_field parent rfl
  refine ⟨fun r hr => ?_, fun hn i => ?_, fun i => ?_, fun r q hr hq hz => ?_⟩
  · rw [(hc.entry r).toKeep.live, hpar]; exact h.init r hr
  · rw [hpar]; exact h.orphan hn i
  · rw [hpar]; exact h.self i
  · rw [hpar] at hq
    have hz' := (hc.entry q).zombie.mp hz
    by_cases e : r = p
    · subst e; exact hno q ⟨hq, hz'⟩
    · exact h.missed r q ((inWait_upd_ne e).mp hr) hq hz'

/-! ### `exit` -/

theorem abandon_inWait {r : Slot} (hr : (s.abandon p).InWait r) : s.InWait r := by
  have hrep : ∀ r, (s.reparent p).InWait r → s.InWait r := by
    intro r hr
    unfold InWait reparent at hr
    dsimp only at hr
    split at hr <;> exact hr
  unfold abandon at hr
  split at hr
  · split at hr
    · exact hrep r hr
    · exact hrep r (((lullBy p).wakeup1 _ _).wait r hr)
  · exact hrep r hr

theorem abandon_parent (s : Sched) (p i : Slot) : ((s.abandon p).proc i).parent =
    if (s.proc i).parent = some p then s.initproc else (s.proc i).parent := by
  have hrep : ((s.reparent p).proc i).parent =
      if (s.proc i).parent = some p then s.initproc else (s.proc i).parent := by
    simp only [reparent]
    split <;> rfl
  unfold abandon
  split
  · split
    · exact hrep
    · rw [((lullBy p).wakeup1 _ _).parent]; exact hrep
  · exact hrep

theorem abandon_initproc (s : Sched) (p : Slot) : (s.abandon p).initproc = s.initproc := by
  unfold abandon
  split
  · split <;> rfl
  · rfl

/-- The children of `p` go to the first process, which is woken if one of them is a zombie. -/
theorem Family.abandon (h : Family s) : Family (s.abandon p) := by
  have hcalm := calm_abandon s p
  have hpar := abandon_parent s p
  have hinit := abandon_initproc s p
  refine ⟨fun r hr => ?_, fun hn i => ?_, fun i => ?_, fun r q hr hq hz => ?_⟩
  · rw [hinit] at hr
    obtain ⟨hl, hp⟩ := h.init r hr
    rw [(hcalm.entry r).toKeep.live, hpar, hp]
    exact ⟨hl, rfl⟩
  · rw [hinit] at hn
    rw [hpar]
    split
    · exact hn
    · exact h.orphan hn i
  · rw [hpar]
    split
    · next hi =>
      intro he
      rw [(h.init i he).2] at hi
      cases hi
    · exact h.self i
  · have hz' := (hcalm.entry q).zombie.mp hz
    rw [hpar] at hq
    split at hq
    · next hqp =>
      -- `q` is a zombie, so the first process has been woken
      have hwoken : s.abandon p = (s.reparent p).wakeup1 (.proc r) := by
        unfold Sched.abandon
        rw [if_pos ⟨q, hqp, hz'⟩, hq]
      rw [hwoken] at hr
      exact wakeup1_not_inWait _ r hr
    · exact h.missed r q (abandon_inWait hr) hq hz'

/-- **`exit` in one section.**  The parent of `p` is awake when `p` becomes a ZOMBIE. -/
theorem Family.exit (h : Family s) (hi : s.initproc ≠ some p)
    (hr : ((s.wakeParent p).abandon p).removeNode p = .ok s₁) :
    Family (s₁.upd p fun e => { e with state := .zombie }) := by
  have hw := (lullBy p).wakeParent s p
  have hf := (frame_removeNode hr).lull
  have h₁ : Family s₁ := ((h.lull hw).abandon (p := p)).lull hf
  have hinit : s₁.initproc = s.initproc :=
    hf.initproc.trans ((abandon_initproc _ p).trans hw.initproc)
  have hpar : (s₁.proc p).parent = (s.proc p).parent := by
    rw [hf.parent, abandon_parent, hw.parent, if_neg (h.self p)]
  have hawake : ∀ r, (s.proc p).parent = some r → ¬ s₁.InWait r := by
    intro r hpr hin
    have hin' := abandon_inWait (hf.wait r hin)
    unfold wakeParent at hin'
    rw [hpr] at hin'
    exact wakeup1_not_inWait s r hin'
  refine ⟨fun r hr' => ?_, fun hn i => ?_, fun i => ?_, fun r q hr' hq hz => ?_⟩
  · have hinit' : s₁.initproc = some r := hr'
    have e : r ≠ p := by rintro rfl; exact hi (hinit.symm.trans hinit')
    rw [upd_proc_ne e]
    exact h₁.init r hinit'
  · by_cases e : i = p
    · subst e; rw [upd_proc_self]; exact h₁.orphan hn i
    · rw [upd_proc_ne e]; exact h₁.orphan hn i
  · by_cases e : i = p
    · subst e; rw [upd_proc_self]; exact h₁.self i
    · rw [upd_proc_ne e]; exact h₁.self i
  · have e : r ≠ p := by
      rintro rfl
      unfold InWait at hr'
      rw [upd_proc_self] at hr'
      cases hr'.1
    rw [inWait_upd_ne e] at hr'
    by_cases eq : q = p
    · subst eq
      rw [upd_proc_self] at hq
      exact hawake r (hpar.symm.trans hq) hr'
    · rw [upd_proc_ne eq] at hq hz
      exact h₁.missed r q hr' hq hz

theorem family_pinit : Family pinit where
  init _ hr := by cases hr
  orphan _ _ := rfl
  self _ hi := by cases hi
  missed _ _ hp := by cases hp.1

end Sched

namespace Kernel

variable {k k₁ k' : Kernel} {p q : Slot} {op : Op} {r : Option Int} {cid : Int}

/-! ### Calls -/

theorem lull_locks (p : Slot) : CvLocks p fun k k' => Lull k.sched k'.sched :=
  (lullBy p).cvLocks (by simp) (by simp)

/-- `wait` reaps a zombie, returns, or sleeps when it has found none. -/
theorem family_wait (h : Sched.Family k.sched) (hp : (k.sched.proc p).state = .running)
    (hw : k.wait p = .ok (r, k')) :
    Sched.Family k'.sched ∧ k'.sched.initproc = k.sched.initproc := by
  unfold wait at hw
  split at hw
  · next q hq =>
    have hst : (k.sched.proc q).parent = some p ∧ (k.sched.proc q).state = .zombie := by
      simpa using List.find?_some hq
    have hi : k.sched.initproc ≠ some q := fun hi => (h.init q hi).1.2 hst.2
    obtain ⟨v, -, hw⟩ := of_bind hw
    obtain ⟨con, -, hw⟩ := of_bind hw
    cases hw
    have h₁ := h.upd (f := reaped) hi (by simp [reaped]) (.inr rfl)
    exact ⟨h₁.lull ((lullBy p).user _), rfl⟩
  · next hno =>
    split at hw <;> cases hw
    · exact ⟨h.lull ((lullBy p).user _), rfl⟩
    · refine ⟨h.sleep hp fun i hi => ?_, rfl⟩
      have := List.find?_eq_none.mp hno i (List.mem_finRange i)
      simp [hi] at this

theorem family_allocFirst {r : Option Slot} (h : Sched.Family k.sched)
    (ha : k.allocproc none (-1) = .ok (r, k')) :
    Sched.Family k'.sched ∧ k'.sched.initproc = k.sched.initproc := by
  rcases allocproc_cases ha with ⟨-, rfl⟩ | ⟨i, s, hst, he, hrest⟩
  · exact ⟨h, rfl⟩
  have h₁ := h.embryo hst he
  have hi := (frame_embryo he).initproc
  have hne : s.initproc ≠ some i := hi ▸ h.init_ne_unused hst
  rcases hrest with ⟨-, -, -, hs⟩ | ⟨-, -, -, hs⟩
  · rw [hs]
    exact ⟨h₁.upd hne (by simp [free]) (.inl rfl), hi⟩
  · rw [hs]
    exact ⟨h₁.lull ((lullBy i).user _), hi⟩

/-- **A call**, other than `fork2` and `exit`. -/
theorem family_call {f : Fine} (h : Sched.Family f.kernel.sched) (he : f.kernel.Enabled op)
    (hc : f.callFrom op) (hs : f.kernel.step op = .ok (r, k')) : Sched.Family k'.sched ∧
      (k'.sched.initproc = f.kernel.sched.initproc ∨ f.kernel.sched.initproc = none) := by
  have hl : Lull f.kernel.sched k'.sched → Sched.Family k'.sched ∧
      (k'.sched.initproc = f.kernel.sched.initproc ∨ f.kernel.sched.initproc = none) :=
    fun hl => ⟨h.lull hl, .inl hl.initproc⟩
  cases op with
  | fork2 p cid => exact hc.elim
  | exit p => exact hc.elim
  | allocFirst =>
    obtain ⟨⟨c, k₁⟩, h₁, hs⟩ := of_bind hs
    cases hs
    obtain ⟨hf, hi⟩ := family_allocFirst h h₁
    exact ⟨hf, .inl hi⟩
  | userinit p =>
    obtain ⟨k₁, h₁, hs⟩ := of_bind hs
    cases hs
    obtain ⟨v, -, h₁⟩ := of_bind h₁
    cases h₁
    have hn : f.kernel.sched.initproc = none := hc
    have h₂ := h.upd (p := p) (f := fun e => { e with cid := -1, state := .runnable })
      (by rw [hn]; simp) (by simp) (.inl rfl)
    refine ⟨⟨fun r hr => ?_, fun hn' => (Option.some_ne_none p hn').elim, h₂.self, h₂.missed⟩,
      .inr hn⟩
    obtain rfl : p = r := Option.some.inj hr
    exact ⟨by simp [PEntry.Live], h₂.orphan hn p⟩
  | wait p => exact (family_wait h he.1 hs).imp_right .inl
  | resume p =>
    exact ((lull_locks p).resume he.1 hs).elim hl fun hw => (family_wait h he.1 hw).imp_right .inl
  | sleep p addr => cases hs; exact hl ((lullBy p).sleep (by simp) he.1)
  | mutexCreate p name =>
    obtain ⟨x, h₁, hs⟩ := of_bind hs
    cases hs; exact hl (.refl _)
  | mutexGet p name => cases hs; exact hl (.refl _)
  | mutexDelete p muxid => cases hs; exact hl (((lullBy p).deletes p).mutexDelete _ muxid)
  | mutexLock p muxid => rw [← Res.snd_of_ok hs] at hl ⊢; exact hl ((lull_locks p).mutexLock _ he.1)
  | mutexUnlock p muxid => cases hs; exact hl ((lull_locks p).mutexUnlock _ p muxid)
  | cvWait p muxid => exact hl ((lull_locks p).cvWait he.1 hs)
  | cvSignal p muxid => cases hs; exact hl ((lull_locks p).cvSignal _ p muxid)
  | _ =>
    exact hl ((lullBy 0).bare Sched.Frame.lull (fun _ _ _ _ _ _ => lull_priority _ _ _) he hs rfl).1

/-! ### The sections of `fork2` and `exit` -/

theorem family_allocSection {o : Option Slot} (h : Sched.Family k.sched)
    (hp : (k.sched.proc p).state = .running) (ha : k.allocSection cid = .ok (o, k')) :
    Sched.Family k'.sched ∧ k'.sched.initproc = k.sched.initproc ∧
      ∀ np ∈ o, k.sched.initproc ≠ some np ∧ np ≠ p := by
  unfold allocSection at ha
  split at ha
  · cases ha; exact ⟨h, rfl, by simp⟩
  next i hi =>
  have hst : (k.sched.proc i).state = .unused := by simpa using List.find?_some hi
  obtain ⟨⟨r, con⟩, -, ha⟩ := of_bind ha
  dsimp only at ha
  split at ha
  · cases ha; exact ⟨h, rfl, by simp⟩
  obtain ⟨s, hs, ha⟩ := of_bind ha
  cases ha
  refine ⟨h.embryo hst hs, (frame_embryo hs).initproc, fun np hnp => ?_⟩
  cases hnp
  exact ⟨h.init_ne_unused hst, by rintro rfl; rw [hp] at hst; cases hst⟩

theorem family_forkBody {np : Slot} {ok : Bool} (h : Sched.Family k.sched)
    (hp : (k.sched.proc p).state = .running) (hb : k.sched.initproc ≠ none)
    (hi : k.sched.initproc ≠ some np) (hne : np ≠ p) (hf : k.forkBody p np cid = .ok (ok, k')) :
    Sched.Family k'.sched ∧ k'.sched.initproc = k.sched.initproc := by
  unfold forkBody at hf
  split at hf
  · cases hf
    exact ⟨h.upd hi (by simp [free]) (.inl rfl), rfl⟩
  obtain ⟨mux, -, hf⟩ := of_bind hf
  dsimp only at hf
  obtain ⟨⟨c, vm⟩, -, hf⟩ := of_bind hf
  have h₁ := h.lull ((lullBy np).user k.sched)
  cases c with
  | false =>
    obtain ⟨vm₂, -, hf⟩ := of_bind hf
    cases hf
    exact ⟨h₁.upd hi (by simp [free]) (.inl rfl), rfl⟩
  | true =>
    obtain ⟨s, hs, hf⟩ := of_bind hf
    cases hf
    have hframe := frame_enqueue hs
    refine ⟨Sched.Family.lull ?_ hframe.lull, hframe.initproc⟩
    refine h₁.adopt (p := p) hi hb hne ?_ rfl rfl rfl rfl
    rw [upd_proc_ne hne.symm]
    exact hp

/-- A process that owns no mutex walks over its handles without letting go of the lock. -/
theorem exitWalk_owns_none (p : Slot) : ∀ (is : List (Fin MUX_MAXNUM)) (k : Kernel),
    (∀ i g, k.mux.locks p i = some g → ¬ k.owns p g) →
    (exitWalk p is k).1.sched = (k.zombie p).sched ∧ (exitWalk p is k).2 = .outside
  | [], _, _ => ⟨rfl, rfl⟩
  | i :: is, k, hno => by
    cases hg : k.mux.locks p i with
    | none =>
      simp only [exitWalk, hg]
      exact exitWalk_owns_none p is k hno
    | some g =>
      have hslp := same_slp.addCount k.mux g (-1)
      have hno' : ∀ i' g', k.mux.locks p i' = some g' →
          ¬ owns { k with mux := k.mux.addCount g (-1) } p g' := by
        intro i' g' hl ho
        refine hno i' g' hl ?_
        unfold owns at ho ⊢
        rw [← hslp]
        exact ho
      simp only [exitWalk, hg]
      rw [if_neg (hno' i g hg)]
      exact exitWalk_owns_none p is { k with mux := k.mux.addCount g (-1) } hno'

theorem family_exitBegin {pl : Place} (h : Sched.Family k.sched)
    (hno : ∀ i g, k.mux.locks p i = some g → ¬ k.owns p g) (he : k.exitBegin p = .ok (k', pl)) :
    (Sched.Family k'.sched ∧ k'.sched.initproc = k.sched.initproc) ∧ pl = .outside := by
  unfold exitBegin at he
  split at he
  · cases he
  next hi =>
  obtain ⟨v, -, he⟩ := of_bind he
  obtain ⟨s, hs, he⟩ := of_bind he
  have hpid : (s.proc p).pid = k.pid p := by
    have hkeep := ((calm.wakeParent k.sched p).trans (calm_abandon _ p)).keep.trans
      (frame_removeNode hs).keep
    exact (hkeep.entry p).pid
  obtain ⟨hsched, hpl⟩ := exitWalk_owns_none p (List.finRange MUX_MAXNUM)
    { k with vm := v, sched := s } fun i g hl ho => hno i g hl (by
      unfold owns pid at ho ⊢
      rw [ho]
      exact hpid)
  rw [Except.ok.inj he] at hsched hpl
  dsimp only at hsched hpl
  rw [hsched]
  refine ⟨⟨h.exit hi hs, ?_⟩, hpl⟩
  exact (frame_removeNode hs).initproc.trans
    ((abandon_initproc _ p).trans ((lullBy p).wakeParent k.sched p).initproc)

end Kernel

/-! ### Runs -/

namespace Fine

open Lib
variable {f f' : Fine} {op : FineOp}

/-- The invariant: the child of a `fork2` at work is neither its parent nor the first process, and
no `exit` has let go of the lock. -/
structure Inv (f : Fine) : Prop where
  family : Sched.Family f.kernel.sched
  fork : ∀ p np, (f.place p).Forking np → f.kernel.sched.initproc ≠ none ∧
    f.kernel.sched.initproc ≠ some np ∧ np ≠ p
  walk : ∀ p, ¬ (f.place p).Walking

/-- The condition on a section: a process that exits owns none of its mutexes. -/
def ExitOk (f : Fine) : FineOp → Prop
  | .exitBegin p => ∀ i g, f.kernel.mux.locks p i = some g → ¬ f.kernel.owns p g
  | _ => True

/-- Process `p` moves, and the first process stays who it is. -/
theorem Inv.put {k : Kernel} {p : Slot} {pl : Place} (h : Inv f) (hk : Sched.Family k.sched)
    (hi : k.sched.initproc = f.kernel.sched.initproc)
    (hf : ∀ np, pl.Forking np → f.kernel.sched.initproc ≠ none ∧
      f.kernel.sched.initproc ≠ some np ∧ np ≠ p) (hw : ¬ pl.Walking) : Inv (f.put p k pl) := by
  refine ⟨hk, fun q np hq => ?_, fun q => ?_⟩
  · show k.sched.initproc ≠ none ∧ k.sched.initproc ≠ some np ∧ np ≠ q
    rw [hi]
    dsimp only [Fine.put] at hq
    by_cases e : q = p
    · subst e; rw [update_self] at hq; exact hf np hq
    · rw [update_of_ne e] at hq; exact h.fork q np hq
  · dsimp only [Fine.put]
    by_cases e : q = p
    · subst e; rw [update_self]; exact hw
    · rw [update_of_ne e]; exact h.walk q

/-- **One section.** -/
theorem inv_step (h : Inv f) (hs : Step f op f') (hok : ExitOk f op) : Inv f' := by
  obtain ⟨he, hs⟩ := hs
  cases op with
  | call op =>
    obtain ⟨⟨r, k⟩, h₁, hs⟩ := of_bind hs
    cases hs
    obtain ⟨hf, hi⟩ := family_call h.family he.1 he.2 h₁
    refine ⟨hf, fun p np hp => ?_, h.walk⟩
    have hfork := h.fork p np hp
    rcases hi with hi | hi
    · show k.sched.initproc ≠ none ∧ k.sched.initproc ≠ some np ∧ np ≠ p
      rw [hi]
      exact hfork
    · exact absurd hi hfork.1
  | forkBegin p cid =>
    obtain ⟨⟨o, k⟩, h₁, hs⟩ := of_bind hs
    obtain ⟨hf, hi, hnp⟩ := family_allocSection h.family he.1.1 h₁
    cases o with
    | none =>
      cases hs
      refine ⟨hf, fun q np hq => ?_, h.walk⟩
      show k.sched.initproc ≠ none ∧ k.sched.initproc ≠ some np ∧ np ≠ q
      rw [hi]
      exact h.fork q np hq
    | some np =>
      cases hs
      refine h.put hf hi (fun m hm => ?_) fun hw => hw.elim
      obtain rfl : np = m := hm
      exact ⟨he.2.2, hnp np rfl⟩
  | forkBody p =>
    obtain ⟨hrun, np, cid, hpl⟩ := he
    simp only [step, hpl] at hs
    obtain ⟨⟨ok, k⟩, h₁, hs⟩ := of_bind hs
    cases hs
    obtain ⟨hb, hi, hne⟩ := h.fork p np (by rw [hpl]; rfl)
    obtain ⟨hf, hinit⟩ := family_forkBody h.family hrun hb hi hne h₁
    cases ok with
    | false => exact h.put hf hinit (fun _ hm => hm.elim) fun hw => hw.elim
    | true =>
      refine h.put hf hinit (fun m hm => ?_) fun hw => hw.elim
      obtain rfl : np = m := hm
      exact ⟨hb, hi, hne⟩
  | forkEnd p =>
    obtain ⟨hrun, np, hpl⟩ := he
    simp only [step, hpl] at hs
    cases hs
    obtain ⟨-, hi, -⟩ := h.fork p np (by rw [hpl]; rfl)
    have hf := h.family.upd (f := fun e => { e with state := .runnable }) hi (by simp) (.inl rfl)
    exact h.put hf rfl (fun _ hm => hm.elim) fun hw => hw.elim
  | exitBegin p =>
    obtain ⟨⟨k, pl⟩, h₁, hs⟩ := of_bind hs
    cases hs
    obtain ⟨⟨hf, hinit⟩, rfl⟩ := family_exitBegin h.family hok h₁
    exact h.put hf hinit (fun _ hm => hm.elim) fun hw => hw.elim
  | exitRelease p =>
    obtain ⟨-, i, is, hpl⟩ := he
    exact absurd (by rw [hpl]; trivial) (h.walk p)
  | exitEnd p =>
    obtain ⟨-, is, hpl⟩ := he
    exact absurd (by rw [hpl]; trivial) (h.walk p)

/-- **`wait` does not sleep past a zombie.**  In every run of sections from boot in which every
process that exits owns none of its mutexes, no process that sleeps in `wait` and is not killed has
a ZOMBIE child, in any state reached. -/
theorem noMissed_run {m : Kmem} {t : List (Fine × FineOp)}
    (hr : Run Step (quiet (Kernel.boot m)) t f) (hok : ∀ x ∈ t, ExitOk x.1 x.2) :
    (∀ x ∈ t, NoMissed x.1.kernel.sched) ∧ NoMissed f.kernel.sched := by
  have h₀ : Inv (quiet (boot m)) :=
    ⟨family_pinit, fun _ _ hp => hp.elim, fun _ hw => hw.elim⟩
  have hinv := hr.inv (I := Inv) (fun f op _ hi hs (hok : ExitOk f op) => inv_step hi hs hok) h₀ hok
  exact ⟨fun x hx => (hinv.1 x hx).family.missed, hinv.2.family.missed⟩

/-- The first process forks and waits; the child exits without a mutex, and nobody sleeps past
it. -/
theorem noMissed_fork : ∃ t f, Run Step (quiet (Kernel.boot Kernel.smallMem)) t f ∧
    (f.kernel.sched.proc 1).state = .zombie ∧ NoMissed f.kernel.sched := by
  let ops : List FineOp := [.call .allocFirst, .call (.userinit 0), .call .scheduler,
    .forkBegin 0 (-1), .forkBody 0, .forkEnd 0, .call .scheduler, .call (.wait 0), .exitBegin 1]
  obtain ⟨f, hr, hf⟩ := exists_run step_of_exec? (quiet (boot smallMem)) ops
    (fun f => (f.kernel.sched.proc 1).state = .zombie) (by decide +kernel)
  have hops : ∀ x ∈ traceFn exec? (quiet (boot smallMem)) ops, ∀ p, x.2 = .exitBegin p →
      ∀ i, x.1.kernel.mux.locks p i = none := by
    decide +kernel
  refine ⟨_, f, hr, hf, (noMissed_run hr fun x hx => ?_).2⟩
  obtain ⟨f₁, op⟩ := x
  cases op with
  | exitBegin p =>
    intro i g hg
    rw [hops _ hx p rfl i] at hg
    cases hg
  | call op => trivial
  | forkBegin p cid => trivial
  | forkBody p | forkEnd p | exitRelease p | exitEnd p => trivial

/-- **A lost wakeup.**  The child holds a mutex when it exits.  It wakes its parent and lets go of
the lock to release the mutex; the parent looks for a zombie, finds none and sleeps again; then
the child becomes a ZOMBIE. -/
theorem exit_loses_wakeup : ∃ t f, Run Step (quiet (Kernel.boot Kernel.smallMem)) t f ∧
    f.kernel.sched.InWait 0 ∧ (f.kernel.sched.proc 1).parent = some 0 ∧
    (f.kernel.sched.proc 1).state = .zombie := by
  obtain ⟨f, hr, hf⟩ := exists_run step_of_exec? (quiet (boot smallMem))
    [.call .allocFirst, .call (.userinit 0), .call .scheduler, .call (.mutexCreate 0 [97]),
      .forkBegin 0 (-1), .forkBody 0, .forkEnd 0, .call .scheduler, .call (.mutexLock 1 0),
      .call (.wait 0), .exitBegin 1, .call .scheduler, .call (.resume 0), .exitRelease 1,
      .exitEnd 1]
    (fun f => f.kernel.sched.InWait 0 ∧ (f.kernel.sched.proc 1).parent = some 0 ∧
      (f.kernel.sched.proc 1).state = .zombie) (by decide +kernel)
  exact ⟨_, f, hr, hf⟩

end Fine

end Xv6
