import Xv6.Kernel.CvHeld
import Xv6.Kernel.MuxSections

/-!
# Kernel — Around

What a step leaves of the processes that do not make it: `Sched.Aside` for the process table and
`Kernel.Around` for the kernel, both with the process, if there is one, whose context and handles
the step may change.  `Around.holds`: the others hold no mutex that they did not hold before.
-/

namespace Xv6

/-! ### Steps that create and free no process -/

namespace PEntry

/-- What a step may do to the entry of a process that it does not make: `Keep`, and a process that
is being made stays so. -/
structure Aside (e e' : PEntry) : Prop extends Keep e e' where
  embryo : e'.state = .embryo ↔ e.state = .embryo

theorem Aside.refl (e : PEntry) : Aside e e := ⟨.refl e, .rfl⟩

theorem Aside.trans {e e₁ e' : PEntry} (h₁ : Aside e e₁) (h₂ : Aside e₁ e') : Aside e e' :=
  ⟨h₁.toKeep.trans h₂.toKeep, h₂.embryo.trans h₁.embryo⟩

end PEntry

namespace Sched

variable {a : Option Slot} {s s₁ s' : Sched} {p : Slot}

/-- No process is created or freed, and only the context of `a` changes. -/
structure Aside (a : Option Slot) (s s' : Sched) : Prop where
  entry : ∀ q, (s.proc q).Aside (s'.proc q)
  nextpid : s'.nextpid = s.nextpid
  initproc : s'.initproc = s.initproc
  context : ∀ q, some q ≠ a → (s'.proc q).context = (s.proc q).context

namespace Aside

theorem refl (a : Option Slot) (s : Sched) : Aside a s s :=
  ⟨fun _ => .refl _, rfl, rfl, fun _ _ => rfl⟩

theorem trans (h₁ : Aside a s s₁) (h₂ : Aside a s₁ s') : Aside a s s' :=
  ⟨fun q => (h₁.entry q).trans (h₂.entry q), h₂.nextpid.trans h₁.nextpid,
    h₂.initproc.trans h₁.initproc, fun q hq => (h₂.context q hq).trans (h₁.context q hq)⟩

theorem keep (h : Aside a s s') : Keep s s' := ⟨fun q => (h.entry q).toKeep, h.nextpid⟩

theorem mono (h : Aside none s s') (a : Option Slot) : Aside a s s' :=
  ⟨h.entry, h.nextpid, h.initproc, fun q _ => h.context q (by simp)⟩

end Aside

theorem Frame.aside (h : Frame s s') : Aside none s s' :=
  ⟨fun q => ⟨h.keep.entry q, by rw [h.state q]⟩, h.nextpid, h.initproc, fun q _ => h.context q⟩

theorem aside (a : Option Slot) : Passive
    (fun i e e' => e.Aside e' ∧ (some i ≠ a → e'.context = e.context)) (Aside a) where
  trans := .trans
  entries h := ⟨fun q => (h q).1, rfl, rfl, fun q => (h q).2⟩
  same _ e := ⟨.refl e, fun _ => rfl⟩
  woken h := ⟨⟨keep.woken (i := 0) h, by simp [h]⟩, fun _ => rfl⟩
  killed _ _ := ⟨⟨⟨rfl, .rfl, .rfl, id⟩, .rfl⟩, fun _ => rfl⟩
  preempted h := ⟨⟨keep.preempted (i := 0) h, by simp [h]⟩, fun _ => rfl⟩
  dispatched h := ⟨⟨keep.dispatched (i := 0) h, by simp [h]⟩, fun _ => rfl⟩

theorem asideBy (p : Slot) : Active p (fun _ _ => True)
    (fun i e e' => e.Aside e' ∧ (some i ≠ some p → e'.context = e.context)) (Aside (some p)) where
  toPassive := aside (some p)
  returns _ := ⟨⟨⟨rfl, .rfl, .rfl, id⟩, .rfl⟩, fun h => absurd rfl h⟩
  asleep _ h := ⟨⟨(calmBy p).asleep trivial h |>.toKeep, by simp [h]⟩, fun h => absurd rfl h⟩

end Sched

namespace Kernel

open Sched (PidInv)

variable {a : Option Slot} {k k₁ k' : Kernel} {p q : Slot} {g : Mid}

/-- What a step of `a` leaves: the handles of the others, and the locks that `a` does not take or
free. -/
structure Around (a : Option Slot) (k k' : Kernel) : Prop where
  sched : Sched.Aside a k.sched k'.sched
  locks : ∀ q, some q ≠ a → k'.mux.locks q = k.mux.locks q
  slp : ∀ g, (k'.mux.mutexes g).slp.locked → (k'.mux.mutexes g).slp = (k.mux.mutexes g).slp ∨
    ∃ p ∈ a, (k'.mux.mutexes g).slp.pid = k.pid p

theorem Around.pid (h : Around a k k') (q : Slot) : k'.pid q = k.pid q := (h.sched.entry q).pid

theorem Around.live (h : Around a k k') (q : Slot) :
    (k'.sched.proc q).Live ↔ (k.sched.proc q).Live := (h.sched.entry q).live

/-- A step that changes no mutex. -/
theorem around_sched {s : Sched} (h : Sched.Aside a k.sched s) (hm : k'.mux = k.mux)
    (hs : k'.sched = s) : Around a k k' :=
  ⟨hs ▸ h, fun _ _ => by rw [hm], fun _ _ => .inl (by rw [hm])⟩

/-- A step that changes the mutexes. -/
theorem around_mux {m : Mux} (hl : ∀ q, some q ≠ a → m.locks q = k.mux.locks q)
    (hm : ∀ g, (m.mutexes g).slp.locked → (m.mutexes g).slp = (k.mux.mutexes g).slp) :
    Around a k (k.setMux m) :=
  ⟨.refl _ _, hl, fun g hg => .inl (hm g hg)⟩

theorem Around.refl (a : Option Slot) (k : Kernel) : Around a k k :=
  around_sched (.refl _ _) rfl rfl

theorem Around.mono (h : Around none k k') (a : Option Slot) : Around a k k' :=
  ⟨h.sched.mono a, fun q _ => h.locks q (by simp), fun g hg => .inl (by
    rcases h.slp g hg with e | ⟨p, hp, -⟩
    · exact e
    · cases hp)⟩

theorem around_releasesleep (k : Kernel) (g : Mid) : Around none k (k.releasesleep g) := by
  refine ⟨(Sched.aside none).wakeup1 _ _, fun _ _ => rfl, fun j hj => ?_⟩
  simp only [releasesleep, Mux.upd_mutexes] at hj ⊢
  split at hj
  · cases hj
  · next e => rw [if_neg e]; exact .inl rfl

theorem around_acquiresleep (hp : (k.sched.proc p).state = .running) :
    Around (some p) k (k.acquiresleep p g).2 := by
  unfold acquiresleep
  split
  · exact around_sched ((Sched.asideBy p).sleep trivial hp) rfl rfl
  refine ⟨(Sched.asideBy p).user _, fun _ _ => rfl, fun j _ => ?_⟩
  simp only [toUser, Mux.upd_mutexes]
  split
  · exact .inr ⟨p, rfl, rfl⟩
  · exact .inl rfl

theorem around_addCount (k : Kernel) (g : Mid) (d : Int) :
    Around none k { k with mux := k.mux.addCount g d } :=
  around_mux (fun _ _ => rfl) fun j _ => same_slp.addCount _ _ _ j

/-- The others hold the mutexes they held before. -/
theorem Around.holds (h : Around a k k') (hpid : PidInv k.sched) (hq : (k.sched.proc q).Live)
    (ha : some q ≠ a) (hh : k'.Holds q g) : k.Holds q g := by
  unfold Holds at hh ⊢
  rw [h.pid] at hh
  rcases h.slp g (by rw [hh]) with e | ⟨p, hp, e⟩
  · rw [← e]; exact hh
  · rw [hh] at e
    have : q = p := hpid.inj q p e (by have := hpid.pos q hq.1; omega)
    exact absurd (this ▸ hp.symm) ha

end Kernel

/-! ### Processes that are made -/

namespace Sched

variable {s s' : Sched} {i : Slot}

/-- The entry that `allocproc` marks, before it may enter a bucket. -/
theorem embryo_aside (h : s.embryo i = .ok s') :
    Aside none (s.newborn i) s' := (frame_embryo h).aside

theorem embryo_self (h : s.embryo i = .ok s') :
    (s'.proc i).state = .embryo ∧ (s'.proc i).pid = s.nextpid := by
  have ha := (embryo_aside h).entry i
  rw [newborn_self] at ha
  exact ⟨ha.embryo.mpr rfl, ha.pid⟩

theorem embryo_context (h : s.embryo i = .ok s') (q : Slot) :
    (s'.proc q).context = (s.proc q).context :=
  ((embryo_aside h).context q (by simp)).trans
    (upd_field PEntry.context (s := { s with nextpid := _ }) rfl q)

theorem embryo_entry (h : s.embryo i = .ok s') {q : Slot} (hq : q ≠ i) :
    (s.proc q).Aside (s'.proc q) := by
  have ha := (embryo_aside h).entry q
  rwa [newborn_ne hq] at ha

/-- What `fork2` does to the entry of its child without `ptable.lock`. -/
theorem childSetup_aside {p np : Slot} {cid : Int} (h : s.childSetup p np cid = .ok s') :
    Aside none (s.upd np fun e => { e with parent := some p }) s' := by
  have hf := (frame_enqueue h).aside
  refine ⟨fun q => ?_, hf.nextpid, hf.initproc, fun q hq => ?_⟩
  · have := hf.entry q
    by_cases e : q = np
    · subst e; rw [upd_proc_self] at this ⊢; exact ⟨⟨this.pid, this.unused, this.zombie, by simp⟩,
        this.embryo⟩
    · rwa [upd_proc_ne e] at this ⊢
  · rw [hf.context q hq, upd_field PEntry.context rfl q, upd_field PEntry.context rfl q]

end Sched

namespace Mux

variable {m m' : Mux} {p np q : Slot}

theorem copyLocks_ne (hq : q ≠ np) : ∀ (is : List (Fin MUX_MAXNUM)) (m : Mux),
    (copyLocks p np is m).locks q = m.locks q
  | [], _ => rfl
  | i :: is, m => by
    refine (copyLocks_ne hq is (copyLock p np m i)).trans ?_
    unfold copyLock
    dsimp only
    split
    · exact setLock_locks_ne hq
    · exact setLock_locks_ne hq

/-- `allocproc` writes the handles of the new process only. -/
theorem initLocks_ne {cur : Option Slot} {pid : Int} (h : m.initLocks cur np pid = .ok m')
    (hq : q ≠ np) : m'.locks q = m.locks q := by
  unfold initLocks at h
  split at h
  · cases h; exact Function.update_of_ne hq _ _
  · split at h
    · cases h
    · cases h; exact copyLocks_ne hq _ _

end Mux

namespace Mux

variable {m m' : Mux} {p : Slot} {g : Mid}

/-- `p` may get a handle, and no sleep lock changes. -/
structure Gives (p : Slot) (m m' : Mux) : Prop where
  others : ∀ q, q ≠ p → m'.locks q = m.locks q
  own : ∀ g i, m.locks p i = some g → m'.locks p i = some g
  slp : ∀ g, (m'.mutexes g).slp = (m.mutexes g).slp

/-- A free handle is used. -/
theorem gives_setLock {i : Fin MUX_MAXNUM} (hi : m.locks p i = none) :
    Gives p m (m.setLock p i (some g)) := by
  refine ⟨fun q hq => setLock_locks_ne hq, fun j l hl => ?_, fun _ => rfl⟩
  have e : l ≠ i := by rintro rfl; rw [hi] at hl; cases hl
  rw [setLock_locks_self, Function.update_of_ne e]
  exact hl

theorem gives_takeSlot {name : CStr} (h : m.takeSlot p name g = .ok m') : Gives p m m' := by
  obtain ⟨nm, -, h⟩ := of_bind h
  cases h
  have hupd : Gives p m (m.upd g fun e => { e with name := nm, count := e.count + 1 }) :=
    ⟨fun _ _ => rfl, fun _ _ h => h, Kernel.same_slp.upd rfl⟩
  unfold giveHandle
  split
  · exact hupd
  next i hi =>
  have hfree : m.locks p i = none := by
    have hfind := List.find?_some hi
    exact of_decide_eq_true hfind
  have hset := gives_setLock (g := g)
    (m := m.upd g fun e => { e with name := nm, count := e.count + 1 }) hfree
  exact ⟨hset.others, hset.own, fun j => (hset.slp j).trans (hupd.slp j)⟩

theorem gives_getLoop : ∀ is : List (Fin MUX_MAXNUM), Gives p m (getLoop m p g is).2
  | [] => ⟨fun _ _ => rfl, fun _ _ h => h, fun _ => rfl⟩
  | i :: is => by
    unfold getLoop
    split
    · exact ⟨fun _ _ => rfl, fun _ _ h => h, fun _ => rfl⟩
    · split
      · next hi => exact gives_setLock hi
      · exact gives_getLoop is

end Mux

end Xv6
