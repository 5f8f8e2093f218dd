import Xv6.Kernel.Around

/-!
# Kernel — Owners

Who owns the mutexes, over the steps of `MuxSections.lean`.

* `owners_alive`: every locked mutex is owned by a live process that has a handle to it, in every
  run in which `mutex_create` writes `pid = 0` only to a lock that is not locked, and `cv_wait` stays
  inside `waiting_procs`.
* `create_orphans_lock`: a lock that is taken between the two writes of `initsleeplock` stays locked
  with owner 0, and nobody can unlock it.
-/

namespace Xv6

open Lib Function List PEntry Sched

namespace Kernel

/-- Every locked mutex is owned by a live process that has a handle to it. -/
def OwnersAlive (k : Kernel) : Prop :=
  ∀ g, (k.mux.mutexes g).slp.locked → ∃ p, (k.sched.proc p).Live ∧
    (k.mux.mutexes g).slp.pid = k.pid p ∧ k.HandleTo p g

/-- A process that has exited, or a free slot, holds no mutex. -/
def DeadHoldNone (k : Kernel) : Prop := ∀ p, ¬ (k.sched.proc p).Live → ∀ g, ¬ k.Holds p g

end Kernel

namespace MuxFine

/-- The condition on a step of `p`: `initsleeplock` writes `pid = 0` to a lock that is not locked,
and `waiting_procs` has an element for the process that `cv_wait` marks. -/
def advanceOk (k : Kernel) (p : Slot) : MuxPlace → Prop
  | .unowned g => (k.mux.mutexes g).slp.locked = false
  | .mark _ _ => 0 ≤ k.pid p ∧ k.pid p < NPROC
  | _ => True

/-- The condition on a step. -/
def LockOk (f : MuxFine) : MuxOp → Prop
  | .next p => advanceOk f.kernel p (f.doing p)
  | _ => True

end MuxFine

/-! ### The invariant -/

/-- The handles that `exit` has not walked over. -/
def Place.left : Place → List (Fin MUX_MAXNUM)
  | .exit i is => i :: is
  | .exited is => is
  | .outside | .fork _ _ | .forked _ => List.finRange MUX_MAXNUM

namespace MuxFine

open Kernel
variable {f f' : MuxFine} {p q i : Slot} {g : Mid} {k : Kernel}

/-- What holds of a process `p`.  It has a handle to every mutex it holds or waits for; a handle
that `mutex_delete` is about to drop is not to a mutex that it holds. -/
structure OwnInv (f : MuxFine) (p : Slot) : Prop where
  sleeper : ∀ g, (f.kernel.sched.proc p).context = .acquiresleep g → f.kernel.HandleTo p g
  handles : (f.kernel.sched.proc p).Live → ∀ g, f.kernel.Holds p g →
    ∃ i ∈ (f.fine.place p).left, f.kernel.mux.locks p i = some g
  release : ∀ g i, f.doing p = .release g (.drop i) → f.kernel.mux.locks p i = some g
  drop : ∀ i g, f.doing p = .drop i g → ∀ j, f.kernel.mux.locks p i = some j → ¬ f.kernel.Holds p j
  user : f.doing p ≠ .outside → (f.kernel.sched.proc p).context = .user ∧
    f.fine.place p = .outside ∧ (f.kernel.sched.proc p).Live ∧
    (f.kernel.sched.proc p).state ≠ .embryo

/-- The processes that `fork2` is making. -/
structure ForkInv (f : Fine) : Prop where
  init : ∀ p np, (f.place p).Forking np → f.kernel.sched.initproc ≠ none
  embryo : ∀ p np, (f.place p).Forking np → (f.kernel.sched.proc np).state = .embryo
  parent : ∀ p np cid, f.place p = .fork np cid → (f.kernel.sched.proc np).parent = none
  inj : ∀ p q np, (f.place p).Forking np → (f.place q).Forking np → p = q

/-- The invariant. -/
structure Inv (f : MuxFine) : Prop where
  pids : PidInv f.kernel.sched
  owner : ∀ g, (f.kernel.mux.mutexes g).slp.locked → ∃ p, (f.kernel.sched.proc p).Live ∧
    (f.kernel.mux.mutexes g).slp.pid = f.kernel.pid p
  embryo : ∀ p, (f.kernel.sched.proc p).state = .embryo → ∀ g, ¬ f.kernel.Holds p g
  forks : ForkInv f.fine
  own : ∀ p, OwnInv f p

/-- A process whose handles, context and step stay, and that holds no more than before. -/
theorem OwnInv.keep (h : OwnInv f q) (ha : (f.kernel.sched.proc q).Aside (f'.kernel.sched.proc q))
    (hctx : (f'.kernel.sched.proc q).context = (f.kernel.sched.proc q).context)
    (hlocks : f'.kernel.mux.locks q = f.kernel.mux.locks q)
    (hholds : (f.kernel.sched.proc q).Live → ∀ g, f'.kernel.Holds q g → f.kernel.Holds q g)
    (hdo : f'.doing q = f.doing q) (hpl : f'.fine.place q = f.fine.place q ∨
      (f.doing q = .outside ∧ (f'.fine.place q).left = (f.fine.place q).left)) : OwnInv f' q := by
  refine ⟨fun g hg => ?_, fun hl g hg => ?_, fun g i hg => ?_, fun i g hg j hj hh => ?_,
    fun hd => ?_⟩
  · obtain ⟨i, hi⟩ := h.sleeper g (hctx ▸ hg)
    exact ⟨i, by rw [hlocks]; exact hi⟩
  · have hleft : (f'.fine.place q).left = (f.fine.place q).left :=
      hpl.elim (fun h => by rw [h]) fun h => h.2
    have hl' := ha.live.mp hl
    rw [hleft, hlocks]
    exact h.handles hl' g (hholds hl' g hg)
  · rw [hlocks]; exact h.release g i (hdo ▸ hg)
  · rw [hdo] at hg
    have hl := (h.user (by rw [hg]; simp)).2.2.1
    exact h.drop i g hg j (hlocks ▸ hj) (hholds hl j hh)
  · rw [hdo] at hd
    obtain ⟨hc, hp, hl, hs⟩ := h.user hd
    have hsame := hpl.resolve_right fun h => hd h.1
    exact ⟨hctx.trans hc, hsame.trans hp, ha.live.mpr hl, fun e => hs (ha.embryo.mp e)⟩

/-- No `fork2` begins, and the children of those that go on stay as they are. -/
theorem ForkInv.keep {f f' : Fine} (h : ForkInv f)
    (hinit : f.kernel.sched.initproc ≠ none → f'.kernel.sched.initproc ≠ none)
    (hpl : ∀ p np, (f'.place p).Forking np → f'.place p = f.place p ∧
      (f.kernel.sched.proc np).Aside (f'.kernel.sched.proc np)) : ForkInv f' := by
  have hf : ∀ p np, (f'.place p).Forking np → (f.place p).Forking np := fun p np hp => by
    rw [← (hpl p np hp).1]; exact hp
  refine ⟨fun p np hp => ?_, fun p np hp => ?_, fun p np cid hp => ?_, fun p q np hp hq => ?_⟩
  · exact hinit (h.init p np (hf p np hp))
  · exact (hpl p np hp).2.embryo.mpr (h.embryo p np (hf p np hp))
  · obtain ⟨e, ha⟩ := hpl p np (by rw [hp]; rfl)
    exact ha.parent (h.parent p np cid (e ▸ hp))
  · exact h.inj p q np (hf p np hp) (hf q np hq)

/-- A process that is made is not one that is in use. -/
theorem ForkInv.ne {f : Fine} {np : Slot} {st : ProcState} (h : ForkInv f)
    (hp : (f.place p).Forking np) (hi : (f.kernel.sched.proc i).state = st)
    (hst : st ≠ .embryo := by simp) : np ≠ i := by
  rintro rfl
  exact hst (hi.symm.trans (h.embryo p np hp))

/-- **A step of `a`** that creates and frees no process. -/
theorem Inv.around {a : Option Slot} (h : Inv f) (ha : Around a f.kernel f'.kernel)
    (hrun : ∀ p ∈ a, (f.kernel.sched.proc p).state = .running)
    (hpl : ∀ q, some q ≠ a → f'.fine.place q = f.fine.place q)
    (hdo : ∀ q, some q ≠ a → f'.doing q = f.doing q)
    (hfork : ∀ p ∈ a, ∀ np, (f'.fine.place p).Forking np → f'.fine.place p = f.fine.place p)
    (hown : ∀ p ∈ a, OwnInv f' p) : Inv f' := by
  refine ⟨h.pids.keep ha.sched.keep, fun g hg => ?_, fun q hq g hg => ?_, ?_, fun q => ?_⟩
  · rcases ha.slp g hg with e | ⟨p, hp, e⟩
    · rw [e] at hg ⊢
      obtain ⟨p, hl, hp⟩ := h.owner g hg
      exact ⟨p, (ha.live p).mpr hl, by rw [ha.pid]; exact hp⟩
    · exact ⟨p, (ha.live p).mpr (by simp [PEntry.Live, hrun p hp]), by rw [ha.pid]; exact e⟩
  · have he := (ha.sched.entry q).embryo.mp hq
    have hne : some q ≠ a := fun e => by rw [hrun q e.symm] at he; cases he
    exact h.embryo q he g (ha.holds h.pids (by simp [PEntry.Live, he]) hne hg)
  · refine h.forks.keep (fun hi => ha.sched.initproc ▸ hi) fun p np hp => ⟨?_, ha.sched.entry np⟩
    by_cases e : some p = a
    · exact hfork p e.symm np hp
    · exact hpl p e
  · by_cases e : some q = a
    · exact hown q e.symm
    · exact (h.own q).keep (ha.sched.entry q) (ha.sched.context q e) (ha.locks q e)
        (fun hl g => ha.holds h.pids hl e) (hdo q e) (.inl (hpl q e))

/-- A step without a process, or one that leaves the context and the handles of its process. -/
theorem Inv.silent (h : Inv f) (ha : Around none f.kernel k) : Inv (f.setKernel k) :=
  h.around ha (fun _ hp => by cases hp) (fun _ _ => rfl) (fun _ _ => rfl)
    (fun _ hp => by cases hp) fun _ hp => by cases hp

/-- The clauses of a process that runs a mutex function, or returns from one, in the kernel `k`. -/
structure Ready (k : Kernel) (p : Slot) (pl : MuxPlace) : Prop where
  sleeper : ∀ g, (k.sched.proc p).context = .acquiresleep g → k.HandleTo p g
  handles : ∀ g, k.Holds p g → k.HandleTo p g
  release : ∀ g i, pl = .release g (.drop i) → k.mux.locks p i = some g
  drop : ∀ i g, pl = .drop i g → ∀ j, k.mux.locks p i = some j → ¬ k.Holds p j
  user : pl ≠ .outside → (k.sched.proc p).context = .user

theorem Ready.outside (hs : ∀ g, (k.sched.proc p).context = .acquiresleep g → k.HandleTo p g)
    (hh : ∀ g, k.Holds p g → k.HandleTo p g) : Ready k p .outside :=
  ⟨hs, hh, fun _ _ e => (by cases e), fun _ _ e => (by cases e), fun e => absurd rfl e⟩

/-- **A step of a process in a mutex function.** -/
theorem Inv.put {pl : MuxPlace} (h : Inv f) (ha : Around (some p) f.kernel k)
    (hrun : (f.kernel.sched.proc p).state = .running) (hp : f.fine.place p = .outside)
    (hr : Ready k p pl) : Inv (f.put p k pl) := by
  refine h.around (a := some p) ha (fun q hq => by cases hq; exact hrun) (fun _ _ => rfl)
    (fun q hq => update_of_ne (fun e => hq (congrArg some e)) _ _)
    (fun _ _ _ _ => rfl) fun q hq => ?_
  cases hq
  have hd : (f.put p k pl).doing p = pl := update_self ..
  refine ⟨hr.sleeper, fun _ g hg => ?_, fun g i hg => hr.release g i (hd ▸ hg),
    fun i g hg => hr.drop i g (hd ▸ hg), fun hne => ?_⟩
  · obtain ⟨i, hi⟩ := hr.handles g hg
    show ∃ i ∈ (f.fine.place p).left, _
    rw [hp]
    exact ⟨i, mem_finRange i, hi⟩
  · have hl := (ha.sched.entry p).embryo
    exact ⟨hr.user (hd ▸ hne), hp, (ha.live p).mpr (by simp [PEntry.Live, hrun]),
      fun e => by have := hl.mp e; rw [hrun] at this; cases this⟩

/-! ### Processes that come and go -/

/-- **A process that holds nothing comes or goes** in slot `i`. -/
theorem Inv.slot {place : Slot → Place} (h : Inv f) (hpid : PidInv k.sched)
    (ha : ∀ q, q ≠ i → (f.kernel.sched.proc q).Aside (k.sched.proc q))
    (hc : ∀ q, q ≠ i → (k.sched.proc q).context = (f.kernel.sched.proc q).context)
    (hlocks : ∀ q, q ≠ i → k.mux.locks q = f.kernel.mux.locks q)
    (hslp : ∀ g, (k.mux.mutexes g).slp = (f.kernel.mux.mutexes g).slp)
    (hold : (f.kernel.sched.proc i).Live → ∀ g, ¬ f.kernel.Holds i g) (hnew : ∀ g, ¬ k.Holds i g)
    (hctx : ∀ g, (k.sched.proc i).context = .acquiresleep g → k.HandleTo i g)
    (hi : f.doing i = .outside) (hpl : ∀ q, q ≠ i → place q = f.fine.place q ∨
      (f.doing q = .outside ∧ (place q).left = (f.fine.place q).left)) (hforks : ForkInv ⟨k, place⟩) :
    Inv ⟨⟨k, place⟩, f.doing⟩ := by
  have hholds : ∀ q g, q ≠ i → k.Holds q g → f.kernel.Holds q g := fun q g hq hh => by
    unfold Holds Kernel.pid at hh ⊢
    rwa [hslp, (ha q hq).pid] at hh
  refine ⟨hpid, fun g hg => ?_, fun q hq g hg => ?_, hforks, fun q => ?_⟩
  · rw [hslp] at hg ⊢
    obtain ⟨p, hl, hp⟩ := h.owner g hg
    have hne : p ≠ i := by
      rintro rfl
      refine hold hl g ?_
      unfold Holds
      rw [← hp, ← hg]
    exact ⟨p, (ha p hne).live.mpr hl, by unfold Kernel.pid; rw [(ha p hne).pid]; exact hp⟩
  · by_cases e : q = i
    · exact hnew g (e ▸ hg)
    · exact h.embryo q ((ha q e).embryo.mp hq) g (hholds q g e hg)
  · by_cases e : q = i
    · subst e
      refine ⟨hctx, fun _ g hg => absurd hg (hnew g), fun g i hg => ?_, fun i g hg => ?_,
        fun hg => absurd hi hg⟩ <;>
      · dsimp only at hg; rw [hi] at hg; cases hg
    · exact (h.own q).keep (ha q e) (hc q e) (hlocks q e) (fun _ g => hholds q g e) rfl (hpl q e)

/-- A process that is not live, or is being made, is in no mutex function. -/
theorem Inv.outside (h : Inv f) (hp : ¬ (f.kernel.sched.proc p).Live ∨
    (f.kernel.sched.proc p).state = .embryo) : f.doing p = .outside := by
  by_contra hd
  obtain ⟨-, -, hl, hs⟩ := (h.own p).user hd
  exact hp.elim (fun hn => hn hl) hs

/-- The owner of a locked mutex has a pid that has been given. -/
theorem Inv.not_fresh (h : Inv f) (hg : (f.kernel.mux.mutexes g).slp.locked) :
    0 < (f.kernel.mux.mutexes g).slp.pid ∧
      (f.kernel.mux.mutexes g).slp.pid < f.kernel.sched.nextpid := by
  obtain ⟨p, hl, hp⟩ := h.owner g hg
  rw [hp]
  exact ⟨h.pids.pos p hl.1, (h.pids.bound p).2⟩

/-- Nobody holds a mutex under the pid that `allocproc` gives next, or under the pid 0. -/
theorem Inv.fresh_holds (h : Inv f)
    (hslp : ∀ g, (k.mux.mutexes g).slp = (f.kernel.mux.mutexes g).slp)
    (hp : k.pid p = f.kernel.sched.nextpid ∨ k.pid p = 0) (g : Mid) : ¬ k.Holds p g := by
  intro hh
  unfold Holds at hh
  rw [hslp] at hh
  have := h.not_fresh (g := g) (by rw [hh])
  rw [hh] at this
  dsimp only at this
  omega

end MuxFine

namespace MuxFine

open Kernel
variable {f : MuxFine} {p q i np : Slot} {g : Mid} {k : Kernel} {r : Option Int}
  {u : PEntry → PEntry} {pl : Place} {cid : Int} {is : List (Fin MUX_MAXNUM)}

/-- Another place of `fork2` or `exit`. -/
def move (f : MuxFine) (p : Slot) (k : Kernel) (pl : Place) : MuxFine :=
  { f with fine := f.fine.put p k pl }

/-- A free slot is taken by the first `allocproc`. -/
theorem inv_allocFirst {r : Option Slot} (h : Inv f)
    (ha : f.kernel.allocproc none (-1) = .ok (r, k)) : Inv (f.setKernel k) := by
  rcases allocproc_cases ha with ⟨-, rfl⟩ | ⟨i, s, hst, he, hrest⟩
  · exact h
  have hslp : ∀ g, (k.mux.mutexes g).slp = (f.kernel.mux.mutexes g).slp := by
    rcases hrest with ⟨-, -, hm, -⟩ | ⟨-, -, hm, -⟩
    · intro g; rw [hm]
    · exact same_slp.initLocks hm
  have hentry : ∀ q, q ≠ i → k.sched.proc q = s.proc q := fun q hq => by
    rcases hrest with ⟨-, -, -, hs⟩ | ⟨-, -, -, hs⟩ <;> rw [hs, upd_proc_ne hq]
  have hpid : k.pid i = f.kernel.sched.nextpid := by
    unfold Kernel.pid
    rcases hrest with ⟨-, -, -, hs⟩ | ⟨-, -, -, hs⟩ <;> rw [hs, upd_proc_self] <;>
      exact (embryo_self he).2
  have hnl := not_live_of_unused hst
  have hent : ∀ q, q ≠ i → (f.kernel.sched.proc q).Aside (k.sched.proc q) := fun q hq => by
    rw [hentry q hq]; exact embryo_entry he hq
  refine h.slot (i := i) (pidInv_alloc h.pids ha).1 hent (fun q hq => ?_)
    (fun q hq => ?_) hslp (fun hl => absurd hl hnl) (h.fresh_holds hslp (.inl hpid))
    (fun g hg => ?_) (h.outside (.inl hnl)) (fun _ _ => .inl rfl)
    (h.forks.keep ?_ fun p np hp => ⟨rfl, hent np (h.forks.ne hp hst)⟩)
  · rw [hentry q hq]; exact embryo_context he q
  · rcases hrest with ⟨-, -, hm, -⟩ | ⟨-, -, hm, -⟩
    · rw [hm]
    · exact Mux.initLocks_ne hm hq
  · -- the slot keeps its old context and handles, or starts in user space
    rcases hrest with ⟨-, -, hm, hs⟩ | ⟨-, -, hm, hs⟩
    · rw [hs, upd_proc_self] at hg
      obtain ⟨j, hj⟩ := (h.own i).sleeper g ((embryo_context he i).symm.trans hg)
      exact ⟨j, by rw [hm]; exact hj⟩
    · rw [hs, upd_proc_self] at hg
      cases hg
  · intro hi
    have hs : k.sched.initproc = s.initproc := by
      rcases hrest with ⟨-, -, -, hs⟩ | ⟨-, -, -, hs⟩ <;> rw [hs] <;> rfl
    rw [hs, (embryo_aside he).initproc]
    exact hi

/-- The entry of slot `i`, which holds nothing before or after, changes. -/
theorem Inv.upd {place : Slot → Place} (h : Inv f) (hpid : PidInv k.sched)
    (hs : ∀ q, ((f.kernel.sched.upd i u).proc q).Aside (k.sched.proc q))
    (hc : ∀ q, (k.sched.proc q).context = ((f.kernel.sched.upd i u).proc q).context)
    (hlocks : ∀ q, q ≠ i → k.mux.locks q = f.kernel.mux.locks q)
    (hslp : ∀ g, (k.mux.mutexes g).slp = (f.kernel.mux.mutexes g).slp)
    (hold : (f.kernel.sched.proc i).Live → ∀ g, ¬ f.kernel.Holds i g) (hnew : ∀ g, ¬ k.Holds i g)
    (hctx : ∀ g, (u (f.kernel.sched.proc i)).context = .acquiresleep g → k.HandleTo i g)
    (hi : f.doing i = .outside) (hpl : ∀ q, q ≠ i → place q = f.fine.place q ∨
      (f.doing q = .outside ∧ (place q).left = (f.fine.place q).left)) (hforks : ForkInv ⟨k, place⟩) :
    Inv ⟨⟨k, place⟩, f.doing⟩ := by
  refine h.slot hpid (fun q hq => ?_) (fun q hq => ?_) hlocks hslp hold hnew (fun g hg => ?_) hi
    hpl hforks
  · have := hs q
    rwa [upd_proc_ne hq] at this
  · rw [hc q, upd_proc_ne hq]
  · rw [hc i, upd_proc_self] at hg
    exact hctx g hg

/-- Under the same pid, slot `i` holds no other mutex. -/
theorem holds_same {k' : Kernel} (h : k'.Holds i g) (hpid : k'.pid i = k.pid i)
    (hslp : (k'.mux.mutexes g).slp = (k.mux.mutexes g).slp) : k.Holds i g := by
  unfold Holds at h ⊢
  rwa [hpid, hslp] at h

/-- The first process becomes RUNNABLE. -/
theorem inv_userinit (h : Inv f) (hp : (f.kernel.sched.proc p).state = .embryo)
    (hi : f.kernel.sched.initproc = none) (hu : f.kernel.userinit p = .ok k) :
    Inv (f.setKernel k) := by
  have hpid := h.pids.keep (userinit_cases hp hu).1.keep
  obtain ⟨v, -, hu⟩ := of_bind hu
  cases hu
  have hnone : ∀ q np, ¬ (f.fine.place q).Forking np := fun q np hq => h.forks.init q np hq hi
  refine h.upd (i := p) (u := fun e => { e with cid := -1, state := .runnable }) hpid
    (fun _ => .refl _) (fun _ => rfl) (fun _ _ => rfl) (fun _ => rfl) (fun _ => h.embryo p hp)
    (fun g hg => ?_) (fun g hg => (h.own p).sleeper g hg) (h.outside (.inr hp))
    (fun _ _ => .inl rfl) ?_
  · exact h.embryo p hp g (holds_same hg (by simp [Kernel.pid]) rfl)
  · refine ⟨fun q np hq => absurd hq (hnone q np), fun q np hq => absurd hq (hnone q np),
      fun q np cid hq => ?_, fun q _ np hq => absurd hq (hnone q np)⟩
    exact absurd (by rw [show f.fine.place q = _ from hq]; rfl) (hnone q np)

/-- `wait` frees the slot of a zombie. -/
theorem inv_reap (h : Inv f) (hq : (f.kernel.sched.proc q).state = .zombie)
    (hs : k.sched = f.kernel.sched.upd q reaped) (hm : k.mux = f.kernel.mux) :
    Inv (f.setKernel k) := by
  have hnl : ¬ (f.kernel.sched.proc q).Live := fun hl => hl.2 hq
  have hslp : ∀ g, (k.mux.mutexes g).slp = (f.kernel.mux.mutexes g).slp := fun g => by rw [hm]
  have hpid : k.pid q = 0 := by rw [Kernel.pid, hs, upd_proc_self]; rfl
  have hent : ∀ j, j ≠ q → (f.kernel.sched.proc j).Aside (k.sched.proc j) := fun j hj => by
    rw [hs, upd_proc_ne hj]; exact .refl _
  refine h.upd (i := q) (u := reaped) (hs ▸ h.pids.reaped) (fun j => hs ▸ .refl _)
    (fun j => by rw [hs]) (fun _ _ => by rw [hm]) hslp (fun hl => absurd hl hnl)
    (h.fresh_holds hslp (.inr hpid)) (fun g hg => ?_) (h.outside (.inl hnl)) (fun _ _ => .inl rfl)
    (h.forks.keep (fun hi => by rw [hs]; exact hi) fun p np hp =>
      ⟨rfl, hent np (h.forks.ne hp hq)⟩)
  obtain ⟨j, hj⟩ := (h.own q).sleeper g hg
  exact ⟨j, by rw [hm]; exact hj⟩

/-- `p` goes on to `pl`, where it makes at most `np`, which no other process makes. -/
theorem ForkInv.move {f : Fine} (h : ForkInv f) (hinit : k.sched.initproc ≠ none)
    (hent : ∀ q, q ≠ np → (f.kernel.sched.proc q).Aside (k.sched.proc q))
    (hother : ∀ q m, q ≠ p → (f.place q).Forking m → m ≠ np)
    (hpl : ∀ m, pl.Forking m → m = np ∧ (k.sched.proc np).state = .embryo)
    (hpar : ∀ m cid, pl = .fork m cid → (k.sched.proc m).parent = none) :
    ForkInv ⟨k, update f.place p pl⟩ := by
  have hplace : ∀ q m, (update f.place p pl q).Forking m →
      (q = p ∧ m = np ∧ (k.sched.proc np).state = .embryo) ∨ (m ≠ np ∧ (f.place q).Forking m) := by
    intro q m hq
    by_cases e : q = p
    · subst e
      rw [update_self] at hq
      exact .inl ⟨rfl, hpl m hq⟩
    · rw [update_of_ne e] at hq
      exact .inr ⟨hother q m e hq, hq⟩
  refine ⟨fun _ _ _ => hinit, fun q m hq => ?_, fun q m cid hq => ?_, fun q q' m hq hq' => ?_⟩
  · rcases hplace q m hq with ⟨-, rfl, hst⟩ | ⟨hm, hq⟩
    · exact hst
    · exact (hent m hm).embryo.mpr (h.embryo q m hq)
  · dsimp only at hq
    by_cases e : q = p
    · subst e
      rw [update_self] at hq
      exact hpar m cid hq
    · rw [update_of_ne e] at hq
      exact (hent m (hother q m e (by rw [hq]; rfl))).parent (h.parent q m cid hq)
  · rcases hplace q m hq with ⟨rfl, rfl, -⟩ | ⟨hm, hq⟩ <;>
      rcases hplace q' m hq' with ⟨rfl, e, -⟩ | ⟨hm', hq'⟩
    · rfl
    · exact absurd rfl hm'
    · exact absurd e hm
    · exact h.inj q q' m hq hq'

/-- `fork2` marks a slot for its child. -/
theorem inv_forkBegin {o : Option Slot} (h : Inv f)
    (hrun : (f.kernel.sched.proc p).state = .running) (hp : f.doing p = .outside)
    (hpl : f.fine.place p = .outside) (hinit : f.kernel.sched.initproc ≠ none)
    (ha : f.kernel.allocSection cid = .ok (o, k)) :
    match o with
    | none => Inv (f.setKernel k)
    | some np => Inv (f.move p k (.fork np cid)) := by
  unfold allocSection at ha
  split at ha
  · cases ha; exact h
  next i hi =>
  have hst : (f.kernel.sched.proc i).state = .unused := by simpa using find?_some hi
  obtain ⟨⟨r, con⟩, -, ha⟩ := of_bind ha
  dsimp only at ha
  split at ha
  · cases ha; exact h
  obtain ⟨s, hs, ha⟩ := of_bind ha
  cases ha
  have hnl := not_live_of_unused hst
  have hne : p ≠ i := by rintro rfl; rw [hrun] at hst; cases hst
  refine h.slot (i := i) (h.pids.embryo hs) (fun q hq => embryo_entry hs hq)
    (fun q _ => embryo_context hs q) (fun _ _ => rfl) (fun _ => rfl) (fun hl => absurd hl hnl)
    (h.fresh_holds (fun _ => rfl) (.inl (embryo_self hs).2)) (fun g hg => ?_)
    (h.outside (.inl hnl)) (fun q _ => ?_) ?_
  · exact (h.own i).sleeper g ((embryo_context hs i).symm.trans hg)
  · by_cases e : q = p
    · subst e
      rw [update_self, hpl]
      exact .inr ⟨hp, rfl⟩
    · exact .inl (update_of_ne e _ _)
  · -- the new child is in no other `fork2`
    refine h.forks.move ?_ (fun np => embryo_entry hs) (fun q m _ hq => h.forks.ne hq hst)
      (fun m hm => ⟨hm.symm, (embryo_self hs).1⟩) fun m c e => ?_
    · show s.initproc ≠ none
      rw [(embryo_aside hs).initproc]
      exact hinit
    · cases e
      exact h.pids.embryo_parent hst hs

/-- The child `np` of a `fork2` changes; the `fork2` goes on to `pl`. -/
theorem inv_child (h : Inv f) (hp : (f.fine.place p).Forking np) (hpid : PidInv k.sched)
    (hs : Sched.Aside none (f.kernel.sched.upd np u) k.sched)
    (hu : (u (f.kernel.sched.proc np)).pid = (f.kernel.sched.proc np).pid)
    (hlocks : ∀ q, q ≠ np → k.mux.locks q = f.kernel.mux.locks q)
    (hslp : ∀ g, (k.mux.mutexes g).slp = (f.kernel.mux.mutexes g).slp)
    (hctx : ∀ g, (u (f.kernel.sched.proc np)).context = .acquiresleep g → k.HandleTo np g)
    (hpl : pl = .outside ∨ pl = .forked np ∧ (u (f.kernel.sched.proc np)).state = .embryo) :
    Inv (f.move p k pl) := by
  have hst := h.forks.embryo p np hp
  have hdp : f.doing p = .outside := by
    by_contra hd
    rw [((h.own p).user hd).2.1] at hp
    exact hp
  have hent : ∀ q, q ≠ np → (f.kernel.sched.proc q).Aside (k.sched.proc q) := fun q hq => by
    have := hs.entry q
    rwa [upd_proc_ne hq] at this
  have hself : (u (f.kernel.sched.proc np)).Aside (k.sched.proc np) := by
    have := hs.entry np
    rwa [upd_proc_self] at this
  have hleft : pl.left = (f.fine.place p).left := by
    have hl : pl.left = finRange MUX_MAXNUM := by
      rcases hpl with rfl | ⟨rfl, -⟩ <;> rfl
    rw [hl]
    cases hf : f.fine.place p with
    | fork m cid => rfl
    | forked m => rfl
    | outside => rfl
    | exit | exited => rw [hf] at hp; exact hp.elim
  refine h.upd (i := np) hpid hs.entry (fun q => hs.context q (by simp)) hlocks hslp
    (fun _ => h.embryo np hst) (fun g hg => h.embryo np hst g (holds_same hg ?_ (hslp g))) hctx
    (h.outside (.inr hst)) (fun q _ => ?_)
    (h.forks.move ?_ hent (fun q m e hq => ?_) (fun m hm => ?_) fun m cid e => ?_)
  · exact hself.pid.trans hu
  · by_cases e : q = p
    · subst e
      rw [update_self]
      exact .inr ⟨hdp, hleft⟩
    · exact .inl (update_of_ne e _ _)
  · rw [hs.initproc]
    exact h.forks.init p np hp
  · rintro rfl
    exact e (h.forks.inj q p m hq hp)
  · rcases hpl with rfl | ⟨rfl, hst⟩
    · exact hm.elim
    · exact ⟨(show np = m from hm).symm, hself.embryo.mpr hst⟩
  · rcases hpl with rfl | ⟨rfl, -⟩ <;> cases e

/-- The part of `fork2` without `ptable.lock`. -/
theorem inv_forkBody {ok : Bool} (h : Inv f) (hp : f.fine.place p = .fork np cid)
    (hb : f.kernel.forkBody p np cid = .ok (ok, k)) :
    Inv (f.move p k (if ok then .forked np else .outside)) := by
  have hf : (f.fine.place p).Forking np := by rw [hp]; rfl
  have hpar := h.forks.parent p np cid hp
  have hst := h.forks.embryo p np hf
  unfold forkBody at hb
  split at hb
  · cases hb
    exact inv_child (u := free) h hf
      (h.pids.upd rfl (fun h => absurd rfl h) fun _ => hpar) (.refl _ _) rfl (fun _ _ => rfl)
      (fun _ => rfl) (fun g hg => (h.own np).sleeper g hg) (.inl rfl)
  obtain ⟨m, hm, hb⟩ := of_bind hb
  obtain ⟨⟨c, vm⟩, -, hb⟩ := of_bind hb
  have hpid₁ := h.pids.keep ((asideBy np).user f.kernel.sched).keep
  cases c with
  | false =>
    obtain ⟨vm₂, -, hb⟩ := of_bind hb
    cases hb
    refine inv_child (u := fun e => { e with context := .user, state := .unused }) h hf
      (hpid₁.upd rfl (fun h => absurd rfl h) fun _ => by simp [free, hpar]) ?_ rfl
      (fun _ hq => Mux.initLocks_ne hm hq) (same_slp.initLocks hm) (fun g hg => by cases hg)
      (.inl rfl)
    have e : (f.kernel.sched.upd np fun e => { e with context := .user }).upd np free =
        f.kernel.sched.upd np fun e => { e with context := .user, state := .unused } := by
      simp [Sched.upd, free]
    rw [e]
    exact .refl _ _
  | true =>
    obtain ⟨s, hs, hb⟩ := of_bind hb
    cases hb
    have ha := childSetup_aside hs
    have e : (f.kernel.sched.upd np fun e => { e with context := .user }).upd np
        (fun e => { e with parent := some p }) =
        f.kernel.sched.upd np fun e => { e with context := .user, parent := some p } := by
      simp [Sched.upd]
    rw [e] at ha
    have hpos : (f.kernel.sched.proc np).state ≠ .unused := by simp [hst]
    have hpid₂ : PidInv (f.kernel.sched.upd np fun e =>
        { e with context := .user, parent := some p }) :=
      h.pids.upd rfl (fun _ => h.pids.pos np hpos) fun hun => absurd hun hpos
    exact inv_child (u := fun e => { e with context := .user, parent := some p }) h hf
      (hpid₂.keep ha.keep) ha rfl (fun _ hq => Mux.initLocks_ne hm hq) (same_slp.initLocks hm)
      (fun g hg => by cases hg) (.inr ⟨rfl, hst⟩)

/-- The child of `fork2` becomes RUNNABLE. -/
theorem inv_forkEnd (h : Inv f) (hp : f.fine.place p = .forked np) :
    Inv (f.move p (f.kernel.forkEnd np) .outside) := by
  have hf : (f.fine.place p).Forking np := by rw [hp]; rfl
  have hst := h.forks.embryo p np hf
  have hpid : PidInv (f.kernel.sched.upd np fun e => { e with state := .runnable }) :=
    h.pids.upd rfl (fun _ => h.pids.pos np (by simp [hst])) (by simp)
  exact inv_child (u := fun e => { e with state := .runnable }) h hf hpid (.refl _ _) rfl
    (fun _ _ => rfl) (fun _ => rfl) (fun g hg => (h.own np).sleeper g hg) (.inl rfl)

/-! ### The sections of `exit` -/

/-- `p` has a handle among `is` to every mutex it holds. -/
def Covers (k : Kernel) (p : Slot) (is : List (Fin MUX_MAXNUM)) : Prop :=
  ∀ g, k.Holds p g → ∃ i ∈ is, k.mux.locks p i = some g

/-- `p`, which is in `exit`, moves on. -/
theorem Inv.walk (h : Inv f) (ha : Around none f.kernel k)
    (hrun : (f.kernel.sched.proc p).state = .running) (hd : f.doing p = .outside)
    (hfork : ∀ np, ¬ pl.Forking np) (hc : Covers k p pl.left) : Inv (f.move p k pl) := by
  have hpl : (f.move p k pl).fine.place p = pl := update_self ..
  refine h.around (a := some p) (ha.mono _) (fun q hq => by cases hq; exact hrun)
    (fun q hq => update_of_ne (fun e => hq (congrArg some e)) _ _) (fun _ _ => rfl)
    (fun q hq np hf => ?_) fun q hq => ?_
  · cases hq
    rw [hpl] at hf
    exact absurd hf (hfork np)
  · cases hq
    have hd' : (f.move p k pl).doing p = .outside := hd
    refine ⟨fun g hg => ?_, fun _ g hg => ?_, fun g i hg => ?_, fun i g hg => ?_,
      fun hg => absurd hd' hg⟩
    · obtain ⟨i, hi⟩ := (h.own p).sleeper g ((ha.sched.context p (by simp)).symm.trans hg)
      exact ⟨i, by rw [← hi]; exact congrFun (ha.locks p (by simp)) i⟩
    · rw [hpl]; exact hc g hg
    · rw [hd'] at hg; cases hg
    · rw [hd'] at hg; cases hg

/-- A process that holds nothing becomes a ZOMBIE. -/
theorem inv_zombie (h : Inv f) (hrun : (f.kernel.sched.proc p).state = .running)
    (hd : f.doing p = .outside) (hc : Covers f.kernel p []) :
    Inv (f.move p (f.kernel.zombie p) .outside) := by
  have hnone : ∀ g, ¬ f.kernel.Holds p g := fun g hg => by
    obtain ⟨i, hi, -⟩ := hc g hg
    cases hi
  have hpid : PidInv (f.kernel.sched.upd p fun e => { e with state := .zombie }) :=
    h.pids.upd rfl (fun _ => h.pids.pos p (by simp [hrun])) (by simp)
  have hent : ∀ q, q ≠ p → (f.kernel.sched.proc q).Aside ((f.kernel.zombie p).sched.proc q) :=
    fun q hq => by
      dsimp only [zombie]
      rw [upd_proc_ne hq]
      exact .refl _
  refine h.upd (i := p) (u := fun e => { e with state := .zombie }) hpid (fun _ => .refl _)
    (fun _ => rfl) (fun _ _ => rfl) (fun _ => rfl) (fun _ => hnone)
    (fun g hg => hnone g (holds_same hg (by simp [Kernel.pid, zombie]) rfl))
    (fun g hg => (h.own p).sleeper g hg) hd (fun q hq => .inl (update_of_ne hq _ _))
    (h.forks.keep id fun q np hq => ?_)
  dsimp only at hq
  have e : q ≠ p := by rintro rfl; rw [update_self] at hq; exact hq
  rw [update_of_ne e] at hq
  exact ⟨update_of_ne e _ _, hent np (h.forks.ne hq hrun)⟩

theorem move_setKernel (f : MuxFine) (p : Slot) (k k' : Kernel) (pl : Place) :
    (f.setKernel k).move p k' pl = f.move p k' pl := rfl

/-- **The walk of `exit`** over the handles `is`. -/
theorem inv_exitWalk : ∀ (is : List (Fin MUX_MAXNUM)) {f : MuxFine}, Inv f →
    (f.kernel.sched.proc p).state = .running → f.doing p = .outside → Covers f.kernel p is →
    Inv (f.move p (exitWalk p is f.kernel).1 (exitWalk p is f.kernel).2)
  | [], f, h, hrun, hd, hc => inv_zombie h hrun hd hc
  | i :: is, f, h, hrun, hd, hc => by
    cases hg : f.kernel.mux.locks p i with
    | none =>
      simp only [exitWalk, hg]
      refine inv_exitWalk is h hrun hd fun g hh => ?_
      obtain ⟨j, hj, hl⟩ := hc g hh
      rcases mem_cons.mp hj with rfl | hj
      · rw [hg] at hl; cases hl
      · exact ⟨j, hj, hl⟩
    | some g =>
      have ha := around_addCount f.kernel g (-1)
      have hlive : (f.kernel.sched.proc p).Live := by simp [PEntry.Live, hrun]
      have hc' : Covers { f.kernel with mux := f.kernel.mux.addCount g (-1) } p (i :: is) :=
        fun j hj => hc j (ha.holds h.pids hlive (by simp) hj)
      simp only [exitWalk, hg]
      split
      · -- the process lets go of the lock to release `g`
        exact h.walk ha hrun hd (fun _ hf => hf) hc'
      next ho =>
      have h₁ := h.silent ha
      have hw := inv_exitWalk is h₁ hrun hd fun j hj => ?_
      · rwa [move_setKernel] at hw
      · obtain ⟨l, hl, hlock⟩ := hc' j hj
        rcases mem_cons.mp hl with rfl | hl
        · -- `g` is not among the mutexes that `p` holds
          rw [show ({ f.kernel with mux := f.kernel.mux.addCount g (-1) } :
            Kernel).mux.locks p l = some g from hg] at hlock
          cases hlock
          exact absurd (congrArg SleepLock.pid hj) ho
        · exact ⟨l, hl, hlock⟩

/-- `p` runs, outside `fork2`, `exit` and the mutex functions. -/
structure Calling (f : MuxFine) (p : Slot) : Prop where
  run : (f.kernel.sched.proc p).state = .running
  place : f.fine.place p = .outside
  doing : f.doing p = .outside

section

variable (h : Inv f)

include h

/-- A process that runs outside `exit` has a handle to every mutex it holds. -/
theorem Inv.covers (hrun : (f.kernel.sched.proc p).state = .running) :
    Covers f.kernel p (f.fine.place p).left :=
  (h.own p).handles (by simp [PEntry.Live, hrun])

theorem inv_exitBegin (hp : f.kernel.inUser p) (hpl : f.fine.place p = .outside)
    (hd : f.doing p = .outside) (he : f.kernel.exitBegin p = .ok (k, pl)) :
    Inv (f.move p k pl) := by
  unfold exitBegin at he
  split at he
  · cases he
  obtain ⟨v, -, he⟩ := of_bind he
  obtain ⟨s, hs, he⟩ := of_bind he
  have haside : Sched.Aside none f.kernel.sched s :=
    (((aside none).wakeParent _ p).trans ((aside none).abandon p fun _ _ _ hp =>
      ⟨⟨⟨rfl, .rfl, .rfl, fun h => by rw [hp] at h; cases h⟩, .rfl⟩, fun _ => rfl⟩)).trans
      (frame_removeNode hs).aside
  have ha : Around none f.kernel { f.kernel with vm := v, sched := s } :=
    around_sched haside rfl rfl
  have h₁ := h.silent ha
  have hrun : (s.proc p).state = .running := by
    rw [(frame_removeNode hs).state]
    exact Fine.abandon_running hp.1
  have hc := h₁.covers (p := p) hrun
  rw [show (f.setKernel { f.kernel with vm := v, sched := s }).fine.place p = _ from hpl] at hc
  have hw := inv_exitWalk (finRange MUX_MAXNUM) h₁ hrun hd hc
  have hk : exitWalk p (finRange MUX_MAXNUM) { f.kernel with vm := v, sched := s } =
      (k, pl) := Except.ok.inj he
  cases congrArg Prod.fst hk
  cases congrArg Prod.snd hk
  exact hw

/-- `exit` is in no mutex function. -/
theorem Inv.walking (hp : f.fine.place p ≠ .outside) : f.doing p = .outside := by
  by_contra hd
  exact hp ((h.own p).user hd).2.1

/-- `exit` releases a mutex; its handles are left from `is` on. -/
theorem inv_exitRelease {i : Fin MUX_MAXNUM} (hrun : (f.kernel.sched.proc p).state = .running)
    (hp : f.fine.place p = .exit i is) (hg : f.kernel.mux.locks p i = some g) :
    Inv (f.move p (f.kernel.releasesleep g) (.exited is)) := by
  have ha := around_releasesleep f.kernel g
  refine h.walk ha hrun (h.walking (by rw [hp]; simp)) (fun _ hf => hf) fun j hj => ?_
  have hc := h.covers hrun
  rw [hp] at hc
  obtain ⟨l, hl, hlock⟩ := hc j (ha.holds h.pids (by simp [PEntry.Live, hrun]) (by simp) hj)
  rcases mem_cons.mp hl with rfl | hl
  · rw [hg] at hlock
    cases hlock
    simp [Holds, releasesleep, Mux.upd_mutexes] at hj
  · exact ⟨l, hl, hlock⟩

theorem inv_exitEnd (hrun : (f.kernel.sched.proc p).state = .running)
    (hp : f.fine.place p = .exited is) :
    Inv (f.move p (exitWalk p is f.kernel).1 (exitWalk p is f.kernel).2) := by
  have hc := h.covers hrun
  rw [hp] at hc
  exact inv_exitWalk is h hrun (h.walking (by rw [hp]; simp)) hc

/-! ### The calls that are one section -/

/-- A process outside the mutex functions, with the same handles as before. -/
theorem Inv.call (ha : Around (some p) f.kernel k) (hc : f.Calling p)
    (hs : ∀ g, (k.sched.proc p).context = .acquiresleep g → k.HandleTo p g)
    (hh : ∀ g, k.Holds p g → k.HandleTo p g) : Inv (f.setKernel k) := by
  have hput : f.setKernel k = f.put p k .outside := by
    unfold setKernel MuxFine.put
    rw [← hc.doing, update_eq_self]
  rw [hput]
  exact h.put ha hc.run hc.place (.outside hs hh)

theorem Inv.handleTo (hrun : (f.kernel.sched.proc p).state = .running)
    (hh : f.kernel.Holds p g) : f.kernel.HandleTo p g := by
  obtain ⟨i, -, hi⟩ := h.covers hrun g hh
  exact ⟨i, hi⟩

/-- A call that changes no mutex, and leaves its process waiting for none. -/
theorem Inv.noMux (hs : Sched.Aside (some p) f.kernel.sched k.sched)
    (hm : k.mux = f.kernel.mux) (hc : f.Calling p)
    (hctx : ∀ g, (k.sched.proc p).context ≠ .acquiresleep g) : Inv (f.setKernel k) := by
  refine h.call (around_sched hs hm rfl) hc (fun g hg => absurd hg (hctx g)) fun g hg => ?_
  obtain ⟨i, hi⟩ := h.handleTo hc.run (holds_same hg (hs.entry p).pid (by rw [hm]))
  exact ⟨i, by rw [hm]; exact hi⟩

theorem inv_toUser (hc : f.Calling p) : Inv (f.setKernel (f.kernel.toUser p)) :=
  h.noMux ((asideBy p).user _) rfl hc fun g => by simp [toUser]

/-- `acquiresleep` on a mutex that `p` has a handle to. -/
theorem inv_acquiresleep (hc : f.Calling p) (hg : f.kernel.HandleTo p g) :
    Inv (f.setKernel (f.kernel.acquiresleep p g).2) := by
  have hlocks : (f.kernel.acquiresleep p g).2.mux.locks = f.kernel.mux.locks := by
    unfold acquiresleep
    split <;> rfl
  have ha := around_acquiresleep (g := g) hc.run
  have hto : ∀ j, f.kernel.HandleTo p j → (f.kernel.acquiresleep p g).2.HandleTo p j :=
    fun j ⟨i, hi⟩ => ⟨i, by rw [hlocks]; exact hi⟩
  refine h.call ha hc (fun j hj => hto j ?_) fun j hj => hto j ?_
  · unfold acquiresleep at hj
    split at hj
    · simp only [sleep, upd_proc_self, Context.acquiresleep.injEq] at hj
      exact hj ▸ hg
    · simp [toUser] at hj
  · by_cases e : j = g
    · exact e ▸ hg
    · refine h.handleTo hc.run (holds_same hj (ha.pid p) ?_)
      unfold acquiresleep
      split
      · rfl
      · dsimp only [toUser]; exact slp_upd_ne e

theorem inv_mutexLock {muxid : Int} (hc : f.Calling p) :
    Inv (f.setKernel (f.kernel.mutexLock p muxid).2) := by
  unfold mutexLock
  cases hh : f.kernel.handle p muxid with
  | none => exact h
  | some x =>
    obtain ⟨i, g⟩ := x
    dsimp only
    split
    · exact h
    · exact inv_acquiresleep h hc ⟨i, (handle_eq_some hh).2⟩

theorem inv_wait (hc : f.Calling p) (hw : f.kernel.wait p = .ok (r, k)) : Inv (f.setKernel k) := by
  rcases wait_cases hw with ⟨q, -, hq, -, hm, hs⟩ | rfl | rfl
  · have hne : p ≠ q := by rintro rfl; rw [hc.run] at hq; cases hq
    have h₁ := inv_reap (k := { k with sched := f.kernel.sched.upd q reaped }) h hq rfl hm
    have hrun₁ : ((f.kernel.sched.upd q reaped).proc p).state = .running := by
      rw [upd_proc_ne hne]; exact hc.run
    refine h₁.noMux (p := p) (hs ▸ (asideBy p).user _) rfl ⟨hrun₁, hc.place, hc.doing⟩ fun g => ?_
    rw [hs, upd_proc_self]
    simp
  · exact inv_toUser h hc
  · exact h.noMux ((asideBy p).sleep trivial hc.run) rfl hc fun g => by simp [sleep]

theorem inv_resume (hp : f.Calling p) (hcv : ∀ g i, (f.kernel.sched.proc p).context ≠ .cvWait g i)
    (hs : f.kernel.resume p = .ok (r, k)) : Inv (f.setKernel k) := by
  unfold resume at hs
  cases hc : (f.kernel.sched.proc p).context with
  | user => rw [hc] at hs; cases hs; exact h
  | wait => rw [hc] at hs; exact inv_wait h hp hs
  | sleep => rw [hc] at hs; cases hs; exact inv_toUser h hp
  | acquiresleep g =>
    rw [hc] at hs
    rw [← Res.snd_of_ok hs]
    exact inv_acquiresleep h hp ((h.own p).sleeper g hc)
  | cvWait g i => exact absurd hc (hcv g i)

/-- **A call.** -/
theorem inv_call {op : Op} (he : f.kernel.Enabled op) (hf : f.fine.callFrom op)
    (hc : f.callable op) (hs : f.kernel.step op = .ok (r, k)) : Inv (f.setKernel k) := by
  cases op with
  | fork2 | exit | mutexCreate | mutexGet | mutexDelete | mutexUnlock | cvWait | cvSignal =>
    exact hc.elim
  | allocFirst =>
    obtain ⟨⟨c, k₁⟩, h₁, hs⟩ := of_bind hs
    cases hs; exact inv_allocFirst h h₁
  | userinit p =>
    obtain ⟨k₁, h₁, hs⟩ := of_bind hs
    cases hs; exact inv_userinit h he hf h₁
  | wait p => exact inv_wait h ⟨he.1, hf, hc⟩ hs
  | resume p => exact inv_resume h ⟨he.1, hf, hc.1⟩ hc.2 hs
  | mutexLock p muxid => rw [← Res.snd_of_ok hs]; exact inv_mutexLock h ⟨he.1, hf, hc⟩
  | sleep p addr =>
    cases hs
    exact h.noMux ((asideBy p).sleep trivial he.1) rfl ⟨he.1, hf, hc⟩ fun g => by
      simp [sleep]
  | _ =>
    obtain ⟨ha, hm, -⟩ := (aside none).bare Sched.Frame.aside
      (fun _ _ _ _ _ _ => ⟨⟨⟨rfl, .rfl, .rfl, id⟩, .rfl⟩, fun _ => rfl⟩) he hs rfl
    exact h.silent (around_sched ha hm rfl)

end

/-! ### The steps of the mutex functions -/

/-- `p` is in a mutex function, or about to call one. -/
structure Working (f : MuxFine) (p : Slot) : Prop where
  run : (f.kernel.sched.proc p).state = .running
  place : f.fine.place p = .outside
  user : (f.kernel.sched.proc p).context = .user

theorem idle.working (h : f.idle p) : f.Working p := ⟨h.1.1, h.2.1, h.1.2⟩

theorem Inv.working (h : Inv f) (hrun : (f.kernel.sched.proc p).state = .running)
    (hd : f.doing p ≠ .outside) : f.Working p :=
  ⟨hrun, ((h.own p).user hd).2.1, ((h.own p).user hd).1⟩

/-- The clauses of `p` in the same kernel, at a place where it is about to drop no handle. -/
theorem Inv.ready {pl : MuxPlace} (h : Inv f) (hw : f.Working p)
    (hr : ∀ g i, pl = .release g (.drop i) → f.kernel.mux.locks p i = some g)
    (hdr : ∀ i g, pl = .drop i g → ∀ j, f.kernel.mux.locks p i = some j → ¬ f.kernel.Holds p j) :
    Ready f.kernel p pl :=
  ⟨(h.own p).sleeper, fun _ => h.handleTo hw.run, hr, hdr, fun _ => hw.user⟩

/-- `p` goes to another place and changes nothing. -/
theorem Inv.goto {pl : MuxPlace} (h : Inv f) (hw : f.Working p)
    (r : ∀ g i, pl = .release g (.drop i) → f.kernel.mux.locks p i = some g :=
      by intro _ _ e; cases e) (d : ∀ i g, pl = .drop i g → ∀ j, f.kernel.mux.locks p i = some j →
      ¬ f.kernel.Holds p j := by intro _ _ e; cases e) : Inv (f.put p f.kernel pl) :=
  h.put (.refl _ _) hw.run hw.place (h.ready hw r d)

/-- The mutexes change and `p`, in user context, keeps a handle to all it holds. -/
theorem Inv.putMux {m : Mux} {pl : MuxPlace} (h : Inv f) (hw : f.Working p)
    (hl : ∀ q, q ≠ p → m.locks q = f.kernel.mux.locks q)
    (hown : ∀ g i, f.kernel.mux.locks p i = some g → f.kernel.Holds p g → m.locks p i = some g)
    (hslp : ∀ g, (m.mutexes g).slp.locked → (m.mutexes g).slp = (f.kernel.mux.mutexes g).slp)
    (hpl : ∀ g i, pl ≠ .release g (.drop i) ∧ pl ≠ .drop i g := by simp) :
    Inv (f.put p (f.kernel.setMux m) pl) := by
  refine h.put (around_mux (fun q hq => hl q fun e => hq (congrArg some e)) hslp) hw.run
    hw.place ⟨fun g hg => ?_, fun g hg => ?_, fun g i e => absurd e (hpl g i).1,
      fun i g e => absurd e (hpl g i).2, fun _ => hw.user⟩
  · rw [show ((f.kernel.setMux m).sched.proc p).context = _ from hw.user] at hg
    cases hg
  · have hg' : f.kernel.Holds p g := holds_same hg rfl (hslp g (by
      rw [show (m.mutexes g).slp = _ from hg]))
    obtain ⟨i, hi⟩ := h.handleTo hw.run hg'
    exact ⟨i, hown g i hi hg'⟩

end MuxFine

namespace MuxFine

open Kernel
variable {f f' : MuxFine} {p q : Slot} {g : Mid} {op : MuxOp} {i : Fin MUX_MAXNUM}

theorem Inv.gives {m : Mux} {pl : MuxPlace} (h : Inv f) (hw : f.Working p)
    (hm : Mux.Gives p f.kernel.mux m)
    (hpl : ∀ g i, pl ≠ .release g (.drop i) ∧ pl ≠ .drop i g := by simp) :
    Inv (f.put p (f.kernel.setMux m) pl) :=
  h.putMux hw hm.others (fun g i hi _ => hm.own g i hi) (fun g _ => hm.slp g) hpl

/-- `mutex_delete` calls `mutex_unlock`: the caller holds the mutex and goes on to release it, or it
does not hold it. -/
theorem inv_delete (h : Inv f) (hw : f.Working p) :
    Inv (f.put p f.kernel (unlockTest f.kernel p i.val (.drop i g) (.drop i))) := by
  unfold unlockTest
  rw [handle_coe]
  cases hl : f.kernel.mux.locks p i with
  | none =>
    refine h.goto hw (d := fun j l e o ho => ?_)
    cases e
    rw [hl] at ho
    cases ho
  | some j =>
    simp only [Option.map_some]
    split
    · refine h.goto hw (r := fun l o e => ?_)
      cases e
      exact hl
    next hno =>
    refine h.goto hw (d := fun l o e n hn hh => ?_)
    cases e
    rw [hl] at hn
    cases hn
    exact hno (congrArg SleepLock.pid hh)

section

variable (h : Inv f) (hrun : (f.kernel.sched.proc p).state = .running)

include h hrun

/-- `releasesleep`, and on to what follows. -/
theorem inv_release {a : After}
    (hd : f.doing p = .release g a) : Inv (f.put p (f.kernel.releasesleep g) (a.place g)) := by
  obtain ⟨hu, hp, hlive, -⟩ := (h.own p).user (by rw [hd]; simp)
  have ha := around_releasesleep f.kernel g
  have hu' : ((f.kernel.releasesleep g).sched.proc p).context = .user :=
    (ha.sched.context p (by simp)).trans hu
  refine h.put (ha.mono _) hrun hp ⟨fun j hj => ?_, fun j hj => ?_, fun j i e => ?_,
    fun i j e l hl hh => ?_, fun _ => hu'⟩
  · rw [hu'] at hj; cases hj
  · exact h.handleTo hrun (ha.holds h.pids hlive (by simp) hj)
  · cases a <;> cases e
  · cases a with
    | ret => cases e
    | sleep => cases e
    | drop o =>
      cases e
      have hg := (h.own p).release g i hd
      have hl' : f.kernel.mux.locks p i = some l := hl
      rw [hg] at hl'
      cases hl'
      simp [Holds, releasesleep, Mux.upd_mutexes] at hh

/-- `mutex_delete` drops the handle. -/
theorem inv_drop (hd : f.doing p = .drop i g) :
    Inv (f.put p (f.kernel.setMux ((f.kernel.mux.addCount g (-1)).setLock p i none)) .outside) := by
  have hw := h.working hrun (by rw [hd]; simp)
  refine h.putMux hw (fun q hq => ?_) (fun j l hl hj => ?_) fun j _ => ?_
  · exact Mux.setLock_locks_ne hq
  · -- the handle that goes is not to a mutex that `p` holds
    have e : l ≠ i := by rintro rfl; exact (h.own p).drop l g hd j hl hj
    rw [Mux.setLock_locks_self, update_of_ne e]
    exact hl
  · exact same_slp.addCount f.kernel.mux _ _ j

/-- **A step in a mutex function.** -/
theorem inv_advance (hok : advanceOk f.kernel p (f.doing p)) (hne : f.doing p ≠ .outside)
    (hs : f.advance p (f.doing p) = .ok f') : Inv f' := by
  have hw := h.working hrun hne
  obtain ⟨hu, hp, hlive, -⟩ := (h.own p).user hne
  cases hd : f.doing p with
  | outside => exact absurd hd hne
  | scan name gs =>
    rw [hd] at hs
    cases gs with
    | nil => cases hs; exact h.goto hw
    | cons g gs =>
      rw [advance] at hs
      split at hs <;> cases hs <;> exact h.goto hw
  | take name g =>
    rw [hd, advance] at hs
    obtain ⟨m, hm, hs⟩ := of_bind hs
    cases hs
    exact h.gives hw (Mux.gives_takeSlot hm)
  | unlocked g =>
    rw [hd] at hs
    cases hs
    refine h.putMux hw (fun _ _ => rfl) (fun _ _ hi _ => hi) fun j hj => ?_
    rw [Mux.upd_mutexes] at hj ⊢
    split at hj
    · cases hj
    · next e => rw [if_neg e]
  | unowned g =>
    rw [hd] at hs hok
    cases hs
    refine h.putMux hw (fun _ _ => rfl) (fun _ _ hi _ => hi) fun j hj => ?_
    rw [Mux.upd_mutexes] at hj ⊢
    split at hj
    · rw [hok] at hj; cases hj
    · next e => rw [if_neg e]
  | find name gs =>
    rw [hd] at hs
    cases gs with
    | nil => cases hs; exact h.goto hw
    | cons g gs =>
      rw [advance] at hs
      split at hs <;> cases hs
      · exact h.gives hw (Mux.gives_getLoop _)
      · exact h.goto hw
  | delete i g => rw [hd] at hs; cases hs; exact inv_delete h hw
  | release g a => rw [hd] at hs; cases hs; exact inv_release h hrun hd
  | drop i g => rw [hd] at hs; cases hs; exact inv_drop h hrun hd
  | mark g i =>
    rw [hd] at hok
    rw [hd, advance, CvFine.mark_inRange hok] at hs
    cases hs
    exact h.goto hw
  | look g i =>
    rw [hd, advance] at hs
    split at hs <;> cases hs
    · unfold unlockTest
      split
      · exact h.goto hw
      · split <;> exact h.goto hw
    · exact h.putMux hw (fun _ _ => rfl) (fun _ _ hi _ => hi) fun j _ =>
        cvCount_slp f.kernel.mux _ (· + -1) j
  | sleep g i =>
    rw [hd] at hs
    cases hs
    refine h.put (around_sched ((asideBy p).sleep trivial hrun) rfl rfl) hrun hp
      (.outside (fun j hj => ?_) fun j hj => ?_)
    · simp [sleep] at hj
    · exact h.handleTo hrun (holds_same hj (by simp [Kernel.pid, sleep]) rfl)
  | raise g =>
    rw [hd] at hs
    cases hs
    have hslp : ∀ j, ((CvFine.addCv f.kernel g 1).mux.mutexes j).slp =
        (f.kernel.mux.mutexes j).slp := cvCount_slp f.kernel.mux g (· + 1)
    have hw := (aside none).wakeup1 f.kernel.sched (.cv g)
    have ha : Around none f.kernel { CvFine.addCv f.kernel g 1 with
        sched := f.kernel.sched.wakeup1 (.cv g) } :=
      ⟨hw, fun _ _ => rfl, fun j _ => .inl (hslp j)⟩
    refine h.put (ha.mono _) hrun hp (.outside (fun j hj => ?_) fun j hj => ?_)
    · cases ((hw.context p (by simp)).trans hu).symm.trans hj
    · exact h.handleTo hrun (ha.holds h.pids hlive (by simp) hj)

end

/-- The places where `mutex_delete`, `cv_wait` and `cv_signal` start. -/
theorem inv_start {owner other : Fin MUX_MAXNUM → Mid → MuxPlace} {muxid : Int} (h : Inv f)
    (hi : f.idle p) (ho : ∀ i g j l, owner i g ≠ .release j (.drop l) ∧ owner i g ≠ .drop l j)
    (hn : ∀ i g j l, other i g ≠ .release j (.drop l) ∧ (other i g = .drop l j → l = i ∧ j = g)) :
    Inv (f.put p f.kernel (start f.kernel p muxid owner other)) := by
  have hw := hi.working
  unfold start
  cases hh : f.kernel.handle p muxid with
  | none => exact h.goto hw
  | some x =>
    obtain ⟨i, g⟩ := x
    dsimp only
    split
    · exact h.goto hw (r := fun j l e => absurd e (ho i g j l).1)
        (d := fun l j e => absurd e (ho i g j l).2)
    next hno =>
    refine h.goto hw (r := fun j l e => absurd e (hn i g j l).1) (d := fun l j e n hl hh' => ?_)
    obtain ⟨rfl, rfl⟩ := (hn i g j l).2 e
    rw [(handle_eq_some hh).2] at hl
    cases hl
    exact hno (congrArg SleepLock.pid hh')

/-- **One section** of another call, of `fork2` or of `exit`. -/
theorem inv_base {op : FineOp} {fine : Fine} (h : Inv f) (he : f.fine.Enabled op)
    (ha : f.allowed op) (hs : f.fine.step op = .ok fine) : Inv { f with fine := fine } := by
  cases op with
  | call op =>
    obtain ⟨⟨r, k⟩, h₁, hs⟩ := of_bind hs
    cases hs
    exact inv_call h he.1 he.2 ha h₁
  | forkBegin p cid =>
    obtain ⟨⟨o, k⟩, h₁, hs⟩ := of_bind hs
    have hb := inv_forkBegin h he.1.1 ha he.2.1 he.2.2 h₁
    cases o <;> cases hs <;> exact hb
  | forkBody p =>
    obtain ⟨-, np, cid, hpl⟩ := he
    simp only [Fine.step, hpl] at hs
    obtain ⟨⟨ok, k⟩, h₁, hs⟩ := of_bind hs
    cases hs
    exact inv_forkBody h hpl h₁
  | forkEnd p =>
    obtain ⟨-, np, hpl⟩ := he
    simp only [Fine.step, hpl] at hs
    cases hs
    exact inv_forkEnd h hpl
  | exitBegin p =>
    obtain ⟨⟨k, pl⟩, h₁, hs⟩ := of_bind hs
    cases hs
    exact inv_exitBegin h he.1 he.2 ha h₁
  | exitRelease p =>
    obtain ⟨hrun, i, is, hpl⟩ := he
    simp only [Fine.step, hpl] at hs
    cases hg : f.kernel.mux.locks p i with
    | none => rw [hg] at hs; cases hs
    | some g => rw [hg] at hs; cases hs; exact inv_exitRelease h hrun hpl hg
  | exitEnd p =>
    obtain ⟨hrun, is, hpl⟩ := he
    simp only [Fine.step, hpl] at hs
    cases hs
    exact inv_exitEnd h hrun hpl

/-- **One step.** -/
theorem inv_step (h : Inv f) (hs : Step f op f') (hok : f.LockOk op) : Inv f' := by
  obtain ⟨he, hs⟩ := hs
  cases op with
  | base op =>
    obtain ⟨fine, h₁, hs⟩ := of_bind hs
    cases hs
    exact inv_base h he.1 he.2 h₁
  | create | get => cases hs; exact h.goto he.working
  | delete p muxid => cases hs; exact inv_start h he (by simp) (by simp +contextual)
  | wait | signal => cases hs; exact inv_start h he (by simp) (by simp)
  | unlock p muxid =>
    cases hs
    have hw := he.working
    unfold unlockTest
    split
    · exact h.goto hw
    · split <;> exact h.goto hw
  | again p =>
    obtain ⟨hrun, hp, -, g, i, hc⟩ := he
    simp only [step, hc] at hs
    cases hs
    refine h.put (around_sched ((asideBy p).user _) rfl rfl) hrun hp
      ⟨fun j hj => ?_, fun j hj => ?_, fun _ _ e => (by cases e), fun _ _ e => (by cases e),
        fun _ => by simp [toUser]⟩
    · simp [toUser] at hj
    · exact h.handleTo hrun (holds_same hj (by simp [Kernel.pid, toUser]) rfl)
  | next p => exact inv_advance h he.1 hok he.2 hs

theorem inv_boot (m : Kmem) : Inv (quiet (boot m)) where
  pids := .pinit
  owner _ hg := by cases hg
  embryo _ hp := by cases hp
  forks := ⟨fun _ _ hp => hp.elim, fun _ _ hp => hp.elim, fun _ _ _ hp => (by cases hp),
    fun _ _ _ hp => hp.elim⟩
  own _ := ⟨fun _ e => (by cases e), fun hl => absurd rfl hl.1, fun _ _ e => (by cases e),
    fun _ _ e => (by cases e), fun hd => absurd rfl hd⟩

theorem Inv.ownersAlive (h : Inv f) : f.kernel.OwnersAlive := by
  intro g hg
  obtain ⟨p, hl, hp⟩ := h.owner g hg
  obtain ⟨i, -, hi⟩ := (h.own p).handles hl g (by unfold Holds; rw [← hp, ← hg])
  exact ⟨p, hl, hp, i, hi⟩

theorem Inv.deadHoldNone (h : Inv f) : f.kernel.DeadHoldNone := by
  intro p hp g hh
  obtain ⟨q, hl, hq⟩ := h.owner g (by rw [show _ = _ from hh])
  rw [show (f.kernel.mux.mutexes g).slp = _ from hh] at hq
  have e : q = p := h.pids.inj q p hq.symm (by have := h.pids.pos q hl.1; omega)
  exact hp (e ▸ hl)

/-- **The owner of a locked mutex is alive.**  From boot, in every run in which `initsleeplock`
writes `pid = 0` only to a lock that is not locked and `cv_wait` stays inside `waiting_procs`: in
every state, each locked mutex is owned by a live process that has a handle to it, and a process
that has exited holds none. -/
theorem owners_alive {m : Kmem} {t : List (MuxFine × MuxOp)}
    (hr : Run Step (quiet (boot m)) t f) (hok : ∀ x ∈ t, x.1.LockOk x.2) :
    (∀ x ∈ t, x.1.kernel.OwnersAlive ∧ x.1.kernel.DeadHoldNone) ∧
      f.kernel.OwnersAlive ∧ f.kernel.DeadHoldNone := by
  have hinv := hr.inv (I := Inv)
    (fun f op _ hi hs (hok : f.LockOk op) => inv_step hi hs hok) (inv_boot m) hok
  exact ⟨fun x hx => ⟨(hinv.1 x hx).ownersAlive, (hinv.1 x hx).deadHoldNone⟩,
    hinv.2.ownersAlive, hinv.2.deadHoldNone⟩

/-! ### Runs that are computed -/

instance (k : Kernel) (p : Slot) : DecidablePred (advanceOk k p) := fun op => by
  rcases op <;> dsimp only [advanceOk] <;> infer_instance

instance (f : MuxFine) : DecidablePred f.LockOk := fun op => by
  rcases op <;> dsimp only [LockOk] <;> infer_instance

instance (k : Kernel) : Decidable k.OwnersAlive := by
  unfold OwnersAlive
  infer_instance

/-- The first process, and its child. -/
def parentOps : List MuxOp :=
  [.base (.call .allocFirst), .base (.call (.userinit 0)), .base (.call .scheduler)]

/-- The first process forks. -/
def childOps : List MuxOp :=
  [.base (.forkBegin 0 (-1)), .base (.forkBody 0), .base (.forkEnd 0), .base (.call .scheduler)]

/-- A mutex is created, and locked by a child that exits; then the parent locks it. -/
def inheritOps : List MuxOp :=
  parentOps ++ [.create 0 [97], .next 0, .next 0, .next 0, .next 0] ++ childOps ++
    [.base (.call (.mutexLock 1 0)), .base (.exitBegin 1), .base (.exitRelease 1),
      .base (.exitEnd 1), .base (.call (.mutexLock 0 0))]

/-- The parent is in `mutex_create`, before `pid = 0`, when the child gets the mutex by its name
and locks it. -/
def orphanOps : List MuxOp :=
  parentOps ++ childOps ++ [.create 0 [97], .next 0, .next 0, .next 0, .get 1 [97], .next 1,
    .base (.call (.mutexLock 1 0)), .next 0]

/-- The child exits with the mutex, and the parent has it. -/
theorem owners_alive_inherit : ∃ t f, Run Step (quiet (boot smallMem)) t f ∧
    ((f.kernel.sched.proc 1).state = .zombie ∧ f.kernel.Holds 0 0) ∧
    f.kernel.OwnersAlive ∧ f.kernel.DeadHoldNone := by
  obtain ⟨f, hr, hf⟩ := exists_run step_of_exec? (quiet (boot smallMem)) inheritOps
    (fun f => (f.kernel.sched.proc 1).state = .zombie ∧ f.kernel.Holds 0 0) (by decide +kernel)
  have hok : ∀ x ∈ traceFn exec? (quiet (boot smallMem)) inheritOps, x.1.LockOk x.2 := by
    decide +kernel
  exact ⟨_, f, hr, hf, (owners_alive hr hok).2⟩

/-- **A lock without an owner.**  The child locks a mutex that its parent is still creating, after
`locked = 0` and before `pid = 0`: the lock stays locked with the owner 0. -/
theorem create_orphans_lock : ∃ t f, Run Step (quiet (boot smallMem)) t f ∧
    (f.kernel.mux.mutexes 0).slp = ⟨true, 0⟩ ∧ ¬ f.kernel.OwnersAlive := by
  obtain ⟨f, hr, hf⟩ := exists_run step_of_exec? (quiet (boot smallMem)) orphanOps
    (fun f => (f.kernel.mux.mutexes 0).slp = ⟨true, 0⟩ ∧ ¬ f.kernel.OwnersAlive) (by decide +kernel)
  exact ⟨_, f, hr, hf⟩

end MuxFine

end Xv6
