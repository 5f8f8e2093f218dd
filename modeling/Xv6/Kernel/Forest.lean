import Xv6.Kernel.Kin

/-!
# Kernel — Forest

The parent relation is a forest in every state the kernel reaches (`forest_of_run`).

The measure is the pid: a parent has a smaller pid than its child, as pids grow and `exit` hands
children over to the process with pid 1.  `ParentInv` carries that with the facts it needs: a
parent is neither UNUSED nor ZOMBIE, a process other than the first has a parent, and `initproc` is
the first process.
-/

namespace Xv6

namespace Sched

open Lib Option

/-- The parent links of the process table. -/
structure ParentInv (s : Sched) : Prop where
  live : ∀ i q, (s.proc i).parent = some q → (s.proc q).Live ∧ (s.proc q).pid < (s.proc i).pid
  child : ∀ i, (s.proc i).state ≠ .unused → (s.proc i).pid ≠ 1 → (s.proc i).parent ≠ none
  embryo : ∀ i, (s.proc i).state = .embryo → (s.proc i).pid = 1
  init : ∀ q, s.initproc = some q → (s.proc q).Live ∧ (s.proc q).pid = 1
  booted : ∀ i, (s.proc i).state ≠ .unused → (s.proc i).state ≠ .embryo → s.initproc ≠ none

variable {s s' : Sched} {p q i : Slot}

theorem live_iff_phase {e e' : PEntry} (h : e'.state.phase = e.state.phase) : e'.Live ↔ e.Live := by
  simp only [PEntry.Live, ne_eq, ← ProcState.phase_unused, ← ProcState.phase_zombie, h]

namespace ParentInv

theorem pinit : ParentInv pinit where
  live _ _ h := by cases h
  child _ h := absurd rfl h
  embryo _ h := by cases h
  init _ h := by cases h
  booted _ h := absurd rfl h

section

variable (h : ParentInv s)

include h

/-- Pids, parents, the phases of the slots and `initproc` are all that matters. -/
theorem congr (hpid : ∀ i, (s'.proc i).pid = (s.proc i).pid)
    (hpar : ∀ i, (s'.proc i).parent = (s.proc i).parent)
    (hph : ∀ i, (s'.proc i).state.phase = (s.proc i).state.phase)
    (hinit : s'.initproc = s.initproc) : ParentInv s' where
  live i q hq := by
    rw [live_iff_phase (hph q), hpid, hpid]
    exact h.live i q (hpar i ▸ hq)
  child i hi h1 := by
    rw [hpar]
    refine h.child i ?_ (hpid i ▸ h1)
    rwa [ne_eq, ← ProcState.phase_unused, ← hph i, ProcState.phase_unused]
  embryo i hi := by
    rw [hpid]
    refine h.embryo i ?_
    rwa [← ProcState.phase_embryo, ← hph i, ProcState.phase_embryo]
  init q hq := by
    rw [live_iff_phase (hph q), hpid]
    exact h.init q (hinit ▸ hq)
  booted i hu he := by
    rw [hinit]
    refine h.booted i ?_ ?_
    · rwa [ne_eq, ← ProcState.phase_unused, ← hph i, ProcState.phase_unused]
    · rwa [ne_eq, ← ProcState.phase_embryo, ← hph i, ProcState.phase_embryo]

theorem kin (hk : Kin s s') : ParentInv s' :=
  h.congr hk.pid hk.parent hk.phase hk.initproc

/-- A slot that was UNUSED, so nobody's parent, is filled; the others stay as they are. -/
theorem fill (hi : (s.proc i).state = .unused) (hne : ∀ j, j ≠ i → s'.proc j = s.proc j)
    (hinit : s'.initproc = s.initproc) (hpar : ∀ q, (s'.proc i).parent = some q →
      (s.proc q).Live ∧ (s.proc q).pid < (s'.proc i).pid)
    (hchild : (s'.proc i).state ≠ .unused → (s'.proc i).pid ≠ 1 → (s'.proc i).parent ≠ none)
    (hemb : (s'.proc i).state = .embryo → (s'.proc i).pid = 1)
    (hboot : (s'.proc i).state ≠ .unused → (s'.proc i).state ≠ .embryo → s.initproc ≠ none) :
    ParentInv s' := by
  have hlive : ∀ q, (s.proc q).Live → q ≠ i := fun q hq e => hq.1 (e ▸ hi)
  refine ⟨fun j q hq => ?_, fun j hj h1 => ?_, fun j hj => ?_, fun q hq => ?_, fun j hu he => ?_⟩
  · have hl : (s.proc q).Live ∧ (s.proc q).pid < (s'.proc j).pid := by
      by_cases e : j = i
      · exact e ▸ hpar q (e ▸ hq)
      · rw [hne j e] at hq ⊢; exact h.live j q hq
    rwa [hne q (hlive q hl.1)]
  · by_cases e : j = i
    · exact e ▸ hchild (e ▸ hj) (e ▸ h1)
    · rw [hne j e] at hj h1 ⊢; exact h.child j hj h1
  · by_cases e : j = i
    · exact e ▸ hemb (e ▸ hj)
    · rw [hne j e] at hj ⊢; exact h.embryo j hj
  · have hq' := h.init q (hinit ▸ hq)
    rwa [hne q (hlive q hq'.1)]
  · rw [hinit]
    by_cases e : j = i
    · exact hboot (e ▸ hu) (e ▸ he)
    · rw [hne j e] at hu he; exact h.booted j hu he

theorem first (hp : PidInv s) (hi : (s.proc i).state = .unused)
    (hn : s.nextpid = 1) : ParentInv (s.newborn i) := by
  have hpar := hp.parent i hi
  refine h.fill hi (fun j hj => newborn_ne hj) rfl (fun q hq => ?_) ?_ ?_ ?_
  all_goals rw [newborn_self] at *
  · rw [hpar] at hq; cases hq
  · exact fun _ h1 => absurd hn h1
  · exact fun _ => hn
  · exact fun _ he => absurd rfl he

theorem stillborn (hp : PidInv s) (hi : (s.proc i).state = .unused) :
    ParentInv ((s.newborn i).upd i PEntry.free) := by
  have hpar := hp.parent i hi
  refine h.fill hi (fun j hj => by rw [upd_proc_ne hj, newborn_ne hj]) rfl (fun q hq => ?_) ?_ ?_ ?_
  all_goals rw [upd_proc_self, newborn_self] at *
  · rw [PEntry.free, hpar] at hq; cases hq
  · exact fun hu => absurd rfl hu
  · exact fun he => by cases he
  · exact fun hu => absurd rfl hu

theorem birth {np : Slot} {cid : Int} (hp : PidInv s) (hi : (s.proc np).state = .unused)
    (hrun : (s.proc p).state = .running) : ParentInv ((s.newborn np).birth p np cid) := by
  refine h.fill hi (fun j hj => by rw [birth_ne hj, newborn_ne hj]) rfl (fun q hq => ?_) ?_ ?_ ?_
  all_goals rw [birth_self, newborn_self] at *
  · obtain rfl := some.inj hq
    exact ⟨by simp [PEntry.Live, hrun], (hp.bound p).2⟩
  · exact fun _ _ => some_ne_none p
  · exact fun he => by cases he
  · exact fun _ _ => h.booted p (by simp [hrun]) (by simp [hrun])

/-- The first process is complete. -/
theorem userinit (hp : (s.proc p).state = .embryo) :
    ParentInv { s.upd p fun e => { e with cid := -1, state := .runnable } with
      initproc := some p } := by
  have hpid := h.embryo p hp
  have hentry : ∀ j, let e := (s.upd p fun e => { e with cid := -1, state := .runnable }).proc j
      e.pid = (s.proc j).pid ∧ e.parent = (s.proc j).parent ∧ (e.Live ↔ (s.proc j).Live) ∧
        (e.state = .unused ↔ (s.proc j).state = .unused) ∧
        (e.state = .embryo → (s.proc j).state = .embryo) := fun j => by
    by_cases e : j = p
    · subst e; simp [PEntry.Live, hp]
    · simp [upd_proc_ne e]
  refine ⟨fun i q hq => ?_, fun i hi h1 => ?_, fun i hi => ?_, fun q hq => ?_,
    fun _ _ _ => some_ne_none p⟩
  · obtain ⟨hpi, hpa, -⟩ := hentry i
    obtain ⟨hpq, -, hl, -⟩ := hentry q
    dsimp only at *
    rw [hl, hpq, hpi]
    exact h.live i q (hpa ▸ hq)
  · obtain ⟨hpi, hpa, -, hu, -⟩ := hentry i
    dsimp only at *
    rw [hpa]
    exact h.child i (fun hc => hi (hu.mpr hc)) (hpi ▸ h1)
  · obtain ⟨hpi, -, -, -, he⟩ := hentry i
    dsimp only at *
    rw [hpi]
    exact h.embryo i (he hi)
  · obtain rfl := some.inj hq
    obtain ⟨hpq, -, hl, -⟩ := hentry p
    dsimp only at *
    rw [hl, hpq]
    exact ⟨by simp [PEntry.Live, hp], hpid⟩

/-- `p` leaves its children to the first process and becomes a zombie. -/
theorem exit (hp : PidInv s) (hrun : (s.proc p).state = .running) (hne : s.initproc ≠ some p) :
    ParentInv (s.exited p) := by
  obtain ⟨r, hr⟩ : ∃ r, s.initproc = some r :=
    ne_none_iff_exists'.mp (h.booted p (by simp [hrun]) (by simp [hrun]))
  obtain ⟨hlr, hr1⟩ := h.init r hr
  have hrp : r ≠ p := fun e => hne (e ▸ hr)
  have hpid : ∀ j, ((s.exited p).proc j).pid = (s.proc j).pid := fun j => by rw [exited_entry]
  have hstate : ∀ j, j ≠ p → ((s.exited p).proc j).state = (s.proc j).state := fun j hj => by
    rw [exited_entry, if_neg hj]
  have hparent : ∀ j, ((s.exited p).proc j).parent =
      if (s.proc j).parent = some p then some r else (s.proc j).parent := fun j => by
    rw [exited_entry, hr]
  have hlive : ∀ j, j ≠ p → (s.proc j).Live → ((s.exited p).proc j).Live := fun j hj hl => by
    simpa [PEntry.Live, hstate j hj] using hl
  refine ⟨fun i q hq => ?_, fun i hi h1 => ?_, fun i hi => ?_, fun q hq => ?_, fun i hu he => ?_⟩
  · rw [hparent i] at hq
    rw [hpid, hpid]
    split at hq
    · -- a child of `p`, now of the first process
      next hc =>
        obtain rfl := some.inj hq
        have hlt := (h.live i p hc).2
        have hpos := hp.pos p (by simp [hrun])
        exact ⟨hlive r hrp hlr, by omega⟩
    · next hc =>
      obtain ⟨hl, hlt⟩ := h.live i q hq
      exact ⟨hlive q (fun e => hc (e ▸ hq)) hl, hlt⟩
  · rw [hparent i]
    rw [hpid i] at h1
    split
    · exact some_ne_none r
    refine h.child i ?_ h1
    by_cases e : i = p
    · subst e; simp [hrun]
    · rwa [hstate i e] at hi
  · by_cases e : i = p
    · subst e; rw [exited_entry, if_pos rfl] at hi; cases hi
    · rw [hstate i e] at hi
      rw [hpid i]; exact h.embryo i hi
  · obtain rfl : r = q := some.inj (hr.symm.trans hq)
    exact ⟨hlive r hrp hlr, (hpid r).trans hr1⟩
  · exact fun hnone => by cases hr.symm.trans hnone

/-- A zombie is reaped: nobody's parent, and not the first process. -/
theorem reap (hz : (s.proc q).state = .zombie) : ParentInv (s.upd q PEntry.reaped) := by
  have hlive : ∀ r, (s.proc r).Live → r ≠ q := fun r hr e => hr.2 (e ▸ hz)
  refine ⟨fun i r hr => ?_, fun i hi h1 => ?_, fun i hi => ?_, fun r hr => ?_, fun i hu he => ?_⟩
  · have hiq : i ≠ q := fun e => by subst e; rw [upd_proc_self] at hr; cases hr
    rw [upd_proc_ne hiq] at hr ⊢
    have hl := h.live i r hr
    rwa [upd_proc_ne (hlive r hl.1)]
  · have hiq : i ≠ q := fun e => by subst e; rw [upd_proc_self] at hi; exact hi rfl
    rw [upd_proc_ne hiq] at hi h1 ⊢
    exact h.child i hi h1
  · have hiq : i ≠ q := fun e => by subst e; rw [upd_proc_self] at hi; cases hi
    rw [upd_proc_ne hiq] at hi ⊢
    exact h.embryo i hi
  · have hl := h.init r hr
    rwa [upd_proc_ne (hlive r hl.1)]
  · have hiq : i ≠ q := fun e => by subst e; rw [upd_proc_self] at hu; exact hu rfl
    rw [upd_proc_ne hiq] at hu he
    exact h.booted i hu he

theorem prio {v : Int} : ParentInv (s.upd q fun e => { e with priority := v }) := by
  exact h.congr (upd_field PEntry.pid rfl) (upd_field PEntry.parent rfl)
    (upd_field (·.state.phase) rfl) rfl

/-- Following parents from a slot ends. -/
theorem ends (hp : PidInv s) (i : Slot) : ∃ l, Chain (fun j => (s.proc j).parent) (some i) l := by
  -- by induction on a bound of the pid
  have key : ∀ n : Nat, ∀ i, (s.proc i).pid < n →
      ∃ l, Chain (fun j => (s.proc j).parent) (some i) l := by
    intro n
    induction n with
    | zero => exact fun i hi => absurd (hp.bound i).1 (by omega)
    | succ n ih =>
      intro i hi
      cases hq : (s.proc i).parent with
      | none => exact ⟨[i], rfl, hq⟩
      | some q =>
        obtain ⟨l, hl⟩ := ih q (by have := (h.live i q hq).2; omega)
        exact ⟨i :: l, rfl, by simpa [hq] using hl⟩
  exact key ((s.proc i).pid.toNat + 1) i (by have := hp.bound i; omega)

end

end ParentInv

/-- The walk of `prio_set` over a chain of parents ends with an answer. -/
theorem ancestorLoop_of_chain {pid : Int} : ∀ {n : Nat} {a : Option Slot} {l : List Slot},
    Chain (fun j => (s.proc j).parent) a l → l.length ≤ n →
      ∃ found, ancestorLoop s pid n a = .ok found
  | n, _, [], hc, _ => ⟨false, by rw [chain_nil.mp hc]; cases n <;> rfl⟩
  | 0, _, _ :: _, _, hl => by simp at hl
  | n + 1, _, i :: l, ⟨hc, ht⟩, hl => by
    obtain ⟨found, hf⟩ := ancestorLoop_of_chain ht (by simpa using hl)
    rw [hc, ancestorLoop]
    split
    · exact ⟨true, rfl⟩
    · exact ⟨found, hf⟩

/-- The parent relation is a forest: following parents ends; every process but the first has a
parent, which is neither UNUSED nor ZOMBIE; no parent is UNUSED; and the ancestor walk of
`prio_set` ends for every caller and every pid. -/
structure Forest (s : Sched) : Prop where
  ends : ∀ i, ∃ l, Chain (fun j => (s.proc j).parent) (some i) l
  parent : ∀ i, (s.proc i).state ≠ .unused → (s.proc i).pid ≠ 1 →
    ∃ q, (s.proc i).parent = some q ∧ (s.proc q).state ≠ .unused ∧ (s.proc q).state ≠ .zombie
  used : ∀ i q, (s.proc i).parent = some q → (s.proc q).state ≠ .unused
  walk : ∀ p pid, ∃ found, ancestorLoop s (s.proc p).pid NPROC (findPid s pid) = .ok found

theorem ParentInv.forest (h : ParentInv s) (hp : PidInv s) : Forest s where
  ends := h.ends hp
  parent i hi h1 := by
    obtain ⟨q, hq⟩ := ne_none_iff_exists'.mp (h.child i hi h1)
    exact ⟨q, hq, (h.live i q hq).1⟩
  used i q hq := (h.live i q hq).1.1
  walk p pid := by
    cases hf : findPid s pid with
    | none => exact ⟨false, rfl⟩
    | some i =>
      obtain ⟨l, hl⟩ := h.ends hp i
      exact ancestorLoop_of_chain hl (by simpa using hl.nodup.length_le_card)

end Sched

namespace Kernel

open Lib
open Sched (PidInv ParentInv Forest)

variable {k k' : Kernel} {op : Op}

theorem parentInv_step (h : ParentInv k.sched) (hp : PidInv k.sched) (hs : Step k op k') :
    ParentInv k'.sched := by
  cases step_kin hs with
  | kin hk => exact h.kin hk
  | first hn hi hk => exact (h.first hp hi hn).kin hk
  | init he hk => exact (h.userinit he).kin hk
  | stillborn _ hi hk => exact (h.stillborn hp hi).kin hk
  | birth hu hi hk => exact (h.birth hp hi hu.1).kin hk
  | exit hu hne hk => exact (h.exit hp hu.1 hne).kin hk
  | reap _ _ hz hk => exact (h.reap hz).kin hk
  | prio _ _ hk => exact h.prio.kin hk

theorem parentInv_run {m : Kmem} {t : List (Kernel × Op)} (hr : Run Step (boot m) t k) :
    (∀ x ∈ t, PidInv x.1.sched ∧ ParentInv x.1.sched) ∧ PidInv k.sched ∧ ParentInv k.sched :=
  hr.inv_all (fun _ _ _ (h : PidInv _ ∧ ParentInv _) hs =>
    ⟨pidInv_step h.1 hs, parentInv_step h.2 h.1 hs⟩) ⟨.pinit, .pinit⟩

/-- **The parent relation is a forest.**  In every state of every run of the kernel. -/
theorem forest_of_run {m : Kmem} {t : List (Kernel × Op)} (hr : Run Step (boot m) t k) :
    (∀ x ∈ t, Forest x.1.sched) ∧ Forest k.sched :=
  have h := parentInv_run hr
  ⟨fun x hx => (h.1 x hx).2.forest (h.1 x hx).1, h.2.2.forest h.2.1⟩

/-- Free pages for three processes. -/
def largerMem : Kmem := ⟨1024, List.range' 1024 210⟩

/-- A child forks and exits: its own child, slot 2, is adopted by the first process. -/
theorem forest_of_run_adopted : ∃ t k, Run Step (boot largerMem) t k ∧
    ((k.sched.proc 1).state = .zombie ∧ (k.sched.proc 2).parent = some 0) ∧ Forest k.sched := by
  obtain ⟨k, hr, hq⟩ := exists_run step_of_exec? (boot largerMem)
    (forkOps ++ [.fork2 1 (-1), .exit 1])
    (fun k => (k.sched.proc 1).state = .zombie ∧ (k.sched.proc 2).parent = some 0)
    (by decide +kernel)
  exact ⟨_, k, hr, hq, (forest_of_run hr).2⟩

end Kernel

end Xv6
