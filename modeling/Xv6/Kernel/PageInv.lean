import Xv6.Kernel.SegSafe
import Xv6.Kernel.Stops
import Xv6.Kernel.Life

/-!
# Kernel — PageInv

Physical pages over whole runs.  `NoFreeMapped` says that no page on the free list is mapped at a
user address of a process that is not UNUSED, zombies included.  It does not hold in every run:
`shm_rem` of the last reference frees the page at the recorded address, although a zombie still
maps it, or although the recorded address holds something else; and the size that `shm_rem`
decrements can wrap, so that `growproc` reaches the kernel half.  `PageOk` excludes exactly these
steps, by what is mapped before them.

* `noFreeMapped_run`: in every run whose steps meet `PageOk`, no free page is mapped, and the next
  step that meets it frees no page twice.
* `shmRem_frees_mapped`: a run in which the page of a zombie is freed, and then freed again.
-/

namespace Xv6

open Lib Multiset Sched Vm

/-- The outcome is a double free. -/
def Res.isDoubleFree {α : Type} : Res α → Bool
  | .error (.doubleFree _) => true
  | _ => false

theorem Res.doubleFree_of_is {α : Type} {r : Res α} (h : r.isDoubleFree = true) :
    ∃ pg, r = .error (.doubleFree pg) := by
  unfold Res.isDoubleFree at h
  split at h
  · next pg => exact ⟨pg, rfl⟩
  · cases h

namespace Vm

variable {u u' : Slot → Bool} {v v₁ v' : Vm} {p np : Slot}

theorem allocKstack_false (h : v.allocKstack np = (false, v')) :
    v' = v.upd np fun e => { e with kstack := none } := by
  unfold allocKstack at h
  split at h
  · cases h; rfl
  · cases h

theorem allocKstack_true (h : v.allocKstack np = (true, v')) : ∃ pg m, kalloc v.mem = some (pg, m) ∧
    v' = { v.upd np fun e => { e with kstack := some pg } with mem := m } := by
  unfold allocKstack at h
  split at h
  · cases h
  · next pg m hk => cases h; exact ⟨pg, m, hk, rfl⟩

/-- A slot that is not used changes. -/
theorem MemInv.unused (h : MemInv u v) (hnp : u np = false) (f : PMem → PMem) :
    MemInv u (v.upd np f) := by
  refine h.slot (p := np) (.refl v) (fun _ _ => rfl) (fun q hq => by simp [hq]) ?_
  simp only [slotPages, hnp, upd_mem, Bool.false_eq_true, if_false, le_refl]

/-- **The memory of a child.**  A kernel stack was taken for the slot `np`.  Copying the address
space of `p` leaves a slot that may be used, or one whose kernel stack can be given back. -/
theorem forkMem_safe (h : MemInv u v) (hnp : u np = false) (ha : v.allocKstack np = (true, v₁))
    (hu : ∀ q, q ≠ np → u' q = u q) :
    Safe (v₁.copyMem p np) fun x => MemInv u' x.2 ∧ Safe (x.2.freeKstack np) (MemInv u) := by
  obtain ⟨pg, m, hk, rfl⟩ := allocKstack_true ha
  have hfree : v.mem.free.Nodup := (nodup_add.mp h.nodup).1
  have hn : ({pg} + m.free).Nodup := kalloc_free hk ▸ hfree
  refine (copyMem_safe (nodup_add.mp hn).2.1).mono fun x hx => ?_
  obtain ⟨hs, hq, hks, hle⟩ := hx
  have hs : SameSegs v x.2 := hs
  have hq : ∀ q, q ≠ np → x.2.proc q = v.proc q := fun q hqp => (hq q hqp).trans (by simp [hqp])
  have hks : pageTally (x.2.proc np).kstack = {pg} := by rw [hks]; simp [pageTally]
  have hle : x.2.mem.free + (x.2.proc np).held v.isShm ≤ v.mem.free := by
    rw [PMem.held, hks, add_left_comm, kalloc_free hk]
    exact add_le_add le_rfl hle
  have hslot : ∀ b, slotPages v.isShm b (x.2.proc np) ≤ (x.2.proc np).held v.isShm := fun b => by
    unfold slotPages
    split
    · exact le_rfl
    · exact zero_le _
  have hv : ∀ b, v.mem.free ≤ v.mem.free + slotPages v.isShm b (v.proc np) :=
    fun _ => le_add_right _ _
  constructor
  · refine h.slot hs hu (fun q hqp => by rw [hq q hqp]) ?_
    exact ((add_le_add le_rfl (hslot _)).trans hle).trans (hv _)
  · refine (freeKstack_safe (nodup_of_le hle hfree)).mono fun v' hv' => ?_
    obtain ⟨hs', hq', -, hm⟩ := hv'
    refine h.slot (p := np) (hs.trans hs') (fun _ _ => rfl)
      (fun q hqp => by rw [hq' q hqp, hq q hqp]) ?_
    simp only [slotPages, hnp, Bool.false_eq_true, if_false, add_zero]
    rw [hm, add_comm]
    refine le_trans (add_le_add le_rfl ?_) hle
    exact le_add_right _ _

/-- The slot of the first process, which has no address space yet. -/
theorem MemInv.newSlot (h : MemInv u v) (hd : (v.proc np).pgdir = none)
    (ha : v.allocKstack np = (true, v')) (hu : ∀ q, q ≠ np → u' q = u q) : MemInv u' v' := by
  obtain ⟨pg, m, hk, rfl⟩ := allocKstack_true ha
  refine h.slot (p := np) (.refl v) hu (fun q hq => by simp [hq]) ?_
  have hle : slotPages v.isShm (u' np) { v.proc np with kstack := some pg } ≤ {pg} := by
    unfold slotPages
    split
    · simp [PMem.held, pageTally, heldOpt, hd]
    · exact zero_le _
  simp only [upd_proc, if_true]
  refine (add_le_add le_rfl hle).trans ?_
  rw [kalloc_free hk, add_comm m.free]
  exact le_add_right _ _

/-- A process without references exits without `shm_rem`. -/
theorem exitOk_of_none (h : ∀ j, ((v.proc p).shms j).name = []) (js : List (Fin SHM_MAXNUM)) :
    ExitOk u p js v := by
  induction js with
  | nil => trivial
  | cons j js ih => rw [ExitOk, if_pos (h j)]; exact ih

end Vm

namespace Kernel

variable {k k₁ k' : Kernel} {p q : Slot} {op : Op}

/-- The slots in use. -/
def used (s : Sched) (q : Slot) : Bool := (s.proc q).state ≠ .unused

/-- **No free page is mapped** at a user address of a process that is not UNUSED. -/
def NoFreeMapped (k : Kernel) : Prop :=
  ∀ q d a e, (k.sched.proc q).state ≠ .unused → (k.vm.proc q).pgdir = some d → a < KERNPAGE →
    walkpgdir d a = some (some e) → e.page ∉ k.vm.mem.freelist

/-- The pages of the kernel: no page is in two places, and before the first process there is no
address space. -/
structure PageInv (k : Kernel) : Prop where
  mem : MemInv (used k.sched) k.vm
  fresh : k.sched.nextpid = 1 → ∀ q, (k.vm.proc q).pgdir = none

/-- **The condition on a step**: it does not shrink a process whose size has wrapped, and where it
drops the last reference to a segment, that segment may be released. -/
def PageOk (k : Kernel) : Op → Prop
  | .growproc p n => n < 0 → (k.vm.proc p).sz ≤ KERNBASE
  | .shmRem p name => Vm.RemOk (used k.sched) k.vm p name
  | .exit p => Vm.ExitOk (used k.sched) p (List.finRange SHM_MAXNUM) k.vm
  | _ => True

theorem PageInv.noFreeMapped (h : PageInv k) : NoFreeMapped k := by
  intro q d a e hq hd ha he hf
  have hm : e.page ∈ k.vm.userPages (used k.sched) :=
    mem_userPages.mpr ⟨q, a, by simpa [used] using hq, d, hd, ha, e, he, rfl⟩
  exact h.mem.not_free hm (Kmem.mem_free.mpr hf)

theorem used_keep {s s' : Sched} (h : Keep s s') : used s' = used s :=
  funext fun q => by simp only [used, ne_eq, (h.entry q).unused]

theorem used_upd {s : Sched} (f : PEntry → PEntry) (hq : q ≠ p) :
    used (s.upd p f) q = used s q := by
  simp only [used, upd_proc_ne hq]

theorem inUser.used (h : k.inUser p) : used k.sched p = true := by
  simp [Kernel.used, h.1]

/-- The slot of a process whose address space could not be copied is free again. -/
theorem used_free {s s₁ : Sched} {np : Slot} (hnp : used s np = false)
    (hu : ∀ q, q ≠ np → used s₁ q = used s q) : used (s₁.upd np PEntry.free) = used s :=
  funext fun q => by
    by_cases hq : q = np
    · rw [hq, hnp]; simp [used, PEntry.free]
    · rw [used_upd _ hq, hu q hq]

/-- A zombie is in use. -/
theorem used_zombie {s : Sched} (hp : used s p = true) :
    used (s.upd p fun e => { e with state := .zombie }) = used s :=
  funext fun q => by
    by_cases hq : q = p
    · rw [hq, hp]; simp [used]
    · rw [used_upd _ hq]

/-! ### One step -/

theorem pageInv_boot {m : Kmem} (hm : m.freelist.Nodup) : PageInv (boot m) where
  mem := by
    refine ⟨?_, fun _ _ => rfl⟩
    have hp : (boot m).vm.procPages (used (boot m).sched) (boot m).vm.isShm = 0 := by
      unfold procPages
      exact Finset.sum_eq_zero fun _ _ => rfl
    have hs : (boot m).vm.segPages = 0 := by
      unfold segPages
      exact Finset.sum_eq_zero fun _ _ => rfl
    rw [pages, hp, hs, add_zero, add_zero]
    exact coe_nodup.mpr hm
  fresh _ _ := rfl

/-- A step that leaves the memory and the used slots alone. -/
theorem PageInv.keep (h : PageInv k) (hs : Keep k.sched k'.sched) (hv : k'.vm = k.vm) :
    PageInv k' :=
  ⟨by rw [used_keep hs, hv]; exact h.mem, fun hn q => by
    rw [hv]; exact h.fresh (hs.nextpid ▸ hn) q⟩

theorem nextpid_ne_of_used (hpid : PidInv k.sched) (hp : (k.sched.proc p).state ≠ .unused) :
    k.sched.nextpid ≠ 1 := by
  have h₁ := hpid.pos p hp
  have h₂ := (hpid.bound p).2
  omega

/-- A call of `p` on the memory. -/
theorem pageInv_call (hpid : PidInv k.sched) (hp : k.inUser p) {v : Vm}
    (hv : MemInv (used k.sched) v) : PageInv { k with vm := v } :=
  ⟨hv, fun hn => absurd hn (nextpid_ne_one hpid hp)⟩

/-- What `allocproc` leaves: the slot of the new process, if there is one, has the memory that it
had, and a kernel stack. -/
theorem alloc_pages {cur r : Option Slot} {cid : Int} (h : PageInv k) (hpid : PidInv k.sched)
    (ha : k.allocproc cur cid = .ok (r, k')) : (r = none ∧ PageInv k') ∨
    ∃ np, r = some np ∧ used k.sched np = false ∧ k'.sched.nextpid ≠ 1 ∧
      (k'.sched.proc np).state ≠ .unused ∧
      (∀ q, q ≠ np → used k'.sched q = used k.sched q) ∧ k.vm.allocKstack np = (true, k'.vm) := by
  rcases allocproc_cases ha with ⟨rfl, rfl⟩ | ⟨i, s, hi, he, hr⟩
  · exact .inl ⟨rfl, h⟩
  have hk := embryo_cases he
  have hn : s.nextpid ≠ 1 := by
    have h₁ := hpid.nextpid
    have h₂ : s.nextpid = k.sched.nextpid + 1 := hk.nextpid
    omega
  have hi' : used k.sched i = false := by simp [used, hi]
  have hu : ∀ q, q ≠ i → used s q = used k.sched q := fun q hq => by
    rw [used_keep hk]
    exact used_upd _ hq
  have hne : (s.proc i).state ≠ .unused := (embryo_live_self he).1
  rcases hr with ⟨rfl, hv, -, hs⟩ | ⟨rfl, hv, -, hs⟩
  · -- no page for the kernel stack: the slot is free again
    refine .inl ⟨rfl, ?_, fun hn' => absurd hn' (by rw [hs]; exact hn)⟩
    rw [hs, used_free hi' hu, allocKstack_false hv]
    exact h.mem.unused hi' _
  · refine .inr ⟨i, rfl, hi', by rw [hs]; exact hn, ?_, fun q hq => ?_, hv⟩
    · rw [hs, upd_proc_self]; exact hne
    · rw [hs, used_upd _ hq, hu q hq]

/-- **One step.** -/
theorem pageInv_step (h : PageInv k) (hpid : PidInv k.sched) (hs : Step k op k')
    (ho : PageOk k op) : PageInv k' := by
  cases step_kind hs with
  | still _ hm => exact h.keep hm.sched.keep hm.vm
  | scheduler hd => exact h.keep (keep_scheduler hd) rfl
  | prioSet _ hp => exact h.keep (keep_prioSet hp) rfl
  | growproc hp hg =>
    exact pageInv_call hpid hp ((growproc_safe h.mem hp.used ho).post _ hg)
  | exec hp hx => exact pageInv_call hpid hp ((exec_safe h.mem hp.used).post _ hx)
  | shmGet hp hg => exact pageInv_call hpid hp ((shmGet_safe h.mem hp.used).post _ hg)
  | shmRem hp hr => exact pageInv_call hpid hp ((shmRem_safe h.mem hp.used ho).post _ hr)
  | mutexCreate | mutexGet => exact h.keep (.refl _) rfl
  | mutexDelete hp =>
    exact h.keep ((calm_vm _).mutexDelete _ _).1.keep ((calm_vm _).mutexDelete _ _).2
  | allocFirst hn ha =>
    rcases alloc_pages h hpid ha with ⟨-, h'⟩ | ⟨np, -, -, hn', -, hu, hv⟩
    · exact h'
    · exact ⟨h.mem.newSlot (h.fresh hn np) hv hu, fun h₁ => absurd h₁ hn'⟩
  | @userinit p _ hp hi =>
    obtain ⟨hc, hv, -⟩ := userinit_cases hp hi
    have hp' : (k.sched.proc p).state ≠ .unused := by simp [hp]
    refine ⟨?_, fun hn => absurd (hc.nextpid ▸ hn) (nextpid_ne_of_used hpid hp')⟩
    rw [used_keep hc.keep]
    exact (initMem_safe h.mem (by simp [used, hp])).post _ hv
  | @fork2 p cid r _ hp hf =>
    rcases fork2_cases hf with ha | ⟨np, k₁, ha, -, hf⟩
    · rcases alloc_pages h hpid ha with ⟨-, h'⟩ | ⟨np, e, -⟩
      · exact h'
      · cases e
    rcases alloc_pages h hpid ha with ⟨e, -⟩ | ⟨_, e, hnp, hn, hne, hu, hv⟩
    · cases e
    cases e
    rcases hf with ⟨v, hc, hk, hs⟩ | ⟨v, hc, hk, hs⟩
    · -- the copy failed: the slot is free again
      refine ⟨?_, fun h₁ => absurd h₁ (by rw [hs]; exact hn)⟩
      rw [hs, used_free hnp hu]
      exact ((forkMem_safe h.mem hnp hv hu).post _ hc).2.post _ hk
    have hch := child_cases hs
    refine ⟨?_, fun h₁ => absurd h₁ (by rw [hch.nextpid]; exact hn)⟩
    rw [used_keep hch, hk]
    exact ((forkMem_safe h.mem hnp hv fun q hq => (used_upd _ hq).trans (hu q hq)).post
      _ hc).1.inherit
  | @exit p _ hp he =>
    obtain ⟨-, v, s, hv, hr, rfl⟩ := exit_cases he
    have hk := exit_keep v hr
    refine ⟨?_, fun h₁ => absurd (hk.nextpid ▸ h₁) (nextpid_ne_one hpid hp)⟩
    dsimp only
    rw [((calm_vm p).exitLocks _ _).2, used_zombie, used_keep hk]
    · exact (exitShm_safe hp.used _ h.mem ho).post _ hv
    · rw [used_keep hk]; exact hp.used
  | @reap _ q _ _ hq hv _ hc =>
    have hq' : (k.sched.proc q).state ≠ .unused := by simp [hq]
    refine ⟨?_, fun h₁ => absurd (hc.nextpid ▸ h₁) (nextpid_ne_of_used hpid hq')⟩
    rw [used_keep hc.keep]
    refine (reap_safe h.mem (by simp [used, hq]) (fun p hp => used_upd _ hp) ?_).post _ hv
    simp [used, PEntry.reaped]

theorem fork2_safe {cid : Int} (h : PageInv k) (hpid : PidInv k.sched) : Quiet (k.fork2 p cid) := by
  refine Safe.bind ((faults_allocproc k (some p) cid).quiet.safe fun x hx => alloc_pages h hpid hx)
    fun x hx => ?_
  obtain ⟨r, k₁⟩ := x
  rcases hx with ⟨hr, -⟩ | ⟨np, hr, hnp, -, -, hu, hv⟩
  · cases hr; exact Quiet.ok
  cases hr
  refine Safe.bind (forkMem_safe h.mem hnp hv hu) fun y hy => ?_
  obtain ⟨r, v⟩ := y
  cases r with
  | false => exact hy.2.bind fun _ _ => Quiet.ok
  | true => exact ((faults_child ..).bind fun _ => .ok).quiet

theorem exit_safe (h : PageInv k) (hp : k.inUser p) (ho : PageOk k (.exit p)) :
    Quiet (k.exit p) := by
  unfold exit
  split
  · exact Safe.panic
  · exact (exitShm_safe hp.used _ h.mem ho).bind fun _ _ =>
      ((faults_removeNode ..).bind fun _ => .ok).quiet

theorem wait_safe (h : PageInv k) : Quiet (k.wait p) := by
  unfold wait
  split
  · next q hq =>
    have hst : (k.sched.proc q).parent = some p ∧ (k.sched.proc q).state = .zombie := by
      simpa using List.find?_some hq
    have hr : Safe (k.vm.reap q) (MemInv (used (k.sched.upd q PEntry.reaped))) :=
      reap_safe h.mem (by simp [used, hst.2]) (fun p hp => used_upd _ hp)
        (by simp [used, PEntry.reaped])
    exact hr.bind fun _ _ => ((faults_leaveContainer ..).bind fun _ => .ok).quiet
  · split
    · exact .ok
    · exact .ok

theorem resume_safe (h : PageInv k) : Quiet (k.resume p) := by
  unfold resume
  split
  · exact .ok
  · exact wait_safe h
  · exact .ok
  · exact .ok
  · exact .ok

theorem faults_cvWait (k : Kernel) (p : Slot) (muxid : Int) : Faults (k.cvWait p muxid) := by
  unfold cvWait
  split
  · exact .ok
  split
  · split
    · exact .ok
    · exact .fault
  · exact .ok

/-- **No double free.** -/
theorem step_noFree (h : PageInv k) (hpid : PidInv k.sched) (he : k.Enabled op) (ho : PageOk k op)
    (pg : Page) : k.step op ≠ .error (.doubleFree pg) := by
  cases op with
  | allocFirst => exact ((faults_allocproc k _ _).bind fun _ => .ok).quiet.noFree pg
  | userinit p =>
    have hp : used k.sched p = true := by simpa [used] using congrArg (· ≠ ProcState.unused) he
    exact (((initMem_safe h.mem hp).bind fun _ _ => Quiet.ok).bind fun _ _ =>
      Quiet.ok).noFree pg
  | fork2 p cid => exact ((fork2_safe h hpid).bind fun _ => .ok).noFree pg
  | exit p => exact ((exit_safe h he ho).bind fun _ => .ok).noFree pg
  | wait p => exact (wait_safe h).noFree pg
  | kill | yield | sleep | wakeup | mutexGet | mutexDelete | mutexLock | mutexUnlock | cvSignal |
    containers => exact (Quiet.ok).noFree pg
  | scheduler => exact ((faults_scheduler _).bind fun _ => .ok).quiet.noFree pg
  | prioSet p pid priority => exact ((faults_prioSet ..).bind fun _ => .ok).quiet.noFree pg
  | resume p => exact (resume_safe h).noFree pg
  | growproc p n =>
    exact ((growproc_safe h.mem he.used ho).bind fun _ _ => Quiet.ok).noFree pg
  | exec p file argv => exact ((exec_safe h.mem he.used).bind fun _ _ => Quiet.ok).noFree pg
  | shmGet p name => exact ((shmGet_safe h.mem he.used).bind fun _ _ => Quiet.ok).noFree pg
  | shmRem p name =>
    exact ((shmRem_safe h.mem he.used ho).bind fun _ _ => Quiet.ok).noFree pg
  | mutexCreate p name => exact ((Mux.faults_mutexCreate ..).bind fun _ => .ok).quiet.noFree pg
  | cvWait p muxid => exact (faults_cvWait k p muxid).quiet.noFree pg

/-- **Pages over whole runs.** -/
theorem noFreeMapped_run {m : Kmem} {t : List (Kernel × Op)} (hm : m.freelist.Nodup)
    (hr : Run Step (boot m) t k) (hok : ∀ x ∈ t, PageOk x.1 x.2) :
    ((∀ x ∈ t, NoFreeMapped x.1) ∧ NoFreeMapped k) ∧
    ∀ op pg, k.Enabled op → PageOk k op → k.step op ≠ .error (.doubleFree pg) := by
  have hinv := hr.inv (I := fun k => PidInv k.sched ∧ PageInv k)
    (fun k op k' h hs (ho : PageOk k op) => ⟨pidInv_step h.1 hs, pageInv_step h.2 h.1 hs ho⟩)
    ⟨.pinit, pageInv_boot hm⟩ hok
  exact ⟨⟨fun x hx => (hinv.1 x hx).2.noFreeMapped, hinv.2.2.noFreeMapped⟩,
    fun op pg he ho => step_noFree hinv.2.2 hinv.2.1 he ho pg⟩

/-- A segment shared by a fork: the child removes its reference and exits. -/
theorem noFreeMapped_fork : ∃ t k, Run Step (boot smallMem) t k ∧
    ((k.vm.shm 0).refCount = 1 ∧ (k.sched.proc 1).state = .zombie) ∧
    (((∀ x ∈ t, NoFreeMapped x.1) ∧ NoFreeMapped k) ∧
      ∀ op pg, k.Enabled op → PageOk k op → k.step op ≠ .error (.doubleFree pg)) := by
  let ops : List Op := [.allocFirst, .userinit 0, .scheduler, .shmGet 0 [97], .fork2 0 (-1),
    .scheduler, .shmRem 1 [97], .exit 1]
  obtain ⟨k, hr, hk⟩ := exists_run step_of_exec? (boot smallMem) ops
    (fun k => (k.vm.shm 0).refCount = 1 ∧ (k.sched.proc 1).state = .zombie) (by decide +kernel)
  have hops : ∀ x ∈ traceFn exec? (boot smallMem) ops, x.2 ∈ ops ∧
      (x.2 = .shmRem 1 [97] → ∀ i, (x.1.vm.shm i).refCount ≠ 1) ∧
      (x.2 = .exit 1 → ∀ i, ((x.1.vm.proc 1).shms i).name = []) := by
    decide +kernel
  refine ⟨_, k, hr, hk, noFreeMapped_run (by decide +kernel) hr fun ⟨k', op⟩ hx => ?_⟩
  obtain ⟨hop, hrem, hexit⟩ := hops _ hx
  obtain rfl | rfl | rfl | rfl | rfl | rfl | rfl | rfl : op = .allocFirst ∨ op = .userinit 0 ∨
      op = .scheduler ∨ op = .shmGet 0 [97] ∨ op = .fork2 0 (-1) ∨ op = .scheduler ∨
      op = .shmRem 1 [97] ∨ op = .exit 1 := by simpa [ops] using hop
  case inr.inr.inr.inr.inr.inr.inl => exact fun i _ h₁ => absurd h₁ (hrem rfl i)
  case inr.inr.inr.inr.inr.inr.inr => exact exitOk_of_none (hexit rfl) _
  all_goals trivial

/-- **A page freed while a zombie maps it.**  The parent and its child share a segment; the child
exits, and the parent removes the last reference.  When the parent reaps the child, the page is
freed again. -/
theorem shmRem_frees_mapped : ∃ t k, Run Step (boot smallMem) t k ∧ ¬ NoFreeMapped k ∧
    k.Enabled (.wait 0) ∧ ∃ pg, k.step (.wait 0) = .error (.doubleFree pg) := by
  obtain ⟨k, hr, ⟨hm, hz⟩, he, hd⟩ := exists_run step_of_exec? (boot smallMem)
    [.allocFirst, .userinit 0, .scheduler, .shmGet 0 [97], .fork2 0 (-1), .scheduler, .exit 1,
      .shmRem 0 [97]]
    (fun k => ((((k.vm.proc 1).pgdir.bind fun d => (walkpgdir d 1).join).any fun e =>
        decide (e.page ∈ k.vm.mem.freelist)) = true ∧ (k.sched.proc 1).state = .zombie) ∧
      k.Enabled (.wait 0) ∧ (k.step (.wait 0)).isDoubleFree = true) (by decide +kernel)
  refine ⟨_, k, hr, fun h => ?_, he, Res.doubleFree_of_is hd⟩
  obtain ⟨e, he, hf⟩ := (Option.any_eq_true _ _).mp hm
  obtain ⟨d, hd, hw⟩ := Option.bind_eq_some_iff.mp he
  exact h 1 d 1 e (by simp [hz]) hd (by decide) (Option.join_eq_some_iff.mp hw)
    (of_decide_eq_true hf)

end Kernel

end Xv6
