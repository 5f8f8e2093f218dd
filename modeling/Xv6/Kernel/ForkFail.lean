import Xv6.Kernel.HandleCount
import Xv6.Kernel.Limit
import Xv6.Kernel.QueueInv

/-!
# Kernel — ForkFail

What a `fork2` that returns -1 leaves behind.  It can fail before it has changed anything: there is
no UNUSED slot, or `setnextproc` refuses the process.  If it fails later, for lack of memory, it
makes its slot UNUSED again and does not take back the rest: the slot keeps the pid it was given
(`kill` and `prio_set` find it), the count of the container stays raised, and after the kernel
stack was found the counts of the caller's mutexes do too.

* `fork2_failed_iff`: the kernel is as before exactly when `fork2` failed early.
* `fork2_failed_late`: what a late failure leaves.
* `fork2_leaks`: a failure in `copyuvm` that leaves a count of each kind.
-/

namespace Xv6.Kernel

open Lib Sched
variable {k k₁ k' : Kernel} {p np : Slot} {cid r : Int} {con con' : Containers} {val : Nat}
  {cur : Option Slot} {v v' : Vm} {b : Bool}

/-- The kernel state is the same in `k'` as in `k`, apart from `nextpid` and the order of the free
list.  Files and inodes are not part of it: `fork2` takes its references to them after the last
step that can fail. -/
structure AsBefore (k k' : Kernel) : Prop where
  slots : k'.sched.proc = k.sched.proc
  queue : k'.sched.queue = k.sched.queue
  counts : ∀ g, (k'.mux.mutexes g).count = (k.mux.mutexes g).count
  active : ∀ c, (k'.con c).activeProcesses = (k.con c).activeProcesses
  segments : ∀ i, (k'.vm.shm i).refCount = (k.vm.shm i).refCount
  pages : k'.vm.mem.freelist.Perm k.vm.mem.freelist

/-- The container `cid` has too many processes for `setnextproc`. -/
def Full (con : Containers) (cid : Int) : Prop :=
  ∃ c : Fin MAX_NUM_CONTAINERS, cid = c ∧ (con c).alive = true ∧
    (con c).activeProcesses > (con c).maxProc + 1

/-- `fork2(cid)` fails before it changes anything. -/
def FailsEarly (k : Kernel) (cid : Int) : Prop :=
  (∀ i, (k.sched.proc i).state ≠ .unused) ∨ Full k.con cid

theorem conIndex_coe (c : Fin MAX_NUM_CONTAINERS) : conIndex c = .ok c := by
  have h : (0 : Int) ≤ (c : Int) ∧ (c : Int) < MAX_NUM_CONTAINERS := by omega
  simp [conIndex, h]

/-- `setnextproc` refuses exactly a full container. -/
theorem setnextproc_neg (h : setnextproc con cid val = .ok (r, con')) : r < 0 ↔ Full con cid := by
  unfold setnextproc at h
  split at h
  · obtain ⟨c, hc, h⟩ := of_bind h
    have hcid := conIndex_eq_ok hc
    have hfull : Full con cid ↔ (con c).alive = true ∧
        (con c).activeProcesses > (con c).maxProc + 1 := by
      refine ⟨fun ⟨d, hd, hf⟩ => ?_, fun hf => ⟨c, hcid.symm, hf⟩⟩
      obtain rfl : d = c := Fin.ext (by omega)
      exact hf
    rw [hfull]
    split at h
    · next hf => cases h; exact iff_of_true (by decide) hf
    · next hf => cases h; exact iff_of_false (by decide) hf
  · next hneg =>
    cases h
    refine iff_of_false (by decide) ?_
    rintro ⟨d, hd, -⟩
    omega

theorem allocproc_early (h : FailsEarly k cid) : k.allocproc cur cid = .ok (none, k) := by
  unfold allocproc
  split
  · rfl
  next i hi =>
  have hst : (k.sched.proc i).state = .unused := by simpa using List.find?_some hi
  rcases h with hno | hfull
  · exact absurd hst (hno i)
  have hset : setnextproc k.con cid i = .ok (-1, k.con) := by
    obtain ⟨c, rfl, hf⟩ := hfull
    unfold setnextproc
    rw [if_pos (by omega), conIndex_coe]
    exact if_pos hf
  rw [hset]
  rfl

/-- The slot that `allocproc` takes: the first one that is UNUSED. -/
def freeSlot (k : Kernel) : Option Slot :=
  (List.finRange NPROC).find? fun i => (k.sched.proc i).state = .unused

/-- Past the early checks, `allocproc` takes a slot and raises the count of the container. -/
theorem allocproc_late {r : Option Slot} (h : k.allocproc cur cid = .ok (r, k'))
    (hl : ¬ FailsEarly k cid) :
    ∃ i s, k.freeSlot = some i ∧ (k.sched.proc i).state = .unused ∧ k.sched.embryo i = .ok s ∧
      (∃ v, 0 ≤ v ∧ setnextproc k.con cid i = .ok (v, k'.con)) ∧
      ((r = none ∧ k.vm.allocKstack i = (false, k'.vm) ∧ k'.mux = k.mux ∧
          k'.sched = s.upd i PEntry.free) ∨
        (r = some i ∧ k.vm.allocKstack i = (true, k'.vm) ∧
          k'.sched = s.upd i fun e => { e with context := .user })) := by
  unfold allocproc at h
  split at h
  · next hno =>
    refine absurd (.inl fun i hi => ?_) hl
    exact absurd (List.find?_eq_none.mp hno i (List.mem_finRange i)) (by simp [hi])
  next i hi =>
  have hst : (k.sched.proc i).state = .unused := by simpa using List.find?_some hi
  obtain ⟨⟨v, con⟩, hv, h⟩ := of_bind h
  dsimp only at h
  split at h
  · next hneg => exact absurd (.inr ((setnextproc_neg hv).mp hneg)) hl
  next hpos =>
  obtain ⟨s, hs, h⟩ := of_bind h
  refine ⟨i, s, hi, hst, hs, ⟨v, by omega, ?_⟩, ?_⟩
  · rw [hv]
    split at h
    · cases h; rfl
    · obtain ⟨mux, -, h⟩ := of_bind h
      cases h; rfl
  · split at h
    · next hk => cases h; exact .inl ⟨rfl, hk, rfl, rfl⟩
    · next hk =>
      obtain ⟨mux, -, h⟩ := of_bind h
      cases h
      exact .inr ⟨rfl, hk, rfl⟩

/-- What a late failure leaves: the slot `np` is UNUSED again with the pid it was given, and the
count of its container, and of the caller's mutexes once there was a kernel stack, stay raised.
Other slots, the run queue and the segments are as before. -/
structure Leftover (k : Kernel) (p : Slot) (cid : Int) (np : Slot) (k' : Kernel) : Prop where
  unused : (k.sched.proc np).state = .unused ∧ (k'.sched.proc np).state = .unused
  pid : (k'.sched.proc np).pid = k.sched.nextpid
  others : ∀ i, i ≠ np → k'.sched.proc i = k.sched.proc i
  queue : k'.sched.queue = k.sched.queue
  segments : ∀ i, k'.vm.shm i = k.vm.shm i
  active : ∀ c : Fin MAX_NUM_CONTAINERS, (k'.con c).activeProcesses =
    (k.con c).activeProcesses + if cid = c then 1 else 0
  counts : ∀ g, (k'.mux.mutexes g).count = (k.mux.mutexes g).count +
    if k.vm.mem.freelist = [] then 0 else Mux.held (k.mux.locks p) g

theorem allocKstack_shm (h : v.allocKstack np = (b, v')) :
    v'.shm = v.shm ∧ (b = true ↔ v.mem.freelist ≠ []) := by
  unfold Vm.allocKstack kalloc at h
  split at h
  · next hk =>
    cases h
    refine ⟨rfl, ?_⟩
    split at hk
    · next hf => simp [hf]
    · cases hk
  · next pg m hk =>
    cases h
    refine ⟨rfl, ?_⟩
    split at hk
    · cases hk
    · next hf => simp [hf]

theorem copyMem_shm (h : v.copyMem p np = .ok (b, v')) : v'.shm = v.shm := by
  obtain ⟨d, -, h⟩ := of_bind h
  obtain ⟨⟨o, m⟩, -, h⟩ := of_bind h
  cases o <;> cases h <;> rfl

theorem freeKstack_shm (h : v.freeKstack np = .ok v') : v'.shm = v.shm := by
  unfold Vm.freeKstack at h
  split at h
  · cases h
  · obtain ⟨m, -, h⟩ := of_bind h
    cases h; rfl

/-- The count of each container after `setnextproc` let a process in. -/
theorem setnextproc_active (h : setnextproc con cid val = .ok (r, con')) (hr : 0 ≤ r)
    (c : Fin MAX_NUM_CONTAINERS) :
    (con' c).activeProcesses = (con c).activeProcesses + if cid = c then 1 else 0 := by
  rcases (setnextproc_admits h hr c).2.2 with ⟨hne, ha⟩ | ⟨he, ha, -⟩
  · rw [if_neg hne, ha, add_zero]
  · rw [if_pos he, ha]

/-- **A late failure.** -/
theorem fork2_failed_late (hpid : PidInv k.sched) (hp : k.inUser p)
    (h : k.fork2 p cid = .ok (-1, k')) (hl : ¬ FailsEarly k cid) :
    ∃ np, Leftover k p cid np k' := by
  have hn := nextpid_ne_one hpid hp
  obtain ⟨⟨r, k₁⟩, ha, h⟩ := of_bind h
  obtain ⟨i, s, -, hst, he, ⟨v, hv, hset⟩, hrest⟩ := allocproc_late ha hl
  obtain ⟨hoff, hipid, -⟩ := embryo_later hn he
  have hact := setnextproc_active hset hv
  rcases hrest with ⟨rfl, hk, hm, hs⟩ | ⟨rfl, hk, hs⟩
  · -- no page for the kernel stack
    cases h
    obtain ⟨hshm, hfree⟩ := allocKstack_shm hk
    refine ⟨i, ⟨hst, ?_⟩, ?_, fun j hj => ?_, ?_, fun j => by rw [hshm], hact, fun g => ?_⟩
    · rw [hs, upd_proc_self]; rfl
    · rw [hs, upd_proc_self]; exact hipid
    · rw [hs, upd_proc_ne hj]; exact hoff.proc j hj
    · rw [hs]; exact hoff.queue
    · rw [if_pos (by simpa using hfree), hm, add_zero]
  · obtain ⟨hshm, hfree⟩ := allocKstack_shm hk
    have hcount := fork_count hpid hp ha
    dsimp only at h
    obtain ⟨⟨ok, v₁⟩, hv₁, h⟩ := of_bind h
    cases ok with
    | true =>
      -- a child was made, and its pid returned
      obtain ⟨s', -, h⟩ := of_bind h
      have hr := congrArg Prod.fst (Except.ok.inj h)
      have hpi : k₁.pid i = k.sched.nextpid := by
        unfold pid; rw [hs, upd_proc_self]; exact hipid
      have := hpid.nextpid
      dsimp only at hr
      omega
    | false =>
      obtain ⟨v₂, hv₂, h⟩ := of_bind h
      cases h
      refine ⟨i, ⟨hst, ?_⟩, ?_, fun j hj => ?_, ?_, fun j => ?_, hact, fun g => ?_⟩
      · rw [upd_proc_self]; rfl
      · rw [upd_proc_self, hs, upd_proc_self]; exact hipid
      · rw [upd_proc_ne hj, hs, upd_proc_ne hj]; exact hoff.proc j hj
      · dsimp only; rw [upd_queue, hs]; exact hoff.queue
      · rw [freeKstack_shm hv₂, copyMem_shm hv₁, hshm]
      · rw [if_neg (by simpa using hfree)]; exact (hcount g).1

/-- **When a failed `fork2` changes nothing.**  In every reachable state, if `fork2(cid)` called by
`p` returns -1, the kernel state is as before iff there was no UNUSED slot or the container was
full. -/
theorem fork2_failed_iff {m : Kmem} {t : List (Kernel × Op)} (hr : Run Step (boot m) t k)
    (hp : k.inUser p) (h : k.fork2 p cid = .ok (-1, k')) : AsBefore k k' ↔ FailsEarly k cid := by
  have hpid : PidInv k.sched :=
    (hr.inv_all (I := fun k => PidInv k.sched) (fun _ _ _ hi hs => pidInv_step hi hs) .pinit).2
  refine ⟨fun hb => ?_, fun he => ?_⟩
  · by_contra hl
    obtain ⟨np, hleft⟩ := fork2_failed_late hpid hp h hl
    -- the slot has a pid that no slot had before
    have hnew := hleft.pid
    rw [hb.slots] at hnew
    have := (hpid.bound np).2
    omega
  · unfold fork2 at h
    rw [allocproc_early he] at h
    cases h
    exact ⟨rfl, rfl, fun _ => rfl, fun _ => rfl, fun _ => rfl, .refl _⟩

/-- Memory for the first process and two pages more. -/
def tightMem : Kmem := ⟨1024, List.range' 1024 70⟩

/-- Container 0 has three processes although its limit is 1. -/
def fullCon : Containers := Function.update (fun _ => ⟨false, 0, 0, 0⟩) con0 ⟨true, 1, 0, 3⟩

/-- `fork2` into a full container leaves everything as it was. -/
theorem fork2_failed_full : ∃ t k k', Run Step (boot tightMem) t k ∧
    k.fork2 0 0 = .ok (-1, k') ∧ AsBefore k k' := by
  obtain ⟨k, hr, hp, hf, hfull⟩ := exists_run step_of_exec? (boot tightMem)
    [.allocFirst, .userinit 0, .scheduler, .containers fullCon]
    (fun k => k.inUser 0 ∧ Res.returns (fun x => x.1 = -1) (k.fork2 0 0) = true ∧
      (k.con con0).alive = true ∧ (k.con con0).activeProcesses > (k.con con0).maxProc + 1)
    (by decide +kernel)
  obtain ⟨⟨r, k'⟩, hs, h⟩ := Res.of_returns hf
  obtain rfl : r = -1 := of_decide_eq_true h
  exact ⟨_, k, k', hr, hs, (fork2_failed_iff hr hp hs).mpr (.inr ⟨con0, rfl, hfull⟩)⟩

/-- **A failed `fork2` leaks.**  The caller has a mutex and forks into container 0.  There is a
page for the kernel stack and one for the page directory, and no more: `fork2` returns -1 with the
count of the container and the count of the mutex raised. -/
theorem fork2_leaks : ∃ t k k', Run Step (boot tightMem) t k ∧ k.inUser 0 ∧
    k.fork2 0 0 = .ok (-1, k') ∧ ¬ AsBefore k k' ∧
    ((k'.con con0).activeProcesses = (k.con con0).activeProcesses + 1 ∧
      (k'.mux.mutexes 0).count = (k.mux.mutexes 0).count + 1) := by
  obtain ⟨k, hr, hp, hf⟩ := exists_run step_of_exec? (boot tightMem)
    [.allocFirst, .userinit 0, .scheduler, .mutexCreate 0 [97]]
    (fun k => k.inUser 0 ∧ Res.returns (fun x => x.1 = -1 ∧
      (x.2.con con0).activeProcesses = (k.con con0).activeProcesses + 1 ∧
      (x.2.mux.mutexes 0).count = (k.mux.mutexes 0).count + 1) (k.fork2 0 0) = true)
    (by decide +kernel)
  obtain ⟨⟨r, k'⟩, hs, h⟩ := Res.of_returns hf
  obtain ⟨rfl, ha, hc⟩ := of_decide_eq_true h
  refine ⟨_, k, k', hr, hp, hs, fun hb => ?_, ha, hc⟩
  have hsame : (k'.mux.mutexes 0).count = (k.mux.mutexes 0).count := hb.counts 0
  have hraised : (k'.mux.mutexes 0).count = (k.mux.mutexes 0).count + 1 := hc
  omega

end Xv6.Kernel
