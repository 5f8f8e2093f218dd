import Xv6.Kernel.Life
import Mathlib.Algebra.BigOperators.Fin
import Mathlib.Algebra.Order.BigOperators.Group.Finset
import Mathlib.Data.Fintype.BigOperators
import Mathlib.Tactic.Ring

/-!
# Kernel — HandleCount

The count of a mutex against the handles to it.  `HandleInv` says that `mutexes[g].count` is the
number of handles of live processes that name `g`, so that `mutex_create` takes only a slot no
process has a handle to.

Three operations break it: `mutex_get` hands out a handle and does not count it, `mutex_create`
counts one it has no room for, and a `fork2` that fails in `copyuvm` has counted the handles of a
child that does not come to life.  `HandleInv` holds all along a run exactly when no step is one of
these (`handleInv_iff`).
-/

namespace Xv6

open Lib Function List Sched Finset Mux

/-! ### Counting handles -/

namespace Mux

variable {m m' : Mux} {p np : Slot} {g : Mid}

/-- The handles among `is` that name `g`. -/
def heldIn (l : Fin MUX_MAXNUM → Option Mid) (is : List (Fin MUX_MAXNUM)) (g : Mid) : Int :=
  (is.map fun i => if l i = some g then 1 else 0).sum

/-- The handles of a table that name `g`. -/
def held (l : Fin MUX_MAXNUM → Option Mid) (g : Mid) : Int := ∑ i, if l i = some g then 1 else 0

theorem held_eq_heldIn (l : Fin MUX_MAXNUM → Option Mid) (g : Mid) :
    held l g = heldIn l (finRange MUX_MAXNUM) g := Fin.sum_univ_def _

theorem heldIn_cons (l : Fin MUX_MAXNUM → Option Mid) (i : Fin MUX_MAXNUM)
    (is : List (Fin MUX_MAXNUM)) (g : Mid) :
    heldIn l (i :: is) g = (if l i = some g then 1 else 0) + heldIn l is g := rfl

theorem held_none (g : Mid) : held (fun _ => none) g = 0 := by simp [held]

theorem held_pos {l : Fin MUX_MAXNUM → Option Mid} {i : Fin MUX_MAXNUM} (h : l i = some g) :
    0 < held l g := by
  refine sum_pos' (fun i _ => by split <;> simp) ⟨i, mem_univ _, ?_⟩
  simp [h]

theorem held_update (l : Fin MUX_MAXNUM → Option Mid) (i : Fin MUX_MAXNUM) (v : Option Mid)
    (g : Mid) : held (update l i v) g =
      held l g + (if v = some g then 1 else 0) - if l i = some g then 1 else 0 := by
  unfold held
  rw [← add_sum_erase _ _ (mem_univ i),
    ← add_sum_erase univ (fun j => if l j = some g then (1 : Int) else 0) (mem_univ i)]
  have : ∀ j ∈ univ.erase i,
      (if update l i v j = some g then (1 : Int) else 0) = if l j = some g then 1 else 0 :=
    fun j hj => by rw [update_of_ne (ne_of_mem_erase hj)]
  rw [sum_congr rfl this, update_self]
  ring

@[simp] theorem addCount_locks (m : Mux) (g : Mid) (d : Int) : (m.addCount g d).locks = m.locks :=
  rfl

theorem upd_count (m : Mux) (g j : Mid) (f : Mutex → Mutex) : ((m.upd g f).mutexes j).count =
      if j = g then (f (m.mutexes g)).count else (m.mutexes j).count := by
  rw [upd_mutexes]
  split <;> rfl

theorem addCount_count (m : Mux) (g j : Mid) (d : Int) : ((m.addCount g d).mutexes j).count =
      (m.mutexes j).count + if some g = some j then d else 0 := by
  rw [addCount, upd_count]
  by_cases e : j = g
  · subst e; simp
  · simp [e, Ne.symm e]

theorem copyLock_spec (p np : Slot) (m : Mux) (i : Fin MUX_MAXNUM) :
    (copyLock p np m i).locks = (m.setLock np i (m.locks p i)).locks ∧
    ∀ g, ((copyLock p np m i).mutexes g).count =
      (m.mutexes g).count + if m.locks p i = some g then 1 else 0 := by
  have hself : (m.setLock np i (m.locks p i)).locks np i = m.locks p i := by
    rw [setLock_locks_self, update_self]
  simp only [copyLock, hself]
  cases m.locks p i with
  | none => exact ⟨rfl, by simp⟩
  | some g => exact ⟨rfl, fun j => by rw [addCount_count]; simp⟩

/-- The loop of `allocproc`: the handles `is` of `p` are copied to `np`, and counted. -/
theorem copyLocks_spec (hne : p ≠ np) : ∀ (is : List (Fin MUX_MAXNUM)) (m : Mux),
    (∀ q, q ≠ np → (copyLocks p np is m).locks q = m.locks q) ∧
    (∀ i, (copyLocks p np is m).locks np i = if i ∈ is then m.locks p i else m.locks np i) ∧
    ∀ g, ((copyLocks p np is m).mutexes g).count = (m.mutexes g).count + heldIn (m.locks p) is g
  | [], m => ⟨fun _ _ => rfl, fun _ => rfl, fun g => by simp [copyLocks, heldIn]⟩
  | i :: is, m => by
    obtain ⟨hl, hc⟩ := copyLock_spec p np m i
    obtain ⟨h₁, h₂, h₃⟩ := copyLocks_spec hne is (copyLock p np m i)
    have hp : (copyLock p np m i).locks p = m.locks p := by rw [hl, setLock_locks_ne hne]
    simp only [copyLocks, foldl_cons] at h₁ h₂ h₃ ⊢
    refine ⟨fun q hq => ?_, fun j => ?_, fun g => ?_⟩
    · rw [h₁ q hq, hl, setLock_locks_ne hq]
    · rw [h₂, hp, hl, setLock_locks_self]
      by_cases hj : j = i
      · subst hj; simp
      · simp [hj]
    · rw [h₃, hc, hp, heldIn_cons]
      ring

end Mux

namespace Kernel

variable {k k' k₁ : Kernel} {p q np : Slot} {g : Mid} {op : Op} {m : Mux} {i : Fin MUX_MAXNUM}
  {v : Option Mid} {name : CStr} {r cid : Int}

/-- One round of the loop of `exit`: the handle is counted off. -/
theorem exitLock_spec (p : Slot) (k : Kernel) (i : Fin MUX_MAXNUM) :
    (exitLock p k i).mux.locks = k.mux.locks ∧ ∀ g, ((exitLock p k i).mux.mutexes g).count =
      (k.mux.mutexes g).count - if k.mux.locks p i = some g then 1 else 0 := by
  unfold exitLock
  split
  · next h => exact ⟨rfl, by simp [h]⟩
  next g h =>
  have hc : ∀ j, ((k.mux.addCount g (-1)).mutexes j).count =
      (k.mux.mutexes j).count - if some g = some j then 1 else 0 := fun j => by
    rw [addCount_count]
    split <;> ring
  rw [h]
  dsimp only
  split
  · have hs := ((still p).releasesleep { k with mux := k.mux.addCount g (-1) } g).mux
    exact ⟨hs.locks, fun j => (hs.count j).trans (hc j)⟩
  · exact ⟨rfl, hc⟩

theorem exitLocks_spec (p : Slot) : ∀ (is : List (Fin MUX_MAXNUM)) (k : Kernel),
    (exitLocks p is k).mux.locks = k.mux.locks ∧ ∀ g, ((exitLocks p is k).mux.mutexes g).count =
      (k.mux.mutexes g).count - heldIn (k.mux.locks p) is g
  | [], k => ⟨rfl, fun g => by simp [exitLocks, heldIn]⟩
  | i :: is, k => by
    obtain ⟨hl, hc⟩ := exitLock_spec p k i
    obtain ⟨hl', hc'⟩ := exitLocks_spec p is (exitLock p k i)
    simp only [exitLocks, foldl_cons] at hl' hc' ⊢
    refine ⟨hl'.trans hl, fun g => ?_⟩
    rw [hc', hc, hl, heldIn_cons]
    ring

/-! ### The invariant -/

/-- The handles of live processes that name `g`. -/
def handles (k : Kernel) (g : Mid) : Nat :=
  (Finset.univ.filter fun x : Slot × Fin MUX_MAXNUM =>
    (k.sched.proc x.1).Live ∧ k.mux.locks x.1 x.2 = some g).card

/-- `count` is the number of handles, and the slot that `mutex_create` takes has none. -/
structure HandleInv (k : Kernel) : Prop where
  count : ∀ g, (k.mux.mutexes g).count = handles k g
  free : ∀ g, k.mux.freeMutex = some g → ∀ p i, (k.sched.proc p).Live → k.mux.locks p i ≠ some g

/-- The handles of one process that are counted for `g`. -/
def share (k : Kernel) (g : Mid) (p : Slot) : Int :=
  if (k.sched.proc p).Live then Mux.held (k.mux.locks p) g else 0

theorem handles_eq_sum (k : Kernel) (g : Mid) : (handles k g : Int) = ∑ p, share k g p := by
  rw [handles, card_filter, Fintype.sum_prod_type]
  push_cast
  refine sum_congr rfl fun p _ => ?_
  unfold share held
  split
  · next h => exact sum_congr rfl fun i _ => by simp [h]
  · next h => exact sum_eq_zero fun i _ => by simp [h]

/-- A change at one slot of the process table. -/
theorem handles_change (h : ∀ q, q ≠ p → share k' g q = share k g q) :
    (handles k' g : Int) = handles k g + share k' g p - share k g p := by
  rw [handles_eq_sum, handles_eq_sum, ← add_sum_erase _ _ (mem_univ p),
    ← add_sum_erase univ (share k g) (mem_univ p),
    sum_congr rfl fun q hq => h q (ne_of_mem_erase hq)]
  ring

/-- The counts alone give the invariant. -/
theorem handleInv_of_count (h : ∀ g, (k.mux.mutexes g).count = handles k g) : HandleInv k := by
  refine ⟨h, fun g hg p i hp hl => ?_⟩
  have h0 : (k.mux.mutexes g).count = 0 := by simpa using find?_some hg
  have hc := (h g).symm.trans h0
  rw [Nat.cast_eq_zero, handles, card_eq_zero] at hc
  have : (p, i) ∈ (∅ : Finset (Slot × Fin MUX_MAXNUM)) := by rw [← hc]; simp [hp, hl]
  simp at this

theorem handleInv_boot (m : Kmem) : HandleInv (boot m) := by
  refine handleInv_of_count fun g => ?_
  simp [boot, Mux.boot, Mutex.zero, handles, pinit, PEntry.zero, PEntry.Live]

theorem share_live (h : (k.sched.proc p).Live) : share k g p = held (k.mux.locks p) g :=
  if_pos h

theorem share_dead (h : ¬ (k.sched.proc p).Live) : share k g p = 0 := if_neg h

theorem share_congr (hs : (k'.sched.proc p).Live ↔ (k.sched.proc p).Live)
    (hl : k'.mux.locks p = k.mux.locks p) : share k' g p = share k g p := by
  unfold share
  simp only [hs, hl]

/-- The same live processes and handles. -/
theorem HandleInv.congr (h : HandleInv k) (hl : ∀ p, (k'.sched.proc p).Live ↔ (k.sched.proc p).Live)
    (hm : k.mux.SameHandles k'.mux) : HandleInv k' := by
  refine handleInv_of_count fun g => ?_
  rw [hm.count, h.count, handles_eq_sum, handles_eq_sum]
  exact sum_congr rfl fun p _ => (share_congr (hl p) (by rw [hm.locks])).symm

theorem HandleInv.mild (h : HandleInv k) (hm : Mild k k') : HandleInv k' :=
  h.congr (fun p => (hm.sched.entry p).live) hm.mux

/-- A step that changes the share of one process, and the count by as much, keeps the invariant;
and only such a step does. -/
theorem HandleInv.change (h : HandleInv k) (p : Slot)
    (hq : ∀ g q, q ≠ p → share k' g q = share k g q) :
    HandleInv k' ↔ ∀ g, (k'.mux.mutexes g).count =
      (k.mux.mutexes g).count + share k' g p - share k g p := by
  refine ⟨fun h' g => ?_, fun hc => handleInv_of_count fun g => ?_⟩
  · rw [h'.count, h.count, handles_change (hq g)]
  · rw [hc, h.count, handles_change (hq g)]

/-! ### One operation at a time -/

/-- `fork2(cid)` called by `p` gets a slot, and then fails in `copyuvm`. -/
def forkFails (k : Kernel) (p : Slot) (cid : Int) : Bool :=
  match k.allocproc (some p) cid with
  | .ok (some np, k₁) =>
    match k₁.vm.copyMem p np with
    | .ok (ok, _) => !ok
    | .error _ => false
  | _ => false

/-- The condition on a step: `mutex_get` finds that the caller has a handle to the mutex already
(or finds no mutex, or no free handle), `mutex_create` has a free handle for the slot it takes, and
a `fork2` that fails in `copyuvm` is one of a process without handles. -/
def HandleOk (k : Kernel) : Op → Prop
  | .mutexGet p name => ∀ g i, k.mux.findMutex name = some g →
      (List.finRange MUX_MAXNUM).find?
        (fun i => k.mux.locks p i = some g ∨ k.mux.locks p i = none) = some i →
      k.mux.locks p i = some g
  | .mutexCreate p _ => k.mux.freeMutex ≠ none → k.mux.freeHandle p ≠ none
  | .fork2 p cid => k.forkFails p cid = true → ∀ i, k.mux.locks p i = none
  | _ => True

/-- A handle of a live process changes. -/
theorem share_setLock (hm : m.locks = k.mux.locks) (hp : (k.sched.proc p).Live) :
    share { k with mux := m.setLock p i v } g p =
      share k g p + (if v = some g then 1 else 0) - if k.mux.locks p i = some g then 1 else 0 := by
  rw [share_live (k := { k with mux := m.setLock p i v }) hp, share_live hp]
  simp only [setLock_locks_self, held_update, hm]

theorem share_setLock_ne (hm : m.locks = k.mux.locks) (hq : q ≠ p) :
    share { k with mux := m.setLock p i v } g q = share k g q :=
  share_congr .rfl (by simp only [setLock_locks_ne hq, hm])

theorem handle_mutexCreate (h : HandleInv k) (hp : k.inUser p)
    (hc : k.mux.mutexCreate p name = .ok (r, m)) :
    HandleInv { k with mux := m } ↔ HandleOk k (.mutexCreate p name) := by
  unfold mutexCreate at hc
  cases hg : k.mux.freeMutex with
  | none =>
    rw [hg] at hc
    cases hc
    exact iff_of_true h fun hne => absurd hg hne
  | some g =>
    rw [hg] at hc
    obtain ⟨nm, -, hc⟩ := of_bind hc
    dsimp only at hc
    have hfree : ∀ m : Mux, m.locks = k.mux.locks → m.freeHandle p = k.mux.freeHandle p :=
      fun m hm => by unfold freeHandle; rw [hm]
    rw [hfree _ (upd_locks ..)] at hc
    cases hi : k.mux.freeHandle p with
    | none =>
      rw [hi] at hc
      cases hc
      refine iff_of_false (fun h' => ?_) fun hok => hok (by simp [hg]) hi
      have hcount : _ = (handles k g : Int) := h'.count g
      rw [upd_count, if_pos rfl, ← h.count] at hcount
      simp only at hcount
      omega
    | some i =>
      rw [hi] at hc
      cases hc
      refine iff_of_true ?_ fun _ => by simp [hi]
      have hnone : k.mux.locks p i = none := by simpa using find?_some hi
      refine (h.change p fun j q hq => share_setLock_ne (by simp) hq).mpr fun j => ?_
      rw [share_setLock (by simp) hp.live, hnone]
      simp only [setLock_mutexes, upd_count]
      by_cases e : j = g
      · subst e; simp; ring
      · simp [e, Ne.symm e]

/-- The loop of `mutex_get` stops at the first handle that is free or names the mutex. -/
theorem getLoop_eq (m : Mux) (p : Slot) (g : Mid) : ∀ is : List (Fin MUX_MAXNUM), getLoop m p g is =
      match is.find? (fun i => m.locks p i = some g ∨ m.locks p i = none) with
      | none => (-1, m)
      | some i => if m.locks p i = some g then (-2, m) else ((i.val : Int), m.setLock p i (some g))
  | [] => rfl
  | i :: is => by
    rw [getLoop, find?_cons]
    by_cases h₁ : m.locks p i = some g
    · simp [h₁]
    by_cases h₂ : m.locks p i = none
    · simp [h₂]
    · simp only [h₁, h₂, if_false, or_self, decide_false]
      exact getLoop_eq m p g is

theorem handle_mutexGet (h : HandleInv k) (hp : k.inUser p) :
    HandleInv { k with mux := (k.mux.mutexGet p name).2 } ↔ HandleOk k (.mutexGet p name) := by
  unfold mutexGet
  cases hg : k.mux.findMutex name with
  | none => exact iff_of_true h fun g i hg' => by rw [hg] at hg'; cases hg'
  | some g =>
    simp only [getLoop_eq, HandleOk, hg]
    cases hi : (finRange MUX_MAXNUM).find?
        (fun i => k.mux.locks p i = some g ∨ k.mux.locks p i = none) with
    | none => exact iff_of_true h fun g' i hg' => by cases hg'; rw [hi]; nofun
    | some i =>
      by_cases hl : k.mux.locks p i = some g
      · simp only [hl, if_true]
        refine iff_of_true h fun g' j hg' => ?_
        cases hg'
        rw [hi]
        rintro ⟨⟩
        exact hl
      · simp only [hl, if_false]
        refine iff_of_false (fun h' => ?_) fun hok => hl (hok g i rfl hi)
        have hcount := (h.change p fun j q hq => share_setLock_ne rfl hq).mp h' g
        rw [share_setLock rfl hp.live, setLock_mutexes, if_neg hl, if_pos rfl] at hcount
        omega

theorem handle_mutexDelete {muxid : Int} (h : HandleInv k) (hp : k.inUser p) :
    HandleInv (k.mutexDelete p muxid).2 := by
  unfold mutexDelete
  cases hh : k.handle p muxid with
  | none => exact h
  | some x =>
    obtain ⟨i, g⟩ := x
    have hlock := (handle_eq_some hh).2
    -- unlocking comes first, and changes no handle
    have hst : Still k (if k.owns p g then k.releasesleep g else k) := by
      split
      · exact (still p).releasesleep _ _
      · exact .refl _
    dsimp only
    generalize (if k.owns p g then k.releasesleep g else k) = k₁ at hst ⊢
    have h₁ := h.mild hst.mild
    have hp₁ : (k₁.sched.proc p).Live := (hst.sched.entry p).live.mpr hp.live
    refine (h₁.change p fun j q hq => share_setLock_ne (by simp) hq).mpr fun j => ?_
    rw [share_setLock (by simp) hp₁, hst.mux.locks, hlock, setLock_mutexes, addCount_count]
    by_cases e : g = j
    · subst e; simp; ring
    · simp [e]

/-- The slot that `allocproc` takes is dead before and, without a kernel stack, after. -/
theorem handle_alloc_none {cur : Option Slot} (h : HandleInv k)
    (ha : k.allocproc cur cid = .ok (none, k')) : HandleInv k' := by
  rcases allocproc_cases ha with ⟨-, rfl⟩ | ⟨i, s, hi, he, ⟨-, -, hm, hs⟩ | ⟨hc, -⟩⟩
  · exact h
  · have hd : ∀ g, share k' g i = 0 := fun g =>
      share_dead (by rw [hs]; simp [PEntry.Live, PEntry.free])
    refine (h.change i fun g q hq => share_congr ?_ (by rw [hm])).mpr fun g => ?_
    · rw [hs, upd_proc_ne hq, embryo_live he hq]
    · rw [hm, hd, share_dead (not_live_of_unused hi)]
      ring
  · cases hc

/-- What `allocproc` gives the child of `fork2`: the handles of the parent, counted. -/
theorem fork_alloc (hpid : Sched.PidInv k.sched) (hp : k.inUser p)
    (ha : k.allocproc (some p) cid = .ok (some np, k₁)) : p ≠ np ∧ ¬ (k.sched.proc np).Live ∧
    (∀ q, q ≠ np → ((k₁.sched.proc q).Live ↔ (k.sched.proc q).Live)) ∧
    k₁.mux = copyLocks p np (finRange MUX_MAXNUM) k.mux := by
  obtain ⟨s, hi, he, hm, hs⟩ := allocproc_some ha
  have hd := not_live_of_unused hi
  refine ⟨by rintro rfl; exact hd hp.live, hd, fun q hq => ?_, ?_⟩
  · rw [hs, upd_proc_ne hq, embryo_live he hq]
  · have hpd : (s.proc np).pid ≠ 1 := by
      rw [((embryo_cases he).entry np).pid, newborn_self]
      exact nextpid_ne_one hpid hp
    rw [initLocks, if_neg hpd] at hm
    exact (Except.ok.inj hm).symm

theorem held_eq_zero_iff {l : Fin MUX_MAXNUM → Option Mid} :
    (∀ g, held l g = 0) ↔ ∀ i, l i = none := by
  refine ⟨fun h i => ?_, fun h g => by simp [held, h]⟩
  cases hi : l i with
  | none => rfl
  | some g =>
    have := held_pos hi
    have := h g
    omega

/-- The handles of the child are counted whether or not the child comes to life. -/
theorem fork_count (hpid : Sched.PidInv k.sched) (hp : k.inUser p)
    (ha : k.allocproc (some p) cid = .ok (some np, k₁)) (g : Mid) :
    (k₁.mux.mutexes g).count = (k.mux.mutexes g).count + held (k.mux.locks p) g ∧
    k₁.mux.locks np = k.mux.locks p ∧ ∀ q, q ≠ np → k₁.mux.locks q = k.mux.locks q := by
  obtain ⟨hne, -, -, hm⟩ := fork_alloc hpid hp ha
  obtain ⟨hq, hn, hc⟩ := copyLocks_spec hne (finRange MUX_MAXNUM) k.mux
  rw [hm]
  exact ⟨by rw [hc, held_eq_heldIn], funext fun i => by simp [hn], hq⟩

theorem handle_fork2 (h : HandleInv k) (hpid : Sched.PidInv k.sched) (hp : k.inUser p)
    (hf : k.fork2 p cid = .ok (r, k')) : HandleInv k' ↔ HandleOk k (.fork2 p cid) := by
  rcases fork2_cases hf with ha | ⟨np, k₁, ha, hm, hrest⟩
  · exact iff_of_true (handle_alloc_none h ha) fun hff => by simp [forkFails, ha] at hff
  obtain ⟨-, hdead, hlive, -⟩ := fork_alloc hpid hp ha
  have hcount := fork_count hpid hp ha
  rcases hrest with ⟨v, hv, -, hs⟩ | ⟨v, hv, -, hs⟩
  · -- `copyuvm` failed: the slot is free again, and nothing is taken off the counts
    have hd : ∀ g, share k' g np = 0 := fun g =>
      share_dead (by rw [hs]; simp [PEntry.Live, PEntry.free])
    rw [h.change np fun g q hq => share_congr
      (by rw [hs, upd_proc_ne hq]; exact hlive q hq) (by rw [hm, (hcount g).2.2 q hq])]
    simp only [hm, fun g => (hcount g).1, hd, share_dead hdead]
    have hok : HandleOk k (.fork2 p cid) ↔ ∀ i, k.mux.locks p i = none :=
      ⟨fun hok => hok (by simp [forkFails, ha, hv]), fun hn _ => hn⟩
    rw [hok, ← held_eq_zero_iff]
    exact forall_congr' fun g => ⟨fun e => by omega, fun e => by omega⟩
  · refine iff_of_true ?_ fun hff => ?_
    · have hkeep := child_cases hs
      have hl : (k'.sched.proc np).Live := by
        rw [(hkeep.entry np).live, birth_self]; simp [PEntry.Live]
      refine (h.change np fun g q hq => share_congr ?_ (by rw [hm, (hcount g).2.2 q hq])).mpr
        fun g => ?_
      · rw [(hkeep.entry q).live, birth_ne hq]; exact hlive q hq
      · rw [share_live hl, share_dead hdead, hm, (hcount g).1, (hcount g).2.1]
        ring
    · simp [forkFails, ha, hv] at hff

theorem handle_allocFirst {r : Option Slot} (h : HandleInv k) (hn : k.sched.nextpid = 1)
    (ha : k.allocproc none (-1) = .ok (r, k')) : HandleInv k' := by
  cases r with
  | none => exact handle_alloc_none h ha
  | some np =>
    obtain ⟨s, hi, he, hm, hs⟩ := allocproc_some ha
    have hpd : (s.proc np).pid = 1 := by
      rw [((embryo_cases he).entry np).pid, newborn_self]
      exact hn
    rw [initLocks, if_pos hpd] at hm
    have hm := (Except.ok.inj hm).symm
    refine (h.change np fun g q hq => share_congr ?_ ?_).mpr fun g => ?_
    · rw [hs, upd_proc_ne hq, embryo_live he hq]
    · rw [hm, clearLocks]; simp [hq]
    · have h0 : share k' g np = 0 := by
        unfold share
        rw [hm, clearLocks]
        simp [held_none]
      rw [h0, share_dead (not_live_of_unused hi), hm, clearLocks]
      ring

theorem handle_exit (h : HandleInv k) (hp : k.inUser p) (he : k.exit p = .ok k') :
    HandleInv k' := by
  obtain ⟨-, v, s, -, hr, rfl⟩ := exit_cases he
  have hk := exit_keep v hr
  obtain ⟨hl, hc⟩ := exitLocks_spec p (finRange MUX_MAXNUM) { k with vm := v, sched := s }
  generalize exitLocks p (finRange MUX_MAXNUM) { k with vm := v, sched := s } = k₁ at hk hl hc
  refine (h.change p fun g q hq => share_congr ?_ ?_).mpr fun g => ?_
  · simp only [upd_proc_ne hq]; exact (hk.entry q).live
  · rw [hl]
  · rw [share_dead (p := p) (by simp [PEntry.Live]), share_live hp.live, hc, ← held_eq_heldIn]
    ring

theorem Op.Plain.handleOk (ho : op.Plain) : HandleOk k op := by
  cases op <;> trivial

/-- **One step.** -/
theorem handle_step (h : HandleInv k) (hpid : Sched.PidInv k.sched) (hs : Step k op k') :
    HandleInv k' ↔ HandleOk k op := by
  cases step_kind hs with
  | still ho hm => exact iff_of_true (h.mild hm.mild) ho.handleOk
  | scheduler hd => exact iff_of_true (h.mild (mild_sched (keep_scheduler hd))) trivial
  | prioSet _ hp => exact iff_of_true (h.mild (mild_sched (keep_prioSet hp))) trivial
  | growproc | exec | shmGet | shmRem => exact iff_of_true ⟨h.count, h.free⟩ trivial
  | mutexCreate hp hc => exact handle_mutexCreate h hp hc
  | mutexGet hp => exact handle_mutexGet h hp
  | mutexDelete hp => exact iff_of_true (handle_mutexDelete h hp) trivial
  | allocFirst hn ha => exact iff_of_true (handle_allocFirst h hn ha) trivial
  | userinit hp hu =>
    obtain ⟨hc, -, hm⟩ := userinit_cases hp hu
    exact iff_of_true (h.congr (fun p => (hc.entry p).live) (hm ▸ .refl _)) trivial
  | fork2 hp hf => exact handle_fork2 h hpid hp hf
  | exit hp he => exact iff_of_true (handle_exit h hp he) trivial
  | @reap _ q _ ho hq hv hm hc =>
    refine iff_of_true (h.congr (fun p => ?_) (hm ▸ .refl _)) ho.handleOk
    rw [(hc.entry p).live, upd_proc]
    split
    · next e => subst e; simp [PEntry.Live, PEntry.reaped, hq]
    · exact .rfl

/-- **The handle counts, over whole runs.**  `HandleInv` holds in every state of a run exactly when
each step of it meets `HandleOk`. -/
theorem handleInv_iff {m : Kmem} {t : List (Kernel × Op)} (hr : Run Step (boot m) t k) :
    ((∀ x ∈ t, HandleInv x.1) ∧ HandleInv k) ↔ ∀ x ∈ t, HandleOk x.1 x.2 :=
  hr.inv_iff (I := fun k => Sched.PidInv k.sched ∧ HandleInv k) (fun _ h => h.2)
    (fun _ _ _ h hs hok => ⟨pidInv_step h.1 hs, (handle_step h.2 h.1 hs).mpr hok⟩)
    (fun _ _ _ h hs => (handle_step h.2 h.1 hs).mp) ⟨.pinit, handleInv_boot m⟩

/-- A mutex created before a fork has two handles after it. -/
theorem handleInv_createFork : ∃ t k, Run Step (boot smallMem) t k ∧
    (k.mux.mutexes 0).count = 2 ∧ (∀ x ∈ t, HandleInv x.1) ∧ HandleInv k := by
  let ops : List Op :=
    [.allocFirst, .userinit 0, .scheduler, .mutexCreate 0 [97], .fork2 0 (-1)]
  obtain ⟨k, hr, hc⟩ := exists_run step_of_exec? (boot smallMem) ops
    (fun k => (k.mux.mutexes 0).count = 2) (by decide +kernel)
  have hops : ∀ x ∈ traceFn exec? (boot smallMem) ops, x.2 ∈ ops ∧
      (x.2 = .mutexCreate 0 [97] → x.1.mux.freeHandle 0 ≠ none) ∧
      (x.2 = .fork2 0 (-1) → x.1.forkFails 0 (-1) = false) := by
    decide +kernel
  refine ⟨_, k, hr, hc, (handleInv_iff hr).mpr fun ⟨k', op⟩ hx => ?_⟩
  obtain ⟨hop, hcr, hfork⟩ := hops _ hx
  obtain rfl | rfl | rfl | rfl | rfl : op = .allocFirst ∨ op = .userinit 0 ∨ op = .scheduler ∨
      op = .mutexCreate 0 [97] ∨ op = .fork2 0 (-1) := by simpa [ops] using hop
  · trivial
  · trivial
  · trivial
  · exact fun _ => hcr rfl
  · exact fun hff => by rw [hfork rfl] at hff; cases hff

/-- **A handle that is not counted.**  The parent creates a mutex after the fork, and the child
gets it by name: there are two handles and the count is 1. -/
theorem mutexGet_not_counted : ∃ t k, Run Step (boot smallMem) t k ∧ ¬ HandleInv k := by
  obtain ⟨k, hr, hc⟩ := exists_run step_of_exec? (boot smallMem)
    (forkOps ++ [.mutexCreate 0 [97], .mutexGet 1 [97]])
    (fun k => (k.mux.mutexes 0).count = 1 ∧ handles k 0 = 2) (by decide +kernel)
  refine ⟨_, k, hr, fun h => ?_⟩
  have := h.count 0
  rw [hc.1, hc.2] at this
  omega

end Kernel

end Xv6
