import Xv6.Kernel.QueueInv
import Xv6.Kernel.RoundRobin
import Xv6.Kernel.Forest
import Mathlib.Data.List.Pairwise
import Mathlib.Logic.Relation

/-!
# Kernel — PrioCall

The system call `prio_set(pid, priority)`, on a well-formed run queue.

`sys_prio_set` reads its first argument twice: the pid is also the priority it sets.  `prio_set`
itself finds the process by its pid, walks its parents to the caller, and moves it to the front of
its new bucket; it does not ask whether the process is a zombie.  So the call does what its two
arguments say only where both agree on the answer (`sysPrioSet_iff`).
-/

namespace Xv6

open Lib Function List

namespace Sched

variable {s s' : Sched} {p q i : Slot} {pid priority : Int}

/-- `sys_prio_set` called by `p`, with the words `args` on its stack: `argint(0, &pid)` and
`argint(0, &priority)`. -/
def sysPrioSet (s : Sched) (p : Slot) (args : List Int) : Res (Int × Sched) :=
  match args[0]? with
  | none => .ok (-1, s)
  | some pid =>
    match args[0]? with
    | none => .ok (-1, s)
    | some priority => s.prioSet p pid priority

/-! ### What the call is for -/

/-- `i` is `p` or a descendant of `p`. -/
def Descends (s : Sched) (p i : Slot) : Prop :=
  Relation.ReflTransGen (fun i j => (s.proc i).parent = some j) i p

/-- `p` may give a process the priority `priority`. -/
def PrioOk (s : Sched) (p : Slot) (priority : Int) : Prop :=
  (0 ≤ priority ∧ priority < PRIO_MAX) ∧ (s.proc p).priority ≤ priority

/-- `q` has pid `pid`, and is `p` or a descendant of `p`. -/
def Kindred (s : Sched) (p : Slot) (pid : Int) (q : Slot) : Prop :=
  (s.proc q).pid = pid ∧ Descends s p q

/-- The lists after `q` has moved to the front of bucket `priority`. -/
def toFront (l : Fin PRIO_MAX → List Slot) (q : Slot) (priority : Int) (b : Fin PRIO_MAX) :
    List Slot :=
  if (b : Int) = priority then q :: (l b).erase q else (l b).erase q

/-- From `s` to `s'` the priority of `q` became `priority`, and `q` moved to the front of that
bucket; the rest is as it was. -/
structure Moved (s s' : Sched) (q : Slot) (priority : Int) : Prop where
  frame : Frame (s.upd q fun e => { e with priority := priority }) s'
  lists : ∃ l, WellFormed s l ∧ WellFormed s' (toFront l q priority)

/-- What the answer of `prio_set(pid, priority)` to `p` has to be. -/
structure PrioAnswer (s : Sched) (p : Slot) (pid priority : Int) (r : Res (Int × Sched)) :
    Prop where
  done : ∀ q, Kindred s p pid q → (s.proc q).Live → PrioOk s p priority →
    ∃ s', r = .ok (0, s') ∧ Moved s s' q priority
  refused : (¬ ∃ q, Kindred s p pid q ∧ (s.proc q).Live ∧ PrioOk s p priority) → r = .ok (-1, s)

/-- The condition: where the request is legal its two arguments are equal, and where it is not the
pid is no priority the caller may give to that process. -/
def PrioCond (s : Sched) (p : Slot) (pid priority : Int) : Prop :=
  ∀ q, Kindred s p pid q → ((s.proc q).Live ∧ PrioOk s p priority → priority = pid) ∧
    (¬ ((s.proc q).Live ∧ PrioOk s p priority) → ¬ PrioOk s p pid)

/-! ### Finding the process -/

theorem findPid_foldl : ∀ (l : List Slot) (r : Option Slot),
    let f := l.foldl (fun r i => if (s.proc i).pid = pid then some i else r) r
    (∀ i, f = some i → (s.proc i).pid = pid ∨ r = some i) ∧
      (f = none → ∀ i ∈ l, (s.proc i).pid ≠ pid)
  | [], r => ⟨fun _ h => .inr h, fun _ _ h => by cases h⟩
  | j :: l, r => by
    obtain ⟨hs, hn⟩ := findPid_foldl l (if (s.proc j).pid = pid then some j else r)
    dsimp only [foldl_cons] at *
    refine ⟨fun i hi => ?_, fun hf i hi => ?_⟩
    · rcases hs i hi with h | h
      · exact .inl h
      · split at h
        · next hj => exact .inl (Option.some.inj h ▸ hj)
        · exact .inr h
    · rcases mem_cons.mp hi with rfl | hi
      · intro hpid
        -- once found, the result stays `some`
        have hsome : ∀ (l : List Slot) (k : Slot),
            l.foldl (fun r i => if (s.proc i).pid = pid then some i else r) (some k) ≠ none := by
          intro l
          induction l with
          | nil => exact fun k h => by cases h
          | cons j l ih =>
            intro k
            rw [foldl_cons]
            split <;> exact ih _
        rw [if_pos hpid] at hf
        exact hsome l i hf
      · exact hn hf i hi

theorem findPid_pid (h : findPid s pid = some q) : (s.proc q).pid = pid :=
  ((findPid_foldl (finRange NPROC) none).1 q h).resolve_right (by simp)

/-- A process in use is found by its pid. -/
theorem findPid_used (hpid : PidInv s) (hq : (s.proc q).state ≠ .unused) :
    findPid s (s.proc q).pid = some q := by
  have hpos := hpid.pos q hq
  cases h : findPid s (s.proc q).pid with
  | none =>
    exact absurd rfl ((findPid_foldl (finRange NPROC) none).2 h q (mem_finRange q))
  | some i =>
    have he := findPid_pid h
    rw [hpid.inj i q he (by omega)]

/-! ### The ancestor walk -/

theorem descends_of_walk (hpid : PidInv s) (hp : (s.proc p).state ≠ .unused) :
    ∀ {n : Nat} {i : Slot}, ancestorLoop s (s.proc p).pid n (some i) = .ok true →
      Descends s p i := by
  have hpos := hpid.pos p hp
  have hself : ∀ {i}, (s.proc i).pid = (s.proc p).pid → Descends s p i := fun {i} e => by
    rw [hpid.inj i p e (by omega)]
    exact .refl
  intro n
  induction n with
  | zero =>
    intro i h
    rw [ancestorLoop] at h
    split at h
    · next e => exact hself e
    · cases h
  | succ n ih =>
    intro i h
    rw [ancestorLoop] at h
    split at h
    · next e => exact hself e
    cases hj : (s.proc i).parent with
    | none => rw [hj, ancestorLoop] at h; cases h
    | some j =>
      rw [hj] at h
      exact .head hj (ih h)

theorem walk_of_descends (h : Descends s p i) : ∀ {n : Nat} {found : Bool},
    ancestorLoop s (s.proc p).pid n (some i) = .ok found → found = true := by
  induction h using Relation.ReflTransGen.head_induction_on with
  | refl =>
    intro n found h
    cases n <;> · rw [ancestorLoop, if_pos rfl] at h; cases h; rfl
  | head hj _ ih =>
    intro n found h
    cases n with
    | zero => rw [ancestorLoop] at h; split at h <;> cases h; rfl
    | succ n =>
      rw [ancestorLoop] at h
      split at h
      · cases h; rfl
      · rw [hj] at h; exact ih h

/-- The checks of `prio_set`, without the walk. -/
theorem prioAllowed_iff (hpid : PidInv s) (hpar : ParentInv s) (hp : (s.proc p).state ≠ .unused) :
    PrioAllowed s p pid priority q ↔ Kindred s p pid q ∧ PrioOk s p priority := by
  constructor
  · intro h
    exact ⟨⟨findPid_pid h.found, descends_of_walk hpid hp h.ancestor⟩, h.valid, h.lower⟩
  · rintro ⟨⟨rfl, hd⟩, hv, hl⟩
    -- a process that descends from one in use is in use
    have hq : (s.proc q).state ≠ .unused := by
      rcases Relation.ReflTransGen.cases_head hd with rfl | ⟨j, hj, -⟩
      · exact hp
      · intro hu
        rw [hpid.parent q hu] at hj
        cases hj
    have hfound := findPid_used hpid hq
    obtain ⟨found, hw⟩ := (hpar.forest hpid).walk p (s.proc q).pid
    rw [hfound] at hw
    exact ⟨hv, hl, hfound, by rw [hw, walk_of_descends hd hw]⟩

/-! ### The answer of `prio_set` -/

theorem prioSet_refused (hpid : PidInv s) (hpar : ParentInv s)
    (h : ∀ q, ¬ PrioAllowed s p pid priority q) : s.prioSet p pid priority = .ok (-1, s) := by
  unfold prioSet
  split
  · rfl
  next hv =>
  split
  · rfl
  next hl =>
  obtain ⟨found, hw⟩ := (hpar.forest hpid).walk p pid
  dsimp only
  rw [hw]
  cases found with
  | false => rfl
  | true =>
    cases hf : findPid s pid with
    | none => rfl
    | some q => exact absurd ⟨by omega, by omega, hf, hf ▸ hw⟩ (h q)

theorem prioSet_accepted (h : PrioAllowed s p pid priority q) : s.prioSet p pid priority = (do
      let s₁ ← removeNode s q
      let s₂ ← pq1Enqueue (s₁.upd q fun e => { e with priority := priority }) q priority
      return (0, s₂)) := by
  have hv := h.valid
  have hl := h.lower
  unfold prioSet
  rw [if_neg (by omega), if_neg (by omega)]
  simp only [h.found, h.ancestor, Res.ok_bind]
  rfl

/-- The run-queue invariant gives the lists of the buckets. -/
theorem QueueInv.wellFormed (h : QueueInv s) :
    ∃ l, WellFormed s l ∧ ∀ i, (s.proc i).Live → ∃ b, i ∈ l b := by
  obtain ⟨l, hc, hlive, hdead⟩ := h
  have hmem : ∀ b, ∀ i ∈ l b, (s.proc i).Live := fun b i hi => by
    by_contra hd
    exact hdead i hd b hi
  have hnd : ((finRange PRIO_MAX).flatMap l).Nodup := by
    refine nodup_iff_count_le_one.mpr fun i => ?_
    by_cases hi : (s.proc i).Live
    · exact (hlive i hi).1.le
    rw [count_eq_zero.mpr]
    · exact Nat.zero_le 1
    · rw [mem_flatMap]
      rintro ⟨b, -, hb⟩
      exact hdead i hi b hb
  have hdisj : ∀ b c i, i ∈ l b → i ∈ l c → b = c := fun b c i hb hc => by
    by_contra hne
    have hpw := (nodup_flatMap.mp hnd).2
    have : Std.Symm (onFun List.Disjoint l) := ⟨fun _ _ h => h.symm⟩
    exact hpw.forall (mem_finRange b) (mem_finRange c) hne hb hc
  refine ⟨l, ⟨hc, fun b i hi => ?_, hdisj⟩, fun i hi => ?_⟩
  · obtain ⟨c, hc, hp⟩ := (hlive i (hmem b i hi)).2
    rw [hp, hdisj b c i hi hc]
  · obtain ⟨b, hb, -⟩ := (hlive i hi).2
    exact ⟨b, hb⟩

/-- A queued process, the only one with its pid, leaves its bucket and enters the bucket of its new
priority. -/
theorem moved_requeue {l : Fin PRIO_MAX → List Slot} {b c : Fin PRIO_MAX} (h : WellFormed s l)
    (hq : q ∈ l b) (hpid : ∀ i, (s.proc i).pid = (s.proc q).pid → i = q) :
    ∃ s₁ s', removeNode s q = .ok s₁ ∧
      pq1Enqueue (s₁.upd q fun e => { e with priority := (c : Int) }) q c = .ok s' ∧
      Moved s s' q c := by
  obtain ⟨l₁, l₂, hl⟩ := append_of_mem hq
  have nd := (h.chain b).nodup
  rw [hl] at nd
  have hq₁ : q ∉ l₁ := fun hm => notMem_of_nodup nd (mem_append_left _ hm)
  have herase : (l b).erase q = l₁ ++ l₂ := by
    rw [hl, erase_append_right _ hq₁, erase_cons_head]
  have hout : ∀ d, d ≠ b → q ∉ l d := fun d hd hm => hd (h.disj d b q hm hq)
  obtain ⟨s₁, h₁, f₁, r₁, hnext, -⟩ := lists_removeNode h.lists (h.prio b q hq) hl rfl
    fun i hi e => hq₁ (hpid i e ▸ hi)
  -- `q` is in no bucket, so its priority may change
  have hlists : Lists (s₁.upd q fun e => { e with priority := (c : Int) })
      (update l b (l₁ ++ l₂)) := by
    refine r₁.congr ?_ rfl
    funext i
    simp only [next, upd_proc]
    split
    · next e => rw [e]
    · rfl
  have hall : ∀ d, update l b (l₁ ++ l₂) d = (l d).erase q := fun d => by
    by_cases hd : d = b
    · subst hd; rw [update_self, herase]
    · rw [update_of_ne hd, erase_of_not_mem (hout d hd)]
  have hnot : ∀ d, q ∉ update l b (l₁ ++ l₂) d := fun d => by
    rw [hall d]
    exact (h.chain d).nodup.not_mem_erase
  obtain ⟨s', h₂, f₂, r₂, -⟩ := lists_enqueue (b := c) hlists hnot fun _ => by
    simpa [next] using hnext
  have f₀ : Frame (s.upd q fun e => { e with priority := (c : Int) })
      (s₁.upd q fun e => { e with priority := (c : Int) }) := by
    refine ⟨fun i => ?_, f₁.nextpid, f₁.initproc⟩
    have hi := f₁.core i
    simp only [upd_proc]
    split
    · next e =>
      subst e
      simp only [PEntry.core, PEntry.mk.injEq] at hi
      simp [PEntry.core, hi]
    · exact hi
  have hframe := f₀.trans f₂
  refine ⟨s₁, s', h₁, h₂, hframe, l, h, ?_⟩
  have hfront : update (update l b (l₁ ++ l₂)) c
      (q :: update l b (l₁ ++ l₂) c) = toFront l q c := by
    funext d
    by_cases hd : d = c
    · subst hd; rw [update_self, hall, toFront, if_pos rfl]
    · rw [update_of_ne hd, hall, toFront, if_neg]
      exact fun e => hd (Fin.ext (by omega))
  rw [hfront] at r₂
  refine ⟨r₂.chain, fun d i hi => ?_, r₂.disj⟩
  rw [hframe.priority]
  unfold toFront at hi
  by_cases e : i = q
  · subst e
    split at hi
    · next hd => rw [upd_proc_self, hd]
    · exact absurd hi (h.chain d).nodup.not_mem_erase
  rw [upd_proc_ne e]
  refine h.prio d i ?_
  split at hi
  · exact mem_of_mem_erase ((mem_cons.mp hi).resolve_left e)
  · exact mem_of_mem_erase hi

/-- **`prio_set`.**  On a well-formed queue it answers as its arguments ask, zombies apart. -/
theorem prioSet_done (hpid : PidInv s) (hq : QueueInv s) (ha : PrioAllowed s p pid priority q)
    (hlive : (s.proc q).Live) :
    ∃ s', s.prioSet p pid priority = .ok (0, s') ∧ Moved s s' q priority := by
  obtain ⟨l, hl, hmem⟩ := hq.wellFormed
  obtain ⟨b, hb⟩ := hmem q hlive
  have hv := ha.valid
  obtain ⟨c, rfl⟩ : ∃ c : Fin PRIO_MAX, priority = c :=
    ⟨⟨priority.toNat, by omega⟩, by simp; omega⟩
  have hpos := hpid.pos q hlive.1
  obtain ⟨s₁, s', h₁, h₂, hm⟩ := moved_requeue (c := c) hl hb fun i e => hpid.inj i q e (by omega)
  refine ⟨s', ?_, hm⟩
  rw [prioSet_accepted ha, h₁, Res.ok_bind, h₂]
  rfl

/-- An accepted call does not return −1. -/
theorem prioSet_ne_refused (ha : PrioAllowed s p pid priority q) :
    s.prioSet p pid priority ≠ .ok (-1, s') := by
  rw [prioSet_accepted ha]
  intro h
  obtain ⟨s₁, -, h⟩ := of_bind h
  obtain ⟨s₂, -, h⟩ := of_bind h
  cases h

end Sched

namespace Kernel

open Sched

variable {k : Kernel} {p : Slot}

/-- **The system call.**  In a reachable state with a well-formed run queue the call of a process
answers as its two arguments ask exactly when `PrioCond` holds of them. -/
theorem sysPrioSet_iff {m : Kmem} {t : List (Kernel × Op)} (hr : Run Step (boot m) t k)
    (hq : QueueInv k.sched) (hp : k.inUser p) (pid priority : Int) :
    PrioAnswer k.sched p pid priority (k.sched.sysPrioSet p [pid, priority]) ↔
      PrioCond k.sched p pid priority := by
  obtain ⟨-, hpid, hpar⟩ := parentInv_run hr
  have hu := hp.live.1
  have hiff {v : Int} {q : Slot} : PrioAllowed k.sched p pid v q ↔
      Kindred k.sched p pid q ∧ PrioOk k.sched p v := prioAllowed_iff hpid hpar hu
  -- a pid has one process
  have huniq : ∀ {q q' : Slot}, Kindred k.sched p pid q → (k.sched.proc q').pid = pid →
      (k.sched.proc q').state ≠ .unused → q' = q := fun {q q'} h e hq' =>
    hpid.inj q' q (e.trans h.1.symm) (by have := hpid.pos q' hq'; omega)
  show PrioAnswer k.sched p pid priority (k.sched.prioSet p pid pid) ↔ _
  constructor
  · intro h q hk
    refine ⟨fun ⟨hl, hok⟩ => ?_, fun hno hok => ?_⟩
    · obtain ⟨s', he, hm⟩ := h.done q hk hl hok
      -- the priority that was set is the pid
      by_cases hok' : PrioOk k.sched p pid
      · obtain ⟨s'', he', hm'⟩ := prioSet_done hpid hq (hiff.mpr ⟨hk, hok'⟩) hl
        rw [he] at he'
        obtain rfl : s' = s'' := (Prod.mk.inj (Except.ok.inj he')).2
        have h₁ := hm.frame.priority q
        have h₂ := hm'.frame.priority q
        simp only [upd_proc_self] at h₁ h₂
        exact h₁.symm.trans h₂
      · rw [prioSet_refused hpid hpar fun q' ha => hok' (hiff.mp ha).2] at he
        cases he
    · have hnone : ¬ ∃ q, Kindred k.sched p pid q ∧ (k.sched.proc q).Live ∧
          PrioOk k.sched p priority := by
        rintro ⟨q', hk', hl, hok'⟩
        exact hno ⟨huniq hk hk'.1 hl.1 ▸ hl, hok'⟩
      exact prioSet_ne_refused (hiff.mpr ⟨hk, hok⟩) (h.refused hnone)
  · intro h
    refine ⟨fun q hk hl hok => ?_, fun hno => ?_⟩
    · obtain rfl := (h q hk).1 ⟨hl, hok⟩
      exact prioSet_done hpid hq (hiff.mpr ⟨hk, hok⟩) hl
    · refine prioSet_refused hpid hpar fun q ha => ?_
      obtain ⟨hk, hok⟩ := hiff.mp ha
      exact (h q hk).2 (fun ⟨hl, hok'⟩ => hno ⟨q, hk, hl, hok'⟩) hok

/-- After a fork, the parent and its child run and the queue is well formed. -/
theorem exists_forked : ∃ t k, Run Step (boot smallMem) t k ∧ QueueInv k.sched ∧ k.inUser 0 ∧
    ((k.sched.proc 0).priority = 0 ∧ (k.sched.proc 1).Live ∧
      (k.sched.proc 1).parent = some 0 ∧ ∀ q, (k.sched.proc q).pid = 2 ↔ q = 1) ∧
    (k.sched.sysPrioSet 0 [2, 9]).toOption.map (fun x => (x.2.proc 1).priority) = some 2 := by
  obtain ⟨k, hr, hp, hk, hs⟩ := exists_run step_of_exec? (boot smallMem) forkOps
    (fun k => k.inUser 0 ∧ ((k.sched.proc 0).priority = 0 ∧ (k.sched.proc 1).Live ∧
      (k.sched.proc 1).parent = some 0 ∧ ∀ q, (k.sched.proc q).pid = 2 ↔ q = 1) ∧
      (k.sched.sysPrioSet 0 [2, 9]).toOption.map (fun x => (x.2.proc 1).priority) = some 2)
    (by decide +kernel)
  have hops : ∀ x ∈ traceFn exec? (boot smallMem) forkOps,
      x.1.vm.mem.freelist ≠ [] ∧ x.2 ∈ forkOps := by
    decide +kernel
  refine ⟨_, k, hr, ?_, hp, hk, hs⟩
  refine (hr.inv (I := fun k => PidInv k.sched ∧ Queued k.sched)
    (fun _ _ _ h hs (hok : QueueOk _ _) => ⟨pidInv_step h.1 hs, queued_step h.2 h.1 hs hok⟩)
    ⟨.pinit, queues_pinit⟩ fun ⟨k', op⟩ hx => ?_).2.2.queueInv
  obtain ⟨hm, hop⟩ := hops _ hx
  obtain rfl | rfl | rfl | rfl | rfl : op = .allocFirst ∨ op = .userinit 0 ∨ op = .scheduler ∨
      op = .fork2 0 (-1) ∨ op = .scheduler := by simpa [forkOps] using hop
  · exact hm
  all_goals trivial

/-- A parent gives its child, whose pid is 2, the priority 2. -/
theorem sysPrioSet_child : ∃ t k, Run Step (boot smallMem) t k ∧ QueueInv k.sched ∧ k.inUser 0 ∧
    PrioAnswer k.sched 0 2 2 (k.sched.sysPrioSet 0 [2, 2]) := by
  obtain ⟨t, k, hr, hq, hp, ⟨h₀, hl, -, hpid⟩, -⟩ := exists_forked
  refine ⟨t, k, hr, hq, hp, (sysPrioSet_iff hr hq hp 2 2).mpr fun q hk => ⟨fun _ => rfl, ?_⟩⟩
  obtain rfl := (hpid q).mp hk.1
  exact fun h => absurd ⟨hl, ⟨by decide, by decide⟩, by rw [h₀]; decide⟩ h

/-- **The pid as priority.**  A parent asks for priority 9 for its child, whose pid is 2: the call
sets priority 2. -/
theorem sysPrioSet_pid : ∃ t k, Run Step (boot smallMem) t k ∧ QueueInv k.sched ∧ k.inUser 0 ∧
    ¬ PrioAnswer k.sched 0 2 9 (k.sched.sysPrioSet 0 [2, 9]) := by
  obtain ⟨t, k, hr, hq, hp, ⟨h₀, hl, hpar, hpid⟩, hs⟩ := exists_forked
  refine ⟨t, k, hr, hq, hp, fun h => ?_⟩
  obtain ⟨s', he, hm⟩ := h.done 1 ⟨(hpid 1).mpr rfl, .single hpar⟩ hl
    ⟨⟨by decide, by decide⟩, by rw [h₀]; decide⟩
  have h₁ := hm.frame.priority 1
  rw [he] at hs
  simp only [upd_proc_self] at h₁
  have h₂ : (s'.proc 1).priority = 2 := Option.some.inj hs
  omega

end Kernel

end Xv6
