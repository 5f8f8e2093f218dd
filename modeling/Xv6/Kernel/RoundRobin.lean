import Xv6.Lib.Run
import Xv6.Kernel.RunQueue

/-!
# Kernel — RoundRobin

What `pq1_dequeue` does on a well-formed run queue, and the fairness that follows inside a bucket.

`WellFormed s l` says that bucket `b` is the list `l b`, that every process in it has priority `b`,
and that no process is in two buckets.  `pq1Dequeue_spec` is the whole behaviour of one call.

For fairness the queue is driven by `QueueStep p q`: dequeues, enqueues and removals of processes
other than `p` and `q`, and changes of anything but the links.  After `p` has been returned, `q`
stands before `p` in their bucket; every step keeps that order until `q` is returned itself
(`Ahead.step`), so `p` cannot be returned again while `q` is RUNNABLE (`returned_between`).
-/

namespace Xv6.Sched

open Lib Function List

/-- Bucket `b` is the list `l b`, which repeats no process as its chain of links ends, its
processes have priority `b`, and no process is in two buckets. -/
structure WellFormed (s : Sched) (l : Fin PRIO_MAX → List Slot) : Prop where
  chain : ∀ b, Chain s.next (s.queue b) (l b)
  prio : ∀ b, ∀ i ∈ l b, (s.proc i).priority = b
  disj : ∀ b c i, i ∈ l b → i ∈ l c → b = c

variable {s s' : Sched} {l l' : Fin PRIO_MAX → List Slot} {b : Fin PRIO_MAX} {p q i : Slot}
  {l₁ l₂ : List Slot} {priority : Int}

theorem WellFormed.lists (h : WellFormed s l) : Lists s l := ⟨h.chain, h.disj⟩

/-- A dequeue keeps the priorities, and moves a process within its own bucket. -/
theorem WellFormed.of_frame (h : WellFormed s l) (hb : l b = l₁ ++ p :: l₂) (hf : Frame s s')
    (hl : Lists s' (update l b (l₁ ++ l₂ ++ [p]))) :
    WellFormed s' (update l b (l₁ ++ l₂ ++ [p])) := by
  refine ⟨hl.chain, fun c i hi => ?_, hl.disj⟩
  rw [hf.priority i]
  by_cases e : c = b
  · subst e
    rw [update_self] at hi
    refine h.prio c i ?_
    rw [hb]
    simp only [mem_append, mem_cons, not_mem_nil, or_false] at hi ⊢
    tauto
  · rw [update_of_ne e] at hi
    exact h.prio c i hi

/-! ### One dequeue -/

/-- The first bucket with a RUNNABLE process, cut at the first such process. -/
theorem exists_first (h : ∃ b, ∃ i ∈ l b, (s.proc i).state = .runnable) :
    ∃ b p l₁ l₂, l b = l₁ ++ p :: l₂ ∧ (s.proc p).state = .runnable ∧
      (∀ i ∈ l₁, (s.proc i).state ≠ .runnable) ∧
      ∀ c < b, ∀ i ∈ l c, (s.proc i).state ≠ .runnable := by
  classical
  let has (n : Nat) := ∃ b : Fin PRIO_MAX, b.val = n ∧ ∃ i ∈ l b, (s.proc i).state = .runnable
  obtain ⟨b₀, hb₀⟩ := h
  have hex : ∃ n, has n := ⟨b₀, b₀, rfl, hb₀⟩
  obtain ⟨b, hb, hrun⟩ := Nat.find_spec hex
  have hlow : ∀ c < b, ∀ i ∈ l c, (s.proc i).state ≠ .runnable := fun c hc i hi hr =>
    Nat.find_min hex (m := c.val) (by rw [← hb]; exact hc) ⟨c, rfl, i, hi, hr⟩
  have hsome : ((l b).find? fun i => (s.proc i).state = .runnable).isSome := by
    rw [find?_isSome]
    obtain ⟨i, hi, hr⟩ := hrun
    exact ⟨i, hi, by simpa using hr⟩
  obtain ⟨p, hp⟩ := Option.isSome_iff_exists.mp hsome
  obtain ⟨hr, l₁, l₂, hl, hl₁⟩ := find?_eq_some_iff_append.mp hp
  exact ⟨b, p, l₁, l₂, hl, by simpa using hr, fun i hi => by simpa using hl₁ i hi, hlow⟩

/-- What a dequeue that returns `p` does to the lists: `p` is the first RUNNABLE process of the
lowest bucket that has one, and goes to the end of that bucket. -/
structure Returns (s : Sched) (l : Fin PRIO_MAX → List Slot) (p : Slot) (s' : Sched)
    (b : Fin PRIO_MAX) (l₁ l₂ : List Slot) : Prop where
  bucket : l b = l₁ ++ p :: l₂
  runnable : (s.proc p).state = .runnable
  first : ∀ i ∈ l₁, (s.proc i).state ≠ .runnable
  lowest : ∀ c < b, ∀ i ∈ l c, (s.proc i).state ≠ .runnable
  moved : WellFormed s' (update l b (l₁ ++ l₂ ++ [p]))
  frame : Frame s s'

/-- **`pq1_dequeue` on a well-formed queue.**  It returns; it returns null, and changes nothing,
iff no queued process is RUNNABLE; and a process it returns is the first RUNNABLE one of the lowest
bucket that has one, which moves to the end of its bucket and leaves everything else as it was. -/
theorem pq1Dequeue_spec (h : WellFormed s l) : ∃ r s', pq1Dequeue s = .ok (r, s') ∧
      (r = none ↔ ∀ b, ∀ i ∈ l b, (s.proc i).state ≠ .runnable) ∧ (r = none → s' = s) ∧
      ∀ p, r = some p → ∃ b l₁ l₂, Returns s l p s' b l₁ l₂ := by
  by_cases hr : ∃ b, ∃ i ∈ l b, (s.proc i).state = .runnable
  · obtain ⟨b, p, l₁, l₂, hb, hp, hl₁, hlow⟩ := exists_first hr
    obtain ⟨s', he, hf, hl, -⟩ := lists_dequeue h.lists h.prio hlow hb hl₁ hp
    refine ⟨some p, s', he, ⟨fun e => (by cases e), fun hn => ?_⟩, fun e => (by cases e),
      fun p' hp' => ?_⟩
    · obtain ⟨b, i, hi, hir⟩ := hr
      exact absurd hir (hn b i hi)
    · obtain rfl := Option.some.inj hp'
      exact ⟨b, l₁, l₂, hb, hp, hl₁, hlow, h.of_frame hb hf hl, hf⟩
  · push Not at hr
    exact ⟨none, s, dequeue_none h.lists hr, ⟨fun _ => hr, fun _ => rfl⟩, fun _ => rfl,
      fun _ e => (by cases e)⟩

/-- Slots 1 and 2, RUNNABLE, in bucket 3. -/
def twoQueued : Sched :=
  { pinit with
    proc := fun i =>
      if i = 1 then { PEntry.zero with state := .runnable, pid := 1, priority := 3, next := some 2 }
      else if i = 2 then { PEntry.zero with state := .runnable, pid := 2, priority := 3 }
      else .zero
    queue := fun b => if b = 3 then some 1 else none }

/-- Bucket 3 is `k`, the others are empty. -/
def bucket3 (k : List Slot) : Fin PRIO_MAX → List Slot := update (fun _ => []) 3 k

theorem wellFormed_twoQueued : WellFormed twoQueued (bucket3 [1, 2]) := by
  refine ⟨fun b => ?_, fun b i hi => ?_, fun b c i hb hc => ?_⟩
  · by_cases e : b = 3
    · subst e; exact ⟨rfl, rfl, rfl⟩
    · simp [e, twoQueued, bucket3]
  · by_cases e : b = 3
    · subst e
      have hi : i = 1 ∨ i = 2 := by simpa [bucket3] using hi
      rcases hi with rfl | rfl <;> rfl
    · simp [e, bucket3] at hi
  · by_cases e : b = 3 <;> by_cases e' : c = 3 <;> simp_all [bucket3]

theorem pq1Dequeue_spec_twoQueued : ∃ r s', pq1Dequeue twoQueued = .ok (r, s') ∧ r ≠ none := by
  obtain ⟨r, s', he, hr, -⟩ := pq1Dequeue_spec wellFormed_twoQueued
  refine ⟨r, s', he, fun e => ?_⟩
  exact hr.mp e 3 1 (by simp [bucket3]) rfl

/-! ### The queue driven by others -/

/-- An operation on the queue; a dequeue is labelled with what it returned. -/
inductive QueueOp where
  | dequeue (r : Option Slot)
  | enqueue (i : Slot) (priority : Int)
  | remove (i : Slot)
  | change

/-- Dequeues, enqueues and removals of processes other than `p` and `q`, and any change of the
processes (their states, above all) that is not one of links or buckets. -/
inductive QueueStep (p q : Slot) : Sched → QueueOp → Sched → Prop where
  | dequeue {s s' : Sched} {r : Option Slot} (h : pq1Dequeue s = .ok (r, s')) :
      QueueStep p q s (.dequeue r) s'
  | enqueue {s s' : Sched} {i : Slot} {priority : Int} (hp : i ≠ p) (hq : i ≠ q)
      (h : pq1Enqueue s i priority = .ok s') : QueueStep p q s (.enqueue i priority) s'
  | remove {s s' : Sched} {i : Slot} (hp : i ≠ p) (hq : i ≠ q) (h : removeNode s i = .ok s') :
      QueueStep p q s (.remove i) s'
  | change {s s' : Sched} (hn : s'.next = s.next) (hb : s'.queue = s.queue) :
      QueueStep p q s .change s'

/-- The queue is well-formed, and `p` and `q` are in one bucket. -/
def SameBucket (s : Sched) (p q : Slot) : Prop :=
  ∃ l b, WellFormed s l ∧ p ∈ l b ∧ q ∈ l b

/-- The queue is well-formed, and `q` stands before `p` in a bucket. -/
def Ahead (s : Sched) (q p : Slot) : Prop :=
  ∃ l b, WellFormed s l ∧ [q, p].Sublist (l b)

/-- Taking out a process other than `q` and `p` keeps their order. -/
theorem sublist_takeOut (h : [q, p].Sublist (l₁ ++ i :: l₂)) (hi : i ∉ l₁) (hq : i ≠ q) (hp : i ≠ p) :
    [q, p].Sublist (l₁ ++ l₂) := by
  have he := h.erase i
  rwa [erase_of_not_mem (by simp [hq, hp]), erase_append_right _ hi, erase_cons_head] at he

theorem notMem_of_nodup (nd : (l₁ ++ i :: l₂).Nodup) : i ∉ l₁ ++ l₂ := by
  rw [nodup_middle, nodup_cons] at nd
  exact nd.1

/-- What stands before the only occurrence of `p`. -/
theorem mem_of_sublist (hp : p ∉ l₂) : ∀ {l₁ : List Slot}, [q, p].Sublist (l₁ ++ p :: l₂) → q ∈ l₁
  | [], h => by
    rcases sublist_cons_iff.mp h with h | ⟨t, ht, h⟩
    · exact absurd (h.subset (by simp)) hp
    · obtain ⟨-, rfl⟩ := cons_eq_cons.mp ht
      exact absurd (h.subset (by simp)) hp
  | i :: l₁, h => by
    rcases sublist_cons_iff.mp h with h | ⟨t, ht, -⟩
    · exact mem_cons_of_mem _ (mem_of_sublist hp h)
    · rw [(cons_eq_cons.mp ht).1]; exact mem_cons_self

theorem Ahead.dequeue {r : Option Slot} (hpq : p ≠ q) (h : Ahead s q p)
    (hd : pq1Dequeue s = .ok (r, s')) : r = some q ∨ Ahead s' q p := by
  obtain ⟨l, b, hw, hb⟩ := h
  obtain ⟨r', s'', he, -, hnone, hsome⟩ := pq1Dequeue_spec hw
  obtain ⟨rfl, rfl⟩ : r' = r ∧ s'' = s' := by
    rw [he] at hd; cases hd; exact ⟨rfl, rfl⟩
  cases r' with
  | none => rw [hnone rfl]; exact .inr ⟨l, b, hw, hb⟩
  | some i =>
    obtain ⟨c, l₁, l₂, hr⟩ := hsome i rfl
    by_cases hiq : i = q
    · exact .inl (by rw [hiq])
    refine .inr ⟨_, b, hr.moved, ?_⟩
    by_cases e : b = c
    · subst e
      rw [update_self]
      have nd := (hw.chain b).nodup
      rw [hr.bucket] at hb nd
      have hni := notMem_of_nodup nd
      by_cases hip : i = p
      · -- `p` itself goes to the end, behind `q`
        subst hip
        have hq : q ∈ l₁ ++ l₂ := by
          have : q ∈ l₁ ++ i :: l₂ := hb.subset (by simp)
          simp only [mem_append, mem_cons] at this ⊢
          rcases this with hm | hm | hm
          · exact .inl hm
          · exact absurd hm.symm hiq
          · exact .inr hm
        exact (singleton_sublist.mpr hq).append (List.Sublist.refl [i])
      · refine (sublist_takeOut hb ?_ hiq hip).trans (sublist_append_left _ _)
        exact fun hm => hni (mem_append_left _ hm)
    · rwa [update_of_ne e]

/-- What `pq1_enqueue` writes. -/
theorem pq1Enqueue_eq_ok (h : pq1Enqueue s i priority = .ok s') :
    ∃ c, s'.queue = update s.queue c (some i) ∧ (∀ j, j ≠ i → s'.next j = s.next j) ∧
      (s.queue c ≠ none → s'.next i = s.queue c) := by
  obtain ⟨c, -, h⟩ := of_bind h
  cases hq : s.queue c with
  | none =>
    rw [hq] at h
    cases h
    exact ⟨c, rfl, fun _ _ => rfl, fun hn => absurd hq hn⟩
  | some cur =>
    rw [hq] at h
    cases h
    refine ⟨c, rfl, fun j hj => ?_, fun _ => ?_⟩
    · rw [next_write_next, update_of_ne hj]; rfl
    · rw [next_write_next, update_self, hq]

/-- A process already in a bucket cannot be enqueued and leave a well-formed queue: it would be in
two buckets, or twice in one. -/
theorem enqueue_fresh {c : Fin PRIO_MAX} (h : WellFormed s l) (h' : WellFormed s' l')
    (hq : s'.queue = update s.queue c (some i)) (hn : ∀ j, j ≠ i → s'.next j = s.next j)
    (hi : s.queue c ≠ none → s'.next i = s.queue c) : ∀ b, i ∉ l b := by
  intro b hb
  obtain ⟨l₁, l₂, hl⟩ := append_of_mem hb
  have hc := h.chain b
  rw [hl] at hc
  have hagree : ∀ j ∈ l₁, s'.next j = s.next j := fun j hj => hn j fun e => by
    subst e
    exact notMem_of_nodup hc.nodup (mem_append_left _ hj)
  have hic : Chain s'.next (some i) (l' c) := by
    have := h'.chain c
    rwa [hq, update_self] at this
  obtain ⟨t, ht⟩ : ∃ t, l' c = i :: t := by
    cases hl' : l' c with
    | nil => rw [hl'] at hic; cases hic
    | cons j t =>
      rw [hl'] at hic
      rw [Option.some.inj hic.1]
      exact ⟨t, rfl⟩
  rw [ht] at hic
  by_cases e : b = c
  · subst e
    have hne : s.queue b ≠ none := fun hz => by
      rw [hz] at hc
      cases l₁ <;> cases hc.1
    have htail : Chain s'.next (s.queue b) t := by
      have := hic.2
      rwa [hi hne] at this
    have := hc.mem_of_agree hagree htail
    exact (nodup_cons.mp hic.nodup).1 this
  · have hb' : Chain s'.next (s.queue b) (l' b) := by
      have := h'.chain b
      rwa [hq, update_of_ne e] at this
    exact e (h'.disj b c i (hc.mem_of_agree hagree hb') (by rw [ht]; exact mem_cons_self))

theorem Ahead.enqueue (h : Ahead s q p) (hs : SameBucket s' p q)
    (he : pq1Enqueue s i priority = .ok s') : Ahead s' q p := by
  obtain ⟨l, b, hw, hb⟩ := h
  obtain ⟨l', -, hw', -⟩ := hs
  obtain ⟨c, hq, hn, hi⟩ := pq1Enqueue_eq_ok he
  have hfresh := enqueue_fresh hw hw' hq hn hi
  have hold : Chain s'.next (s.queue b) (l b) :=
    (hw.chain b).congr fun j hj => hn j fun e => hfresh b (e ▸ hj)
  refine ⟨l', b, hw', ?_⟩
  by_cases e : b = c
  · subst e
    have hne : s.queue b ≠ none := fun hz => by
      have hnil : l b = [] := (hw.chain b).unique (by rw [hz]; rfl)
      rw [hnil] at hb
      exact absurd hb (by simp)
    have hc : Chain s'.next (s'.queue b) (i :: l b) := by
      rw [hq, update_self]
      exact ⟨rfl, by rw [hi hne]; exact hold⟩
    rw [(hw'.chain b).unique hc]
    exact hb.cons i
  · have hc : Chain s'.next (s'.queue b) (l b) := by rwa [hq, update_of_ne e]
    rwa [(hw'.chain b).unique hc]

theorem Ahead.remove (h : Ahead s q p) (hs : SameBucket s' p q) (he : removeNode s i = .ok s') :
    Ahead s' q p := by
  obtain ⟨l, b, hw, hb⟩ := h
  obtain ⟨l', b', hw', hp', hq'⟩ := hs
  obtain ⟨c, hc, -⟩ := of_bind he
  have hprio := bucket_eq_ok hc
  by_cases hex : ∃ a ∈ l c, (s.proc a).pid = (s.proc i).pid
  · -- the first entry of the bucket with the pid leaves it; it is neither `p` nor `q`
    have hsome : ((l c).find? fun a => (s.proc a).pid = (s.proc i).pid).isSome := by
      rw [find?_isSome]
      obtain ⟨a, ha, hpid⟩ := hex
      exact ⟨a, ha, by simpa using hpid⟩
    obtain ⟨a, ha⟩ := Option.isSome_iff_exists.mp hsome
    obtain ⟨hpid, l₁, l₂, hl, hl₁⟩ := find?_eq_some_iff_append.mp ha
    obtain ⟨s'', he', -, hl'', -⟩ := lists_removeNode hw.lists hprio hl (by simpa using hpid)
      fun j hj => by simpa using hl₁ j hj
    obtain rfl : s'' = s' := by
      rw [he] at he'; exact (Except.ok.inj he').symm
    obtain rfl := hl''.unique hw'.lists
    refine ⟨_, b, hw', ?_⟩
    by_cases e : b = c
    · subst e
      have nd := (hw.chain b).nodup
      rw [hl] at hb nd
      have hna := notMem_of_nodup nd
      have hin : ∀ j, j ∈ l b → j ∈ update l b (l₁ ++ l₂) b' → a ≠ j := by
        rintro j hj hj' rfl
        by_cases eb : b' = b
        · subst eb
          rw [update_self] at hj'
          exact hna hj'
        · rw [update_of_ne eb] at hj'
          exact eb (hw.disj b' b a hj' hj)
      rw [update_self]
      refine sublist_takeOut hb (fun hm => hna (mem_append_left _ hm)) (hin q ?_ hq') (hin p ?_ hp')
      · rw [hl]; exact hb.subset (by simp)
      · rw [hl]; exact hb.subset (by simp)
    · rwa [update_of_ne e]
  · push Not at hex
    have := removeNode_absent hw.lists hprio hex
    obtain rfl : s = s' := by
      rw [this] at he; exact Except.ok.inj he
    exact ⟨l, b, hw, hb⟩

/-- Every step to a state where `p` and `q` are in one bucket keeps `q` before `p`, unless it
returns `q`. -/
theorem Ahead.step {a : QueueOp} (hpq : p ≠ q) (h : Ahead s q p) (hs : QueueStep p q s a s')
    (hb : SameBucket s' p q) (ha : a ≠ .dequeue (some q)) : Ahead s' q p := by
  cases hs with
  | dequeue hd =>
    rcases h.dequeue hpq hd with rfl | h'
    · exact absurd rfl ha
    · exact h'
  | enqueue _ _ he => exact h.enqueue hb he
  | remove _ _ he => exact h.remove hb he
  | change hn hq =>
    obtain ⟨l, b, hw, hlb⟩ := h
    obtain ⟨l', -, hw', -⟩ := hb
    obtain rfl := (hw.lists.congr hn hq).unique hw'.lists
    exact ⟨l, b, hw', hlb⟩

/-- A process just returned stands behind the others of its bucket. -/
theorem ahead_of_returned (hpq : p ≠ q) (hw : WellFormed s l) (hd : pq1Dequeue s = .ok (some p, s'))
    (hb : SameBucket s' p q) : Ahead s' q p := by
  obtain ⟨r, s'', he, -, -, hsome⟩ := pq1Dequeue_spec hw
  obtain ⟨rfl, rfl⟩ : r = some p ∧ s'' = s' := by
    rw [he] at hd; cases hd; exact ⟨rfl, rfl⟩
  obtain ⟨c, l₁, l₂, hr⟩ := hsome p rfl
  obtain ⟨l', b, hw', hp, hq⟩ := hb
  obtain rfl := hr.moved.lists.unique hw'.lists
  obtain rfl : c = b := hw'.disj c b p (by simp) hp
  refine ⟨_, c, hw', ?_⟩
  rw [update_self] at hq ⊢
  have hq : q ∈ l₁ ++ l₂ := by
    rcases mem_append.mp hq with hm | hm
    · exact hm
    · exact absurd (mem_singleton.mp hm).symm hpq
  exact (singleton_sublist.mpr hq).append (List.Sublist.refl [p])

/-- A process is not returned while one before it in its bucket is RUNNABLE. -/
theorem Ahead.not_returned (h : Ahead s q p) (hq : (s.proc q).state = .runnable) :
    pq1Dequeue s ≠ .ok (some p, s') := by
  intro hd
  obtain ⟨l, b, hw, hb⟩ := h
  obtain ⟨r, s'', he, -, -, hsome⟩ := pq1Dequeue_spec hw
  obtain ⟨rfl, rfl⟩ : r = some p ∧ s'' = s' := by
    rw [he] at hd; cases hd; exact ⟨rfl, rfl⟩
  obtain ⟨c, l₁, l₂, hr⟩ := hsome p rfl
  obtain rfl : b = c := hw.disj b c p (hb.subset (by simp)) (by rw [hr.bucket]; simp)
  have nd := (hw.chain b).nodup
  rw [hr.bucket] at hb nd
  -- `p` has only one place in the list, so `q` is in the part before it
  have hq₁ : q ∈ l₁ := mem_of_sublist (fun hm => notMem_of_nodup nd (mem_append_right _ hm)) hb
  exact hr.first q hq₁ hq

/-- **Fairness in a bucket.**  A process `p` is returned by two dequeues; in between the queue is
driven by dequeues, enqueues and removals of other processes and by changes of states, and `p` and
`q` stay in one bucket.  If `q` is RUNNABLE at the second dequeue, it was returned in between. -/
theorem returned_between {s₀ s₁ s₂ s₃ : Sched} {t : List (Sched × QueueOp)} (hpq : p ≠ q)
    (hw : WellFormed s₀ l) (hfirst : pq1Dequeue s₀ = .ok (some p, s₁))
    (hrun : Run (QueueStep p q) s₁ t s₂) (hb : (∀ x ∈ t, SameBucket x.1 p q) ∧ SameBucket s₂ p q)
    (hsecond : pq1Dequeue s₂ = .ok (some p, s₃)) (hq : (s₂.proc q).state = .runnable) :
    ∃ x ∈ t, x.2 = .dequeue (some q) := by
  by_contra hnone
  push Not at hnone
  have hs₁ : SameBucket s₁ p q := by
    cases hrun with
    | refl => exact hb.2
    | more _ _ => exact hb.1 _ mem_cons_self
  have hahead := (hrun.restrict hb.1 hb.2).inv
    (fun s a _ (h : Ahead s q p) hs (ha : a ≠ .dequeue (some q)) => h.step hpq hs.1 hs.2 ha)
    (ahead_of_returned hpq hw hfirst hs₁) hnone
  exact hahead.2.not_returned hq hsecond

/-- The first process of bucket 3 is RUNNABLE, and the other buckets are empty. -/
theorem dequeue_bucket3 {k : List Slot} (h : WellFormed s (bucket3 (p :: k)))
    (hp : (s.proc p).state = .runnable) :
    ∃ s', pq1Dequeue s = .ok (some p, s') ∧ Frame s s' ∧ WellFormed s' (bucket3 (k ++ [p])) := by
  have hb : bucket3 (p :: k) 3 = [] ++ p :: k := update_self ..
  obtain ⟨s', he, hf, hl, -⟩ := lists_dequeue (b := 3) h.lists h.prio
    (fun c hc i hi => by simp [bucket3, hc.ne] at hi) hb (by simp) hp
  refine ⟨s', he, hf, ?_⟩
  have hw := h.of_frame hb hf hl
  rwa [bucket3, update_idem] at hw

theorem returned_between_twoQueued : ∃ s₁ s₂ s₃ t,
    pq1Dequeue twoQueued = .ok (some 1, s₁) ∧ Run (QueueStep 1 2) s₁ t s₂ ∧
      pq1Dequeue s₂ = .ok (some 1, s₃) ∧ ∃ x ∈ t, x.2 = .dequeue (some 2) := by
  obtain ⟨s₁, h₁, f₁, w₁⟩ := dequeue_bucket3 wellFormed_twoQueued rfl
  obtain ⟨s₂, h₂, f₂, w₂⟩ := dequeue_bucket3 (k := [1]) w₁ (f₁.state 2)
  obtain ⟨s₃, h₃, -, -⟩ := dequeue_bucket3 (k := [2]) w₂ ((f₁.trans f₂).state 1)
  have hrun : Run (QueueStep 1 2) s₁ [(s₁, .dequeue (some 2))] s₂ := .one (.dequeue h₂)
  refine ⟨s₁, s₂, s₃, _, h₁, hrun, h₃, ?_⟩
  refine returned_between (by decide) wellFormed_twoQueued h₁ hrun ⟨fun x hx => ?_, ?_⟩ h₃
    ((f₁.trans f₂).state 2)
  · obtain rfl := mem_singleton.mp hx
    exact ⟨_, 3, w₁, by simp [bucket3], by simp [bucket3]⟩
  · exact ⟨_, 3, w₂, by simp [bucket3], by simp [bucket3]⟩

end Xv6.Sched
