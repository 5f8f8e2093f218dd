import Xv6.Lib.Chain
import Xv6.Kernel.Sched
import Mathlib.Data.Fintype.Card
import Mathlib.Data.List.FinRange

/-!
# Kernel — RunQueue

The run queue as ten lists.  `Rep s q` says that bucket `b` of `s` is the list `q b`, that no
process is in two buckets, and that a process in none has a null `next`.  Each queue operation of
`Sched.lean` has one specification over `Rep`:

* `rep_enqueue`: `pq1_enqueue` of a process in no bucket puts it first in its bucket;
* `rep_removeNode`: `remove_node` takes a process out of its bucket, `removeNode_absent` does
  nothing when no entry of the bucket has its pid;
* `rep_dequeue`: `pq1_dequeue` returns the first RUNNABLE process of the first bucket that has
  one, and moves it to the end of that bucket.

`Lists` is `Rep` without the last clause, which only `pq1_enqueue` into an empty bucket needs; the
`lists_` lemmas are stated over it.  The operations change only `next` fields and buckets (`Frame`).
-/

namespace Xv6

open Lib Function List Option Res

/-- An entry without its link. -/
def PEntry.core (e : PEntry) : PEntry := { e with next := none }

namespace Sched

/-- `s'` differs from `s` only in links and buckets. -/
structure Frame (s s' : Sched) : Prop where
  core : ∀ i, (s'.proc i).core = (s.proc i).core
  nextpid : s'.nextpid = s.nextpid
  initproc : s'.initproc = s.initproc

namespace Frame

variable {s s₁ s' : Sched}

theorem refl (s : Sched) : Frame s s := ⟨fun _ => rfl, rfl, rfl⟩

theorem trans (h₁ : Frame s s₁) (h₂ : Frame s₁ s') : Frame s s' :=
  ⟨fun i => (h₂.core i).trans (h₁.core i), h₂.nextpid.trans h₁.nextpid,
    h₂.initproc.trans h₁.initproc⟩

section

variable (h : Frame s s') (i : Slot)

include h i

theorem state : (s'.proc i).state = (s.proc i).state := by
  show (s'.proc i).core.state = (s.proc i).core.state
  rw [h.core i]

theorem pid : (s'.proc i).pid = (s.proc i).pid := by
  show (s'.proc i).core.pid = (s.proc i).core.pid
  rw [h.core i]

theorem parent : (s'.proc i).parent = (s.proc i).parent := by
  show (s'.proc i).core.parent = (s.proc i).core.parent
  rw [h.core i]

theorem priority : (s'.proc i).priority = (s.proc i).priority := by
  show (s'.proc i).core.priority = (s.proc i).core.priority
  rw [h.core i]

theorem context : (s'.proc i).context = (s.proc i).context := by
  show (s'.proc i).core.context = (s.proc i).core.context
  rw [h.core i]

end

end Frame

/-! ### Reading and writing cells -/

variable {s s' : Sched} {l l₂ l₁ : List Slot} {pid : Int} {n : Nat} {prev : Option Slot}
  {cur a : Slot}

theorem frame_write (s : Sched) (c : Cell) (v : Option Slot) : Frame s (s.write c v) := by
  cases c with
  | head b => exact ⟨fun _ => rfl, rfl, rfl⟩
  | next j =>
    refine ⟨fun i => ?_, rfl, rfl⟩
    by_cases e : i = j
    · subst e; simp [write, PEntry.core]
    · simp only [write]; rw [upd_proc_ne e]

@[simp] theorem next_write_head (b : Fin PRIO_MAX) (v : Option Slot) :
    (s.write (.head b) v).next = s.next := rfl

@[simp] theorem next_write_next (i : Slot) (v : Option Slot) :
    (s.write (.next i) v).next = update s.next i v := by
  funext j
  by_cases e : j = i
  · subst e; simp [next, write]
  · rw [update_of_ne e]; simp [next, write, upd_proc_ne e]

@[simp] theorem queue_write_head (b : Fin PRIO_MAX) (v : Option Slot) :
    (s.write (.head b) v).queue = update s.queue b v := rfl

@[simp] theorem queue_write_next (i : Slot) (v : Option Slot) :
    (s.write (.next i) v).queue = s.queue := rfl

theorem bucket_coe (b : Fin PRIO_MAX) : bucket (b : Int) = .ok b := by
  have h : (0 : Int) ≤ (b : Int) ∧ (b : Int) < PRIO_MAX := by omega
  simp [bucket, h]

theorem bucket_eq_ok {priority : Int} {b : Fin PRIO_MAX} (h : bucket priority = .ok b) :
    priority = b := by
  unfold bucket at h
  split at h
  · cases h; simp; omega
  · cases h

/-! ### The representation -/

/-- Bucket `b` of `s` is the list `q b`, and no process is in two buckets. -/
structure Lists (s : Sched) (q : Fin PRIO_MAX → List Slot) : Prop where
  chain : ∀ b, Chain s.next (s.queue b) (q b)
  disj : ∀ b c i, i ∈ q b → i ∈ q c → b = c

/-- The same, where a process in no bucket has a null `next`. -/
structure Rep (s : Sched) (q : Fin PRIO_MAX → List Slot) : Prop where
  chain : ∀ b, Chain s.next (s.queue b) (q b)
  disj : ∀ b c i, i ∈ q b → i ∈ q c → b = c
  idle : ∀ i, (∀ b, i ∉ q b) → s.next i = none

variable {q : Fin PRIO_MAX → List Slot} {b : Fin PRIO_MAX} {p : Slot}

theorem Rep.lists (h : Rep s q) : Lists s q := ⟨h.chain, h.disj⟩

theorem Lists.length_le (h : Lists s q) (b : Fin PRIO_MAX) : (q b).length ≤ NPROC := by
  simpa using (h.chain b).nodup.length_le_card

/-- The lists of a state are determined by it. -/
theorem Lists.unique {q' : Fin PRIO_MAX → List Slot} (h : Lists s q) (h' : Lists s q') : q = q' :=
  funext fun b => (h.chain b).unique (h'.chain b)

theorem rep_pinit : Rep pinit fun _ => [] :=
  ⟨fun _ => rfl, fun _ _ _ h => by simp at h, fun _ _ => rfl⟩

/-- Only the links and the buckets matter to the lists. -/
theorem Lists.congr (h : Lists s q) (hn : s'.next = s.next) (hq : s'.queue = s.queue) :
    Lists s' q :=
  ⟨fun b => by rw [hn, hq]; exact h.chain b, h.disj⟩

theorem Rep.congr (h : Rep s q) (hn : s'.next = s.next) (hq : s'.queue = s.queue) : Rep s' q :=
  have hl := h.lists.congr hn hq
  ⟨hl.chain, hl.disj, fun i hi => by rw [hn]; exact h.idle i hi⟩

/-- The heads of the other buckets, and their lists, when bucket `b` becomes `l`. -/
theorem Lists.update (h : Lists s q) (hb : Chain s'.next (s'.queue b) l)
    (hq : ∀ c, c ≠ b → s'.queue c = s.queue c) (hn : ∀ c, c ≠ b → ∀ i ∈ q c, s'.next i = s.next i)
    (hl : ∀ i ∈ l, ∀ c, c ≠ b → i ∉ q c) : Lists s' (update q b l) := by
  refine ⟨fun c => ?_, fun c d i hc hd => ?_⟩
  · by_cases e : c = b
    · subst e; rw [update_self]; exact hb
    · rw [update_of_ne e, hq c e]
      exact (h.chain c).congr (hn c e)
  · by_cases ec : c = b <;> by_cases ed : d = b
    · exact ec.trans ed.symm
    · subst ec
      rw [update_self] at hc
      rw [update_of_ne ed] at hd
      exact absurd hd (hl i hc d ed)
    · subst ed
      rw [update_self] at hd
      rw [update_of_ne ec] at hc
      exact absurd hc (hl i hd c ec)
    · rw [update_of_ne ec] at hc
      rw [update_of_ne ed] at hd
      exact h.disj c d i hc hd

/-- Lists in which a process of no bucket has a null `next`. -/
theorem Lists.rep (h : Lists s q) (hidle : ∀ i, (∀ b, i ∉ q b) → s.next i = none) : Rep s q :=
  ⟨h.chain, h.disj, hidle⟩

/-- A process in none of the lists after bucket `b` became `l`. -/
theorem notMem_update {i : Slot} (hi : ∀ c, i ∉ update q b l c) : i ∉ l ∧ ∀ c, c ≠ b → i ∉ q c := by
  refine ⟨fun hm => hi b (by rwa [update_self]), fun c hc hm => hi c ?_⟩
  rwa [update_of_ne hc]

/-! ### `pq1_enqueue` -/

theorem lists_enqueue (h : Lists s q) (hp : ∀ b, p ∉ q b) (hz : q b = [] → s.next p = none) :
    ∃ s', pq1Enqueue s p b = .ok s' ∧ Frame s s' ∧
      Lists s' (update q b (p :: q b)) ∧ ∀ i, i ≠ p → s'.next i = s.next i := by
  have hother : ∀ i ∈ p :: q b, ∀ c, c ≠ b → i ∉ q c := fun i hi c hc hic => by
    rcases mem_cons.mp hi with rfl | hi
    · exact hp c hic
    · exact hc (h.disj c b i hic hi)
  simp only [pq1Enqueue, bucket_coe, ok_bind]
  cases hq : s.queue b with
  | none =>
    refine ⟨_, rfl, frame_write _ _ _, h.update ?_ (fun c hc => ?_) (fun c hc i hi => rfl)
      hother, fun _ _ => rfl⟩
    · -- the bucket was empty, so `next` has to be null already
      have he : q b = [] := (h.chain b).unique (by rw [hq]; rfl)
      simp [he, hz he]
    · simp [hc]
  | some cur =>
    refine ⟨_, rfl, (frame_write _ _ _).trans (frame_write _ _ _), h.update ?_ (fun c hc => ?_)
      (fun c hc i hi => ?_) hother, fun i hi => ?_⟩
    · simp only [queue_write_next, queue_write_head, update_self, next_write_next, next_write_head]
      rw [← hq]
      exact (h.chain b).push (hp b)
    · simp [hc]
    · rw [next_write_next, update_of_ne (ne_of_mem_of_not_mem hi (hp c))]; rfl
    · rw [next_write_next, update_of_ne hi]; rfl

/-- **`pq1_enqueue`.**  A process in no bucket becomes the first of its bucket. -/
theorem rep_enqueue (h : Rep s q) (hp : ∀ b, p ∉ q b) :
    ∃ s', pq1Enqueue s p b = .ok s' ∧ Frame s s' ∧ Rep s' (update q b (p :: q b)) := by
  obtain ⟨s', he, hf, hl, hn⟩ := lists_enqueue (b := b) h.lists hp fun _ => h.idle p hp
  refine ⟨s', he, hf, hl.rep fun i hi => ?_⟩
  obtain ⟨hib, hic⟩ := notMem_update hi
  simp only [mem_cons, not_or] at hib
  rw [hn i hib.1]
  refine h.idle i fun c => ?_
  by_cases e : c = b
  · exact e ▸ hib.2
  · exact hic c e

/-! ### `remove_node` -/

theorem removeLoop_none : removeLoop s b pid n prev none = .ok s := by
  cases n <;> rfl

theorem removeLoop_some : removeLoop s b pid (n + 1) prev (some cur) =
      if (s.proc cur).pid = pid then
        .ok ((prev.elim (s.write (.head b) (s.next cur))
          fun j => s.write (.next j) (s.next cur)).write (.next cur) none)
      else removeLoop s b pid n (some cur) (s.next cur) := by
  cases prev <;> rfl

/-- The loop of `remove_node` on a list without the pid. -/
theorem removeLoop_absent : ∀ {n : Nat} {prev cur : Option Slot} {l : List Slot},
    Chain s.next cur l → l.length ≤ n → (∀ i ∈ l, (s.proc i).pid ≠ pid) →
      removeLoop s b pid n prev cur = .ok s
  | _, _, _, [], hc, _, _ => by rw [chain_nil.mp hc, removeLoop_none]
  | 0, _, _, _ :: _, _, hl, _ => by simp at hl
  | n + 1, _, _, i :: l, ⟨hc, ht⟩, hl, hp => by
    rw [hc, removeLoop_some, if_neg (hp i mem_cons_self)]
    exact removeLoop_absent ht (by simpa using hl) fun j hj => hp j (mem_cons_of_mem _ hj)

/-- The loop of `remove_node` on a list where `a` is the first entry with the pid: `a` is
unlinked from the entry before it, or from the cell the loop started at. -/
theorem removeLoop_found (ha : (s.proc a).pid = pid) :
    ∀ {n : Nat} {prev cur : Option Slot} {l₁ : List Slot},
    Chain s.next cur (l₁ ++ a :: l₂) → (l₁ ++ a :: l₂).length ≤ n →
      (∀ i ∈ l₁, (s.proc i).pid ≠ pid) → removeLoop s b pid n prev cur =
        .ok (((l₁.getLast?.or prev).elim (s.write (.head b) (s.next a))
          fun j => s.write (.next j) (s.next a)).write (.next a) none)
  | 0, _, _, l₁, _, hl, _ => by simp at hl
  | n + 1, prev, _, [], ⟨hc, _⟩, _, _ => by
    rw [hc, removeLoop_some, if_pos ha]
    rfl
  | n + 1, prev, _, i :: l₁, ⟨hc, ht⟩, hl, hp => by
    rw [hc, removeLoop_some, if_neg (hp i mem_cons_self)]
    rw [removeLoop_found ha ht (by simpa using hl) fun j hj => hp j (mem_cons_of_mem _ hj)]
    cases l₁ with
    | nil => rfl
    | cons j l₁ =>
      rw [getLast?_cons_cons, getLast?_eq_some_getLast (cons_ne_nil j l₁)]
      rfl

/-- **`remove_node`, absent.**  No entry of the bucket has the pid: nothing happens. -/
theorem removeNode_absent (h : Lists s q) (hb : (s.proc p).priority = b)
    (hp : ∀ i ∈ q b, (s.proc i).pid ≠ (s.proc p).pid) : removeNode s p = .ok s := by
  simp only [removeNode, hb, bucket_coe, ok_bind]
  exact removeLoop_absent (h.chain b) (h.length_le b) hp

/-- **`remove_node`, found.**  The first entry `a` of the bucket that has the pid leaves it. -/
theorem lists_removeNode (h : Lists s q) (hb : (s.proc p).priority = b) (hl : q b = l₁ ++ a :: l₂)
    (ha : (s.proc a).pid = (s.proc p).pid) (hpre : ∀ i ∈ l₁, (s.proc i).pid ≠ (s.proc p).pid) :
    ∃ s', removeNode s p = .ok s' ∧ Frame s s' ∧ Lists s' (update q b (l₁ ++ l₂)) ∧
      s'.next a = none ∧ ∀ i, i ∉ q b → s'.next i = s.next i := by
  have hab : a ∈ q b := by simp [hl]
  have hc := h.chain b
  have hlen := h.length_le b
  have nd := hc.nodup
  rw [hl] at hc hlen nd
  have ha₂ : a ∉ l₂ := (nodup_cons.mp (List.Nodup.of_append_right nd)).1
  have hmem : ∀ i ∈ l₁ ++ l₂, i ∈ q b := fun i hi => by
    rw [hl]; rcases mem_append.mp hi with hi | hi <;> simp [hi]
  have hother : ∀ i ∈ l₁ ++ l₂, ∀ c, c ≠ b → i ∉ q c := fun i hi c hc hic =>
    hc (h.disj c b i hic (hmem i hi))
  have hpb : ∀ c, c ≠ b → a ∉ q c := fun c hc hic => hc (h.disj c b a hic hab)
  simp only [removeNode, hb, bucket_coe, ok_bind]
  rw [removeLoop_found ha hc hlen hpre]
  -- the entry before `a`, if there is one
  rcases eq_nil_or_concat l₁ with rfl | ⟨l₀, j, rfl⟩
  · simp only [getLast?_nil, none_or, elim_none, nil_append] at *
    refine ⟨_, rfl, (frame_write _ _ _).trans (frame_write _ _ _), h.update ?_ (fun c hc => ?_)
      (fun c hc i hi => ?_) hother, by simp, fun i hi => ?_⟩
    · obtain ⟨-, ht⟩ := hc
      simpa using ht.update_of_notMem ha₂
    · simp [hc]
    · simp [update_of_ne fun e : i = a => hpb c hc (e ▸ hi)]
    · simp [update_of_ne fun e : i = a => hi (e ▸ hab)]
  · simp only [concat_eq_append, getLast?_append, getLast?_singleton,
      some_or, or_none, elim_some] at *
    have hj : j ∈ q b := hmem j (by simp)
    refine ⟨_, rfl, (frame_write _ _ _).trans (frame_write _ _ _), h.update ?_ (fun c hc => rfl)
      (fun c hc i hi => ?_) hother, by simp, fun i hi => ?_⟩
    · rw [append_assoc] at hc ⊢
      simpa using hc.unlink
    · have e₁ : i ≠ a := fun e => hpb c hc (e ▸ hi)
      have e₂ : i ≠ j := fun e => hc (h.disj c b j (e ▸ hi) hj)
      simp [e₁, e₂]
    · have e₁ : i ≠ a := fun e => hi (e ▸ hab)
      have e₂ : i ≠ j := fun e => hi (e ▸ hj)
      simp [e₁, e₂]

/-- **`remove_node`.**  A process of its bucket, the only one there with its pid, leaves the
bucket. -/
theorem rep_removeNode (h : Rep s q) (hb : (s.proc p).priority = b) (hp : p ∈ q b)
    (hpid : ∀ i ∈ q b, (s.proc i).pid = (s.proc p).pid → i = p) :
    ∃ s', removeNode s p = .ok s' ∧ Frame s s' ∧ Rep s' (update q b ((q b).erase p)) := by
  obtain ⟨l₁, l₂, hl⟩ := append_of_mem hp
  have nd := (h.chain b).nodup
  rw [hl] at nd
  have hp₁ : p ∉ l₁ := fun hm => by
    have := disjoint_of_nodup_append nd
    exact this hm mem_cons_self
  have hpre : ∀ i ∈ l₁, (s.proc i).pid ≠ (s.proc p).pid := fun i hi e =>
    hp₁ (hpid i (by rw [hl]; simp [hi]) e ▸ hi)
  have herase : (q b).erase p = l₁ ++ l₂ := by
    rw [hl, erase_append_right _ hp₁, erase_cons_head]
  obtain ⟨s', he, hf, hl', hz, hn⟩ := lists_removeNode h.lists hb hl rfl hpre
  rw [herase]
  refine ⟨s', he, hf, hl'.rep fun i hi => ?_⟩
  obtain ⟨hib, hic⟩ := notMem_update hi
  by_cases e : i = p
  · exact e ▸ hz
  have hiq : i ∉ q b := by
    rw [hl]
    simp only [mem_append, not_or] at hib
    simp [hib.1, hib.2, e]
  rw [hn i hiq]
  refine h.idle i fun c => ?_
  by_cases ec : c = b
  · exact ec ▸ hiq
  · exact hic c ec

/-! ### `pq1_dequeue` -/

theorem skipLoop_eq : ∀ {n : Nat} {cur : Option Slot} {l : List Slot},
    Chain s.next cur l → l.length ≤ n →
      skipLoop s n cur = .ok (l.find? fun i => (s.proc i).state = .runnable)
  | n, _, [], hc, _ => by rw [chain_nil.mp hc]; cases n <;> rfl
  | 0, _, _ :: _, _, hl => by simp at hl
  | n + 1, _, i :: l, ⟨hc, ht⟩, hl => by
    rw [hc, skipLoop, find?_cons]
    by_cases hi : (s.proc i).state = .runnable
    · simp [hi]
    · rw [if_neg hi]
      simp only [hi, decide_false]
      exact skipLoop_eq ht (by simpa using hl)

theorem firstRunnable_eq (h : Lists s q) : ∀ bs : List (Fin PRIO_MAX), firstRunnable s bs =
      .ok (bs.findSome? fun b => (q b).find? fun i => (s.proc i).state = .runnable)
  | [] => rfl
  | b :: bs => by
    rw [firstRunnable, skipLoop_eq (h.chain b) (h.length_le b), findSome?_cons, ok_bind]
    cases (q b).find? fun i => (s.proc i).state = .runnable with
    | none => exact firstRunnable_eq h bs
    | some cur => rfl

/-- The cell the removal loop stops at holds the entry before `cur`. -/
theorem prevLoop_spec {j : Slot} : ∀ {n : Nat} {c : Cell} {l₁ : List Slot},
      Chain s.next (s.read c) (l₁ ++ j :: cur :: l₂) → l₁.length ≤ n →
        ∃ c', prevLoop s cur n c = .ok c' ∧ s.read c' = some j
  | n, c, [], ⟨hc, ht⟩, _ => by
    refine ⟨c, ?_, hc⟩
    have hn : (s.proc j).next = some cur := ht.1
    cases n <;> simp [prevLoop, hc, hn]
  | 0, _, _ :: _, _, hl => by simp at hl
  | n + 1, c, i :: l₁, ⟨hc, ht⟩, hl => by
    obtain ⟨c', hc', hr⟩ := prevLoop_spec (c := .next i) ht (by simpa using hl)
    refine ⟨c', ?_, hr⟩
    have hne : (s.proc i).next ≠ some cur := fun e => by
      -- `cur` would be met twice
      have nd := ht.nodup
      cases l₁ with
      | nil | cons =>
        obtain rfl := some.inj (e.symm.trans ht.1)
        simp at nd
    simpa [prevLoop, hc, hne] using hc'

/-- The cell the appending loop stops at: the one it started at, or the link of the last entry. -/
theorem endLoop_spec : ∀ {n : Nat} {c : Cell} {l : List Slot},
    Chain s.next (s.read c) l → l.length ≤ n → endLoop s n c = .ok (l.getLast?.elim c .next)
  | n, c, [], hc, _ => by cases n <;> simp [endLoop, chain_nil.mp hc]
  | 0, _, _ :: _, _, hl => by simp at hl
  | n + 1, c, i :: l, ⟨hc, ht⟩, hl => by
    simp only [endLoop, hc]
    rw [endLoop_spec (c := .next i) ht (by simpa using hl)]
    cases l with
    | nil => rfl
    | cons j l =>
      rw [getLast?_cons_cons, getLast?_eq_some_getLast (cons_ne_nil j l)]
      rfl

/-- The removal of `pq1_dequeue`. -/
theorem takeOut_spec (hc : Chain s.next (s.queue b) (l₁ ++ cur :: l₂)) (hl : l₁.length ≤ NPROC) :
    ∃ s', takeOut s b cur = .ok s' ∧ Frame s s' ∧ Chain s'.next (s'.queue b) (l₁ ++ l₂) ∧
      (∀ c, c ≠ b → s'.queue c = s.queue c) ∧ ∀ i, i ∉ l₁ → s'.next i = s.next i := by
  have nd := hc.nodup
  rcases eq_nil_or_concat l₁ with rfl | ⟨l₀, j, rfl⟩
  · refine ⟨_, if_pos hc.1, frame_write _ _ _, ?_, fun c hcb => ?_, fun _ _ => rfl⟩
    · simpa [next] using hc.2
    · simp [hcb]
  rw [concat_eq_append, append_assoc] at hc nd
  simp only [concat_eq_append, length_append] at hl
  have hne : s.queue b ≠ some cur := fun e => by
    cases l₀ with
    | nil | cons =>
      obtain rfl := some.inj (e.symm.trans hc.1)
      simp at nd
  obtain ⟨c', hp, hr⟩ := prevLoop_spec (n := NPROC) (c := .head b) hc (by omega)
  refine ⟨s.write (.next j) (s.next cur), ?_, frame_write _ _ _, ?_, fun _ _ => rfl, fun i hi => ?_⟩
  · rw [takeOut, if_neg hne, hp, ok_bind]
    simp only [hr]
    rfl
  · have hu := hc.unlink (v := s.next cur)
    rw [concat_eq_append, append_assoc, next_write_next, queue_write_next]
    refine hu.congr fun i hi => ?_
    have : i ≠ cur := fun e => by
      subst e
      have := nodup_append.mp nd
      simp only [mem_append, mem_cons, singleton_append] at hi
      grind
    rw [update_of_ne this]
  · rw [next_write_next, update_of_ne]
    rintro rfl
    exact hi (by simp)

/-- The appending of `pq1_dequeue`. -/
theorem putLast_spec (hc : Chain s.next (s.queue b) l) (hl : l.length ≤ NPROC) (hcur : cur ∉ l) :
    ∃ s', putLast s b cur = .ok s' ∧ Frame s s' ∧ Chain s'.next (s'.queue b) (l ++ [cur]) ∧
      (∀ c, c ≠ b → s'.queue c = s.queue c) ∧ (∀ i, i ∉ l → i ≠ cur → s'.next i = s.next i) ∧
      s'.next cur = none := by
  rw [putLast, endLoop_spec (c := .head b) hc hl, ok_bind]
  refine ⟨_, rfl, (frame_write _ _ _).trans (frame_write _ _ _), ?_⟩
  rcases eq_nil_or_concat l with rfl | ⟨l₀, j, rfl⟩
  · refine ⟨by simp, fun c hcb => ?_, fun i _ hi => ?_, by simp⟩
    · simp [hcb]
    · simp [hi]
  rw [concat_eq_append] at hc hcur ⊢
  simp only [getLast?_append, getLast?_singleton, some_or, elim_some]
  refine ⟨?_, fun _ _ => rfl, fun i hi hne => ?_, by simp⟩
  · simpa using hc.snoc hcur
  · have : i ≠ j := fun e => hi (by simp [e])
    simp [hne, this]

/-- **`pq1_dequeue`, none.**  No queued process is RUNNABLE: nothing happens. -/
theorem dequeue_none (h : Lists s q)
    (hnone : ∀ b, ∀ i ∈ q b, (s.proc i).state ≠ .runnable) : pq1Dequeue s = .ok (none, s) := by
  have : (finRange PRIO_MAX).findSome?
      (fun b => (q b).find? fun i => (s.proc i).state = .runnable) = none := by
    rw [findSome?_eq_none_iff]
    intro b _
    rw [find?_eq_none]
    intro i hi
    simpa using hnone b i hi
  rw [pq1Dequeue, firstRunnable_eq h, this]
  rfl

/-- **`pq1_dequeue`.**  Let `cur` be the first RUNNABLE process of bucket `b`, and no lower bucket
have one.  Then `cur` is returned, and moves to the end of bucket `b`. -/
theorem lists_dequeue (h : Lists s q) (hprio : ∀ b, ∀ i ∈ q b, (s.proc i).priority = b)
    (hlow : ∀ c < b, ∀ i ∈ q c, (s.proc i).state ≠ .runnable) (hq : q b = l₁ ++ cur :: l₂)
    (hl₁ : ∀ i ∈ l₁, (s.proc i).state ≠ .runnable) (hcur : (s.proc cur).state = .runnable) :
    ∃ s', pq1Dequeue s = .ok (some cur, s') ∧ Frame s s' ∧
      Lists s' (update q b (l₁ ++ l₂ ++ [cur])) ∧ ∀ i, i ∉ q b → s'.next i = s.next i := by
  have hfind : (q b).find? (fun i => (s.proc i).state = .runnable) = some cur := by
    rw [hq, find?_append, find?_eq_none.mpr fun i hi => by simpa using hl₁ i hi]
    simp [hcur]
  have hsome : (finRange PRIO_MAX).findSome?
      (fun b => (q b).find? fun i => (s.proc i).state = .runnable) = some cur := by
    have hsplit : finRange PRIO_MAX =
        (finRange PRIO_MAX).take b ++ b :: (finRange PRIO_MAX).drop (b + 1) := by
      conv_lhs => rw [← take_append_drop b (finRange PRIO_MAX)]
      rw [drop_eq_getElem_cons (by simp)]
      simp
    rw [hsplit, findSome?_append, findSome?_eq_none_iff.mpr, findSome?_cons, hfind]
    · rfl
    · intro c hc
      rw [find?_eq_none]
      intro i hi
      have hlt : c < b := by
        obtain ⟨k, hk, rfl⟩ := mem_iff_getElem.mp hc
        simp only [length_take, length_finRange, lt_min_iff] at hk
        simp [Fin.lt_def, hk.1]
      simpa using hlow c hlt i hi
  have hmem : cur ∈ q b := by simp [hq]
  have hc := h.chain b
  have hlen := h.length_le b
  rw [hq] at hc hlen
  simp only [length_append, length_cons] at hlen
  obtain ⟨s₁, e₁, f₁, c₁, hq₁, hn₁⟩ := takeOut_spec hc (by omega)
  have hnot : cur ∉ l₁ ++ l₂ := by
    have nd := hc.nodup
    have := nodup_append.mp nd
    simp only [mem_append]
    grind
  obtain ⟨s₂, e₂, f₂, c₂, hq₂, hn₂, hz⟩ := putLast_spec c₁
    (by simp only [length_append]; omega) hnot
  have hout : ∀ i, i ∉ q b → s₂.next i = s.next i := fun i hi => by
    rw [hq] at hi
    simp only [mem_append, mem_cons, not_or] at hi
    rw [hn₂ i (by simp [hi.1, hi.2.2]) hi.2.1, hn₁ i hi.1]
  refine ⟨s₂, ?_, f₁.trans f₂, h.update c₂ (fun c hcb => ?_) (fun c hcb i hi => ?_)
    (fun i hi c hcb hic => ?_), hout⟩
  · rw [pq1Dequeue, firstRunnable_eq h, hsome, ok_bind]
    simp only [hprio b cur hmem, bucket_coe, ok_bind, e₁, e₂]
  · rw [hq₂ c hcb, hq₁ c hcb]
  · exact hout i fun hm => hcb (h.disj c b i hi hm)
  · refine hcb (h.disj c b i hic ?_)
    rw [hq]
    simp only [mem_append, mem_cons, not_mem_nil, or_false] at hi ⊢
    tauto

theorem rep_dequeue (h : Rep s q) (hprio : ∀ b, ∀ i ∈ q b, (s.proc i).priority = b)
    (hlow : ∀ c < b, ∀ i ∈ q c, (s.proc i).state ≠ .runnable) (hq : q b = l₁ ++ cur :: l₂)
    (hl₁ : ∀ i ∈ l₁, (s.proc i).state ≠ .runnable) (hcur : (s.proc cur).state = .runnable) :
    ∃ s', pq1Dequeue s = .ok (some cur, s') ∧ Frame s s' ∧
      Rep s' (update q b (l₁ ++ l₂ ++ [cur])) := by
  obtain ⟨s', he, hf, hl, hn⟩ := lists_dequeue h.lists hprio hlow hq hl₁ hcur
  refine ⟨s', he, hf, hl.rep fun i hi => ?_⟩
  obtain ⟨hib, hic⟩ := notMem_update hi
  have hiq : i ∉ q b := by
    rw [hq]
    simp only [mem_append, mem_singleton, not_or] at hib
    simp [hib.1.1, hib.1.2, hib.2]
  rw [hn i hiq]
  refine h.idle i fun c => ?_
  by_cases e : c = b
  · exact e ▸ hiq
  · exact hic c e

end Sched

end Xv6
