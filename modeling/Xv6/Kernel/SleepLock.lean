import Xv6.Lib.Monitor
import Xv6.Kernel.Mutex

/-!
# Kernel — SleepLock

`sleeplock.c` as code under the spin lock `lk->lk`, for any number of processes `τ`: `acquiresleep`
and `releasesleep` point by point (`Slp.instr`).  A process that holds the sleep lock may release
it, one that does not may try to acquire it; any of them may be killed.

* `sleeplock_excl`: at most one process holds the lock, `locked` says whether one does, and nobody
  sleeps on a lock that is free.
-/

namespace Xv6.Slp

open Lib

/-- Where a process is. -/
inductive Point where
  | outside
  /-- `acquiresleep`, before `acquire(&lk->lk)` -/
  | enter
  /-- `while (lk->locked)` -/
  | test
  /-- `sleep(lk, &lk->lk)` -/
  | nap
  /-- `lk->locked = 1` -/
  | lock
  /-- `lk->pid = myproc()->pid` -/
  | own
  /-- `release(&lk->lk)`, the end of `acquiresleep` -/
  | got
  /-- `acquiresleep` has returned -/
  | holding
  /-- `releasesleep`, before `acquire(&lk->lk)` -/
  | leave
  /-- `lk->locked = 0` -/
  | unlock
  /-- `lk->pid = 0` -/
  | disown
  /-- `wakeup(lk)` -/
  | wake
  /-- `release(&lk->lk)`, the end of `releasesleep` -/
  | free
  deriving DecidableEq

variable {τ : Type}

/-- `acquiresleep` and `releasesleep`; the channel is the lock itself. -/
def instr (pid : τ → Int) : Point → Monitor.Instr τ Point SleepLock Unit
  | .outside => .rest
  | .enter => .acquire .test
  | .test => .access fun _ _ lk => (lk, if lk.locked then .nap else .lock)
  | .nap => .sleep () .test
  | .lock => .access fun _ _ lk => ({ lk with locked := true }, .own)
  | .own => .access fun t _ lk => ({ lk with pid := pid t }, .got)
  | .got => .release .holding
  | .holding => .rest
  | .leave => .acquire .unlock
  | .unlock => .access fun _ _ lk => ({ lk with locked := false }, .disown)
  | .disown => .access fun _ _ lk => ({ lk with pid := 0 }, .wake)
  | .wake => .wakeup () .free
  | .free => .release .outside

/-- Only the holder releases. -/
def may (_ : SleepLock) (pt : τ → Point) (t : τ) (l : Point) : Prop :=
  (pt t = .outside ∧ l = .enter) ∨ (pt t = .holding ∧ l = .leave)

instance (lk : SleepLock) (pt : τ → Point) (t : τ) (l : Point) : Decidable (may lk pt t l) :=
  inferInstanceAs (Decidable (_ ∨ _))

/-- A process between the return of `acquiresleep` and its call of `releasesleep`, which may be
waiting for `lk->lk`. -/
def Between (l : Point) : Prop := l = .holding ∨ l = .leave

/-- From `lk->locked = 1` to `lk->locked = 0`. -/
def Owns : Point → Prop
  | .own | .got | .holding | .leave | .unlock => True
  | _ => False

/-- `lk->locked` says whether there is an owner, and the process at `lk->lk` knows it where it has
just tested it. -/
def J (h : Option τ) (lk : SleepLock) (pt : τ → Point) : Prop :=
  ∃ o, Holder o pt Owns ∧ lk.locked = o.isSome ∧
    ∀ t, h = some t → (pt t = .nap → lk.locked = true) ∧ (pt t = .lock → lk.locked = false)

/-- A process may sleep while the lock is locked, or a wakeup is still to come. -/
def G (l : Point) (lk : SleepLock) (_ : Unit) : Prop :=
  lk.locked = true ∨ l = .disown ∨ l = .wake

variable [DecidableEq τ] {pt : τ → Point} {lk : SleepLock} {t : τ} {pid : τ → Int}
  {x : Monitor.State τ Point SleepLock}

theorem sound (pid : τ → Int) :
    Monitor.Sound (instr pid) may (fun _ _ _ => True) J (fun _ lk => lk.locked = true) G where
  call {h s} pt {t l} hr hm hJ := by
    obtain ⟨o, ho, hlk, hh⟩ := hJ
    rcases hm with ⟨hp, rfl⟩ | ⟨hp, rfl⟩
    · refine ⟨rfl, o, ho.keep (by simp [hp, Owns]), hlk, fun u hu => ?_⟩
      by_cases e : u = t
      · subst e; simp
      · simpa [Function.update_of_ne e] using hh u hu
    refine ⟨rfl, o, ho.keep (by simp [hp, Owns]), hlk, fun u hu => ?_⟩
    by_cases e : u = t
    · subst e; simp
    · simpa [Function.update_of_ne e] using hh u hu
  acquire {s} pt {t l} hi hJ := by
    obtain ⟨o, ho, hlk, -⟩ := hJ
    cases hp : pt t <;> rw [hp] at hi <;> cases hi
    · exact ⟨rfl, ⟨o, ho.keep (by simp [hp, Owns]), hlk, by simp⟩, fun _ h => .inl h⟩
    · exact ⟨rfl, ⟨o, ho.keep (by simp [hp, Owns]), hlk, by simp⟩, fun _ h => .inl h⟩
  access {s} pt {t f k d l} hi _ hf hJ := by
    obtain ⟨o, ho, hlk, hh⟩ := hJ
    have hself := hh t rfl
    cases hp : pt t <;> rw [hp] at hi <;> cases hi <;> cases hf
    · -- the test
      have hG : ∀ l c, G .test s c → G l s c := fun l c h => by
        rcases h with h | h | h
        · exact .inl h
        · cases h
        · cases h
      by_cases hl : s.locked = true
      · rw [if_pos hl]
        exact ⟨rfl, ⟨o, ho.keep (by simp [hp, Owns]), hlk, by simp [hl]⟩, hG _⟩
      · rw [if_neg hl]
        exact ⟨rfl, ⟨o, ho.keep (by simp [hp, Owns]), hlk, by simpa using hl⟩, hG _⟩
    · -- `locked = 1`: there was no owner
      have ho' : o = none := by simpa [hself.2 hp] using hlk.symm
      subst ho'
      exact ⟨rfl, ⟨some t, ho.take trivial, rfl, by simp⟩, fun _ _ => .inl rfl⟩
    · exact ⟨rfl, ⟨o, ho.keep (by simp [hp, Owns]), hlk, by simp⟩, fun _ h => by simpa [G] using h⟩
    · exact ⟨rfl, ⟨none, ho.drop (by rw [hp]; trivial) (by simp [Owns]), rfl, by simp⟩,
        fun _ _ => .inr (.inl rfl)⟩
    · exact ⟨rfl, ⟨o, ho.keep (by simp [hp, Owns]), hlk, by simp⟩, fun _ _ => .inr (.inr rfl)⟩
  sleep {s} pt {t c l} hi hJ := by
    obtain ⟨o, ho, hlk, hh⟩ := hJ
    cases hp : pt t <;> rw [hp] at hi <;> cases hi
    have hl := (hh t rfl).1 hp
    exact ⟨⟨o, ho, hlk, by simp⟩, hl, fun _ _ => hl⟩
  resume {s} pt {t c l} hi hJ := by
    obtain ⟨o, ho, hlk, -⟩ := hJ
    cases hp : pt t <;> rw [hp] at hi <;> cases hi
    exact ⟨rfl, ⟨o, ho.keep (by simp [hp, Owns]), hlk, by simp⟩, fun _ h => .inl h⟩
  wakeup {s} pt {t c l} hi hJ := by
    obtain ⟨o, ho, hlk, -⟩ := hJ
    cases hp : pt t <;> rw [hp] at hi <;> cases hi
    exact ⟨rfl, ⟨o, ho.keep (by simp [hp, Owns]), hlk, by simp⟩, fun _ h => absurd rfl h⟩
  release {s} pt {t l} hi hJ := by
    obtain ⟨o, ho, hlk, -⟩ := hJ
    cases hp : pt t <;> rw [hp] at hi <;> cases hi
    · exact ⟨rfl, ⟨o, ho.keep (by simp [hp, Owns]), hlk, by simp⟩, fun _ h => by simpa [G] using h⟩
    · exact ⟨rfl, ⟨o, ho.keep (by simp [hp, Owns]), hlk, by simp⟩, fun _ h => by simpa [G] using h⟩
  bare {h s} pt {t f d l} hi := by
    cases hp : pt t <;> rw [hp] at hi <;> cases hi

/-- What the sleep lock guarantees in a state. -/
structure Exclusive (pid : τ → Int) (x : Monitor.State τ Point SleepLock) : Prop where
  /-- at most one process is between `acquiresleep` and `releasesleep` -/
  unique : ∀ t u, Between (x.points t) → Between (x.points u) → t = u
  /-- `locked` is set from one assignment to the other -/
  locked : x.data.locked = true ↔ ∃ t, Owns (x.points t)
  /-- when `lk->lk` is free, `locked` says whether a process is between the two -/
  between : x.lock = none → (x.data.locked = true ↔ ∃ t, Between (x.points t))
  /-- when `lk->lk` is free and `locked` is 0, nobody sleeps on the lock -/
  awake : x.lock = none → x.data.locked = false → ∀ t, ¬ Monitor.SleepsOn (instr pid) x () t

theorem Between.owns {l : Point} (h : Between l) : Owns l := by
  rcases h with rfl | rfl <;> trivial

/-- An owner that is not between the two calls is at `lk->lk`. -/
theorem between_of_free (h : Monitor.Inv (instr pid) J (fun _ lk => lk.locked = true) G x)
    (hfree : x.lock = none) (ho : Owns (x.points t)) : Between (x.points t) := by
  have hnap := h.not_held (t := t) hfree
  cases hp : x.points t with
  | holding => exact .inl rfl
  | leave => exact .inr rfl
  | own | got | unlock =>
    rw [hp] at hnap
    cases hnap fun c l e => by cases e
  | _ => rw [hp] at ho; exact ho.elim

theorem exclusive_of_inv (h : Monitor.Inv (instr pid) J (fun _ lk => lk.locked = true) G x) :
    Exclusive pid x := by
  obtain ⟨o, ho, hlk, -⟩ := h.data
  have hlocked : x.data.locked = true ↔ ∃ t, Owns (x.points t) := by
    rw [hlk, Option.isSome_iff_exists]
    exact exists_congr ho
  refine ⟨fun t u ht hu => ho.unique ht.owns hu.owns, hlocked, fun hfree => ?_,
    fun hfree hl t hs => ?_⟩
  · rw [hlocked]
    exact exists_congr fun t => ⟨between_of_free h hfree, Between.owns⟩
  · have := h.ok_of_sleepsOn hfree hs
    rw [hl] at this
    cases this

/-- **Sleep locks.**  In every state of every run of any number of processes on one sleep lock, with
only the holder releasing and any process killed or woken at any time. -/
theorem sleeplock_excl {pid : τ → Int} {x : Monitor.State τ Point SleepLock}
    {tr : List (Monitor.State τ Point SleepLock × Monitor.Op τ Point)}
    (hr : Run (Monitor.Step (instr pid) may) (Monitor.idle ⟨false, 0⟩ .outside) tr x) :
    (∀ z ∈ tr, Exclusive pid z.1) ∧ Exclusive pid x := by
  have hJ : J none ⟨false, 0⟩ fun _ : τ => Point.outside :=
    ⟨none, fun t => iff_of_false (fun h => by cases h) (by simp [Owns]), rfl, by simp⟩
  have h := Monitor.inv_run (sound pid) rfl hJ hr fun z _ => by
    unfold Monitor.Allowed
    split
    · exact fun _ => trivial
    · trivial
  exact ⟨fun z hz => exclusive_of_inv (h.1 z hz), exclusive_of_inv h.2⟩

/-- One process takes the lock, and the other one sleeps. -/
def contendOps : List (Monitor.Op Bool Point) :=
  [.call true .enter] ++ List.replicate 5 (.next true) ++ [.call false .enter] ++
    List.replicate 5 (.next false)

theorem sleeplock_excl_contend : ∃ tr x,
    Run (Monitor.Step (instr fun t : Bool => if t then 4 else 5) may)
      (Monitor.idle ⟨false, 0⟩ .outside) tr x ∧
    (x.points true = .holding ∧ (x.place false).nap = .asleep ∧ x.data.pid = 4) ∧
    Exclusive (fun t : Bool => if t then 4 else 5) x := by
  obtain ⟨x, hr, hx⟩ := exists_run
    (Monitor.step_of_exec? (instr fun t : Bool => if t then 4 else 5) may)
    (Monitor.idle ⟨false, 0⟩ .outside) contendOps
    (fun x => x.points true = .holding ∧ (x.place false).nap = .asleep ∧ x.data.pid = 4)
    (by decide +kernel)
  exact ⟨_, x, hr, hx, (sleeplock_excl hr).2⟩

end Xv6.Slp
