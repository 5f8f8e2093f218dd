import Mathlib.Logic.Function.Basic

/-!
# Lib — Crash

Programs that read and write the blocks of a disk through a cache, one block write being atomic,
and what a crash leaves of them.

A program (`Prog`) is a tree of reads and writes; it may stop with an error.  `Prog.run` executes
it, `Prog.crash n` cuts it off after `n` of its writes.  What the cache holds is lost in a crash: a
recovery starts from `Dev.boot`.  `Crashes r d d'` says that the disk `d'` is left of `d` by
executions of `r` that were all cut off.

`Triple P p Q C` is total correctness with a crash condition: started in a state with `P`, `p` ends
without error in a state with `Q`, and every disk that a crash can leave satisfies `C`.  The rules:

* `Triple.ret`, `Triple.bind`, `Triple.read`, `Triple.write`: one for each construct;
* `Triple.upTo`: a loop, from an invariant indexed by the number of iterations done;
* `Triple.conseq`, `Triple.cases`: weakening, and a case distinction;
* `Triple.recovers`: a recovery whose crash condition is also what it starts from may be cut off
  any number of times.
-/

namespace Xv6.Lib

open Function

universe u

/-- A disk and the blocks of it that are cached. -/
structure Dev (ι ν : Type u) where
  disk : ι → ν
  cache : ι → Option ν

/-- A program that reads and writes blocks. -/
inductive Prog (ι ν ε : Type u) (α : Type u) : Type u where
  | ret (a : α)
  | fail (e : ε)
  | read (b : ι) (k : ν → Prog ι ν ε α)
  | write (b : ι) (v : ν) (k : Prog ι ν ε α)

namespace Dev

variable {ι ν : Type u}

/-- What a read of the block `b` gives. -/
def view (s : Dev ι ν) (b : ι) : ν := (s.cache b).getD (s.disk b)

/-- The state after a restart. -/
def boot (d : ι → ν) : Dev ι ν := ⟨d, fun _ => none⟩

variable [DecidableEq ι]

/-- A block that is read is cached. -/
def fetch (s : Dev ι ν) (b : ι) : Dev ι ν :=
  { s with cache := update s.cache b (some (s.view b)) }

/-- A block is written, in the cache and on the disk. -/
def store (s : Dev ι ν) (b : ι) (v : ν) : Dev ι ν :=
  ⟨update s.disk b v, update s.cache b (some v)⟩

@[simp] theorem disk_fetch (s : Dev ι ν) (b : ι) : (s.fetch b).disk = s.disk := rfl

@[simp] theorem view_fetch (s : Dev ι ν) (b : ι) : (s.fetch b).view = s.view := by
  funext c
  by_cases h : c = b
  · subst h
    simp [view, fetch]
  · simp [view, fetch, h]

@[simp] theorem disk_store (s : Dev ι ν) (b : ι) (v : ν) :
    (s.store b v).disk = update s.disk b v := rfl

@[simp] theorem view_store (s : Dev ι ν) (b : ι) (v : ν) :
    (s.store b v).view = update s.view b v := by
  funext c
  by_cases h : c = b
  · subst h
    simp [view, store]
  · simp [view, store, h]

end Dev

namespace Prog

variable {ι ν ε α β : Type u} {E : ε → Prop} {f : α → Prog ι ν ε β} {p : Prog ι ν ε α}

/-- Sequencing. -/
def bind : Prog ι ν ε α → (α → Prog ι ν ε β) → Prog ι ν ε β
  | .ret a, f => f a
  | .fail e, _ => .fail e
  | .read b k, f => .read b fun v => (k v).bind f
  | .write b v k, f => .write b v (k.bind f)

instance : Monad (Prog ι ν ε) where
  pure := .ret
  bind := .bind

/-- `f 0`, …, `f (n - 1)`. -/
def upTo (f : Nat → Prog ι ν ε PUnit) : Nat → Prog ι ν ε PUnit
  | 0 => .ret ⟨⟩
  | n + 1 => (upTo f n).bind fun _ => f n

/-- Every error of the program satisfies `E`. -/
def Only (E : ε → Prop) : Prog ι ν ε α → Prop
  | .ret _ => True
  | .fail e => E e
  | .read _ k => ∀ v, (k v).Only E
  | .write _ _ k => k.Only E

theorem Only.bind (hp : p.Only E) (hf : ∀ a, (f a).Only E) : (p.bind f).Only E := by
  induction p with
  | ret a => exact hf a
  | fail e => exact hp
  | read b k ih => exact fun v => ih v (hp v)
  | write b v k ih => exact ih hp

theorem Only.upTo {f : Nat → Prog ι ν ε PUnit} (hf : ∀ i, (f i).Only E) (n : Nat) :
    (upTo f n).Only E := by
  induction n with
  | zero => trivial
  | succ n ih => exact ih.bind fun _ => hf n

variable [DecidableEq ι]

/-- An execution to the end. -/
def run : Prog ι ν ε α → Dev ι ν → Except ε (α × Dev ι ν)
  | .ret a, s => .ok (a, s)
  | .fail e, _ => .error e
  | .read b k, s => (k (s.view b)).run (s.fetch b)
  | .write b v k, s => k.run (s.store b v)

/-- The disk when the execution is cut off after `n` writes. -/
def crash : Prog ι ν ε α → Nat → Dev ι ν → ι → ν
  | .ret _, _, s => s.disk
  | .fail _, _, s => s.disk
  | .read b k, n, s => (k (s.view b)).crash n (s.fetch b)
  | .write _ _ _, 0, s => s.disk
  | .write b v k, n + 1, s => k.crash n (s.store b v)

/-- `bind` on one execution: the second part starts where the first one ends. -/
theorem run_bind : ∀ {s s' : Dev ι ν} {a : α},
    p.run s = .ok (a, s') → (p.bind f).run s = (f a).run s' := by
  induction p with
  | ret a => intro s s' a' h; cases h; rfl
  | fail e => intro s s' a' h; cases h
  | read b k ih => intro s s' a' h; exact ih _ h
  | write b v k ih => intro s s' a' h; exact ih h

theorem run_bind_eq_ok {r : β × Dev ι ν} (p : Prog ι ν ε α) :
    ∀ {s : Dev ι ν}, (p.bind f).run s = .ok r →
      ∃ a s', p.run s = .ok (a, s') ∧ (f a).run s' = .ok r := by
  induction p with
  | ret a => exact fun h => ⟨a, _, rfl, h⟩
  | fail e => intro s h; cases h
  | read b k ih => exact fun h => ih _ h
  | write b v k ih => exact fun h => ih h

theorem Only.of_run {e : ε} (hp : p.Only E) : ∀ {s : Dev ι ν}, p.run s = .error e → E e := by
  induction p with
  | ret a => intro s h; cases h
  | fail e => intro s h; cases h; exact hp
  | read b k ih => exact fun h => ih _ (hp _) h
  | write b v k ih => exact fun h => ih hp h

/-- A crash of `p.bind f` is a crash of `p`, or one of `f a` where `p` ends. -/
theorem crash_bind (p : Prog ι ν ε α) : ∀ (n : Nat) (s : Dev ι ν),
    (p.bind f).crash n s = p.crash n s ∨
      ∃ m a s', p.run s = .ok (a, s') ∧ (p.bind f).crash n s = (f a).crash m s' := by
  induction p with
  | ret a => exact fun n s => .inr ⟨n, a, s, rfl, rfl⟩
  | fail e => exact fun n s => .inl rfl
  | read b k ih => exact fun n s => ih _ n _
  | write b v k ih =>
    intro n s
    cases n with
    | zero => exact .inl rfl
    | succ n => exact ih n _

end Prog

variable {ι ν ε α β : Type u} [DecidableEq ι]

/-- `d'` is left of `d` by executions of `r` that were cut off, the machine being restarted before
each of them. -/
inductive Crashes (r : Prog ι ν ε α) : (ι → ν) → (ι → ν) → Prop where
  | refl (d : ι → ν) : Crashes r d d
  | more {d d' : ι → ν} (n : Nat) (h : Crashes r (r.crash n (.boot d)) d') : Crashes r d d'

/-- A condition on what reads give, and on the disk. -/
abbrev Cond (ι ν : Type u) := (ι → ν) → (ι → ν) → Prop

/-- **Total correctness with a crash condition.** -/
structure Triple (P : Cond ι ν) (p : Prog ι ν ε α) (Q : α → Cond ι ν) (C : (ι → ν) → Prop) :
    Prop where
  run : ∀ s : Dev ι ν, P s.view s.disk → ∃ a s', p.run s = .ok (a, s') ∧ Q a s'.view s'.disk
  crash : ∀ s : Dev ι ν, P s.view s.disk → ∀ n, C (p.crash n s)

namespace Triple

variable {P P' : Cond ι ν} {Q Q' : α → Cond ι ν} {R : β → Cond ι ν} {C C' : (ι → ν) → Prop}
  {p : Prog ι ν ε α} {b : ι}

theorem ret {a : α} (h : ∀ w d, P w d → Q a w d) (hc : ∀ w d, P w d → C d) :
    Triple P (.ret a : Prog ι ν ε α) Q C where
  run s hs := ⟨a, s, rfl, h _ _ hs⟩
  crash s hs _ := hc _ _ hs

theorem read {k : ν → Prog ι ν ε α} (h : ∀ v, Triple (fun w d => P w d ∧ w b = v) (k v) Q C) :
    Triple P (.read b k) Q C where
  run s hs := (h _).run (s.fetch b) (by simpa using hs)
  crash s hs n := (h _).crash (s.fetch b) (by simpa using hs) n

theorem write {v : ν} {k : Prog ι ν ε α} (h : Triple P' k Q C)
    (hP : ∀ w d, P w d → P' (update w b v) (update d b v)) (hc : ∀ w d, P w d → C d) :
    Triple P (.write b v k) Q C where
  run s hs := h.run (s.store b v) (by simpa using hP _ _ hs)
  crash s hs n := by
    cases n with
    | zero => exact hc _ _ hs
    | succ n => exact h.crash (s.store b v) (by simpa using hP _ _ hs) n

theorem conseq (h : Triple P' p Q' C') (hP : ∀ w d, P w d → P' w d)
    (hQ : ∀ a w d, Q' a w d → Q a w d) (hC : ∀ d, C' d → C d) : Triple P p Q C where
  run s hs := by
    obtain ⟨a, s', hr, hq⟩ := h.run s (hP _ _ hs)
    exact ⟨a, s', hr, hQ _ _ _ hq⟩
  crash s hs n := hC _ (h.crash s (hP _ _ hs) n)

/-- A case distinction on the state it starts from. -/
theorem cases {P₁ P₂ : Cond ι ν} (h₁ : Triple P₁ p Q C) (h₂ : Triple P₂ p Q C)
    (hP : ∀ w d, P w d → P₁ w d ∨ P₂ w d) : Triple P p Q C where
  run s hs := (hP _ _ hs).elim (h₁.run s) (h₂.run s)
  crash s hs := (hP _ _ hs).elim (h₁.crash s) (h₂.crash s)

theorem bind {f : α → Prog ι ν ε β} (hp : Triple P p Q C) (hf : ∀ a, Triple (Q a) (f a) R C) :
    Triple P (p.bind f) R C where
  run s hs := by
    obtain ⟨a, s₁, hr, hq⟩ := hp.run s hs
    rw [Prog.run_bind hr]
    exact (hf a).run s₁ hq
  crash s hs n := by
    rcases Prog.crash_bind (f := f) p n s with he | ⟨m, a, s₁, hr, he⟩
    · rw [he]
      exact hp.crash s hs n
    obtain ⟨a', s', hr', hq⟩ := hp.run s hs
    obtain ⟨rfl, rfl⟩ := Prod.mk.inj (Except.ok.inj (hr.symm.trans hr'))
    rw [he]
    exact (hf a).crash s₁ hq m

/-- **Loops.** -/
theorem upTo {f : Nat → Prog ι ν ε PUnit} {I : Nat → Cond ι ν} {n : Nat}
    (h : ∀ i, i < n → Triple (I i) (f i) (fun _ => I (i + 1)) C)
    (h₀ : ∀ w d, I 0 w d → C d) : Triple (I 0) (Prog.upTo f n) (fun _ => I n) C := by
  induction n with
  | zero => exact ret (fun _ _ h => h) h₀
  | succ n ih =>
    exact (ih fun i hi => h i (Nat.lt_succ_of_lt hi)).bind fun _ => h n (Nat.lt_succ_self n)

/-- **Recovery.**  If a recovery that starts from a disk with `C` ends with `Q` and leaves `C` when
it is cut off, then it ends with `Q` after any number of executions that were cut off. -/
theorem recovers {r : Prog ι ν ε α} (h : Triple (fun w d => C d ∧ w = d) r Q C)
    {d d' : ι → ν} (hd : C d) (hr : Crashes r d d') :
    ∃ a s', r.run (.boot d') = .ok (a, s') ∧ Q a s'.view s'.disk := by
  induction hr with
  | refl d => exact h.run _ ⟨hd, rfl⟩
  | more n _ ih => exact ih (h.crash _ ⟨hd, rfl⟩ n)

end Triple

end Xv6.Lib
