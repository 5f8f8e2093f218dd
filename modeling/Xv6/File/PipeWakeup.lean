import Xv6.Lib.Monitor
import Xv6.File.Pipe

/-!
# File — PipeWakeup

`pipe.c` as code under `p->lock`, point by point, for any number of processes `τ`: `pipewrite`,
`piperead` and `pipeclose` of either end, with `sleep` and `wakeup` in their own sections.  Any
process may be killed at any time; each end is closed once.

* `pipe_no_lost_wakeup`: whenever `p->lock` is free, a process asleep on `&p->nread` finds the pipe
  empty and its write end open, and one asleep on `&p->nwrite` finds it full and its read end open;
  and the page is freed once, by the process that closes the second end.  The condition is that no
  `pipewrite` gives up with bytes that it has stored since it took the lock: it then returns
  without a `wakeup`.
* `killed_writer_loses_wakeup`: a writer that is killed leaves a reader asleep on a full pipe.
-/

namespace Xv6.PipeWait

open Lib Function Option

/-- What a process sleeps on: `&p->nread` or `&p->nwrite`. -/
inductive Chan where
  | nread | nwrite
  deriving DecidableEq

/-- The page of a pipe, with the number of times that it has been freed. -/
structure Page where
  pipe : Pipe
  freed : Nat

/-- Where a process is. -/
inductive Point where
  | outside
  /-- `pipewrite(p, addr, n)`, before `acquire(&p->lock)` -/
  | write (n : Int) (addr : Nat → UInt8)
  /-- before byte `i`; `stored` when bytes have been stored since the lock was taken -/
  | writeFor (n : Int) (addr : Nat → UInt8) (i : Nat) (stored : Bool)
  /-- the pipe is full: `if (p->readopen == 0 || myproc()->killed)` -/
  | writeFull (n : Int) (addr : Nat → UInt8) (i : Nat) (stored : Bool)
  /-- `wakeup(&p->nread)`, and then `sleep(&p->nwrite, &p->lock)` -/
  | writeNotify (n : Int) (addr : Nat → UInt8) (i : Nat)
  | writeSleep (n : Int) (addr : Nat → UInt8) (i : Nat)
  /-- the last `wakeup(&p->nread)` -/
  | writeWake
  /-- `piperead(p, addr, n)`, before `acquire(&p->lock)` -/
  | read (n : Int)
  /-- `while (p->nread == p->nwrite && p->writeopen)` -/
  | readTest (n : Int)
  /-- `if (myproc()->killed)` -/
  | readKilled (n : Int)
  /-- `sleep(&p->nread, &p->lock)` -/
  | readSleep (n : Int)
  /-- before byte `i` -/
  | readFor (n : Int) (i : Nat)
  /-- `wakeup(&p->nwrite)` -/
  | readWake
  /-- `pipeclose(p, writable)`, before `acquire(&p->lock)` -/
  | close (writable : Bool)
  /-- the end is marked as closed -/
  | closeMark (writable : Bool)
  /-- `wakeup` of the other side -/
  | closeWake (writable : Bool)
  /-- `if (p->readopen == 0 && p->writeopen == 0)` -/
  | closeTest
  /-- `release(&p->lock)`, and then `kfree((char *)p)` -/
  | closeLeave
  | closeFree
  /-- the last `release(&p->lock)` -/
  | leave

/-- `p->writeopen` or `p->readopen`. -/
def isOpen (p : Pipe) (writable : Bool) : Bool := if writable then p.writeopen else p.readopen

/-- The first assignment of `pipeclose`. -/
def mark (p : Pipe) (writable : Bool) : Pipe :=
  if writable then { p with writeopen := false } else { p with readopen := false }

variable {τ : Type}

/-- `pipewrite`, `piperead` and `pipeclose`. -/
def instr : Point → Monitor.Instr τ Point Page Chan
  | .outside => .rest
  | .write n addr => .acquire (.writeFor n addr 0 false)
  | .writeFor n addr i stored => .access fun _ _ s =>
    if (i : Int) < n then
      if s.pipe.full then (s, .writeFull n addr i stored)
      else ({ s with pipe := s.pipe.put (addr i) }, .writeFor n addr (i + 1) true)
    else (s, .writeWake)
  | .writeFull n addr i _ => .access fun _ killed s =>
    (s, if !s.pipe.readopen || killed then .leave else .writeNotify n addr i)
  | .writeNotify n addr i => .wakeup .nread (.writeSleep n addr i)
  | .writeSleep n addr i => .sleep .nwrite (.writeFor n addr i false)
  | .writeWake => .wakeup .nread .leave
  | .read n => .acquire (.readTest n)
  | .readTest n => .access fun _ _ s =>
    (s, if s.pipe.empty && s.pipe.writeopen then .readKilled n else .readFor n 0)
  | .readKilled n => .access fun _ killed s => (s, if killed then .leave else .readSleep n)
  | .readSleep n => .sleep .nread (.readTest n)
  | .readFor n i => .access fun _ _ s =>
    if (i : Int) < n ∧ ¬ s.pipe.empty then ({ s with pipe := s.pipe.tail }, .readFor n (i + 1))
    else (s, .readWake)
  | .readWake => .wakeup .nwrite .leave
  | .close w => .acquire (.closeMark w)
  | .closeMark w => .access fun _ _ s => ({ s with pipe := mark s.pipe w }, .closeWake w)
  | .closeWake w => .wakeup (if w then .nread else .nwrite) .closeTest
  | .closeTest => .access fun _ _ s =>
    (s, if !s.pipe.readopen && !s.pipe.writeopen then .closeLeave else .leave)
  | .closeLeave => .release .closeFree
  | .closeFree => .bare fun _ s => ({ s with freed := s.freed + 1 }, .outside)
  | .leave => .release .outside

/-- A process that has called `pipeclose` of an end, before the end is marked. -/
def Closing (w : Bool) : Point → Prop
  | .close w' | .closeMark w' => w' = w
  | _ => False

/-- The calls that a process can make: an end that is open is closed by one process. -/
def may (s : Page) (pt : τ → Point) (_ : τ) : Point → Prop
  | .write _ _ | .read _ => True
  | .close w => isOpen s.pipe w = true ∧ ∀ u, ¬ Closing w (pt u)
  | _ => False

/-! ### What the processes know -/

/-- When a process may sleep. -/
def Ok : Chan → Page → Prop
  | .nread, s => s.pipe.empty = true ∧ s.pipe.writeopen = true
  | .nwrite, s => s.pipe.full = true ∧ s.pipe.readopen = true

/-- The holder of the lock is going to wake the sleepers on the channel. -/
def Owes : Point → Chan → Prop
  | .writeFor _ _ _ stored, .nread | .writeFull _ _ _ stored, .nread => stored = true
  | .writeNotify _ _ _, .nread | .writeWake, .nread => True
  | .readFor _ _, .nwrite | .readWake, .nwrite => True
  | .closeWake w, .nread => w = true
  | .closeWake w, .nwrite => w = false
  | _, _ => False

def G (l : Point) (s : Page) (c : Chan) : Prop := Ok c s ∨ Owes l c

/-- What the holder of the lock knows at a point. -/
def Know : Point → Page → Prop
  | .writeFull _ _ _ _, s => s.pipe.full = true
  | .writeNotify _ _ _, s | .writeSleep _ _ _, s => Ok .nwrite s
  | .readKilled _, s | .readSleep _, s => Ok .nread s
  | _, _ => True

/-! ### The page -/

/-- A process that has marked an end and holds the lock. -/
def Deciding : Point → Prop
  | .closeWake _ | .closeTest => True
  | _ => False

/-- A process that is going to free the page. -/
def Freeing : Point → Prop
  | .closeLeave | .closeFree => True
  | _ => False

/-- Both ends are closed. -/
def Closed (s : Page) : Prop := s.pipe.readopen = false ∧ s.pipe.writeopen = false

/-- Who closes the ends and frees the page, while `h` holds the lock. -/
structure Ends (h : Option τ) (s : Page) (pt : τ → Point) : Prop where
  isOpen : ∀ w u, Closing w (pt u) → isOpen s.pipe w = true
  closer : ∀ w u v, Closing w (pt u) → Closing w (pt v) → u = v
  decider : ∀ u, Deciding (pt u) → h = some u ∧ s.freed = 0 ∧ ∀ v, ¬ Freeing (pt v)
  freer : ∀ u, Freeing (pt u) → s.freed = 0 ∧ Closed s ∧ ∀ v, Freeing (pt v) → u = v
  freed : s.freed ≠ 0 → s.freed = 1 ∧ Closed s ∧ ∀ v, ¬ Freeing (pt v)
  closed : Closed s → (∃ u, Deciding (pt u)) ∨ (∃ u, Freeing (pt u)) ∨ s.freed = 1

/-- The invariant. -/
structure J (h : Option τ) (s : Page) (pt : τ → Point) : Prop where
  know : ∀ t, h = some t → Know (pt t) s
  ends : Ends h s pt

namespace Ends

variable [DecidableEq τ] {h h' : Option τ} {s s' : Page} {pt : τ → Point} {t : τ} {l : Point}
  {w : Bool}

/-- Two points that mean the same for the ends and the page. -/
def SameRole (l l' : Point) : Prop :=
  (∀ w, Closing w l' ↔ Closing w l) ∧ (Deciding l' ↔ Deciding l) ∧ (Freeing l' ↔ Freeing l)

theorem role_update (hr : SameRole (pt t) l) (u : τ) : SameRole (pt u) (update pt t l u) := by
  by_cases e : u = t
  · subst e; rwa [update_self]
  · rw [update_of_ne e]; exact ⟨fun _ => .rfl, .rfl, .rfl⟩

/-- A move that has nothing to do with closing. -/
theorem keep (he : Ends h s pt) (hr : SameRole (pt t) l)
    (hread : s'.pipe.readopen = s.pipe.readopen) (hwrite : s'.pipe.writeopen = s.pipe.writeopen)
    (hfreed : s'.freed = s.freed) (hown : ∀ u, Deciding (pt u) → h' = some u) :
    Ends h' s' (update pt t l) := by
  have hrole := role_update hr
  have hopen : ∀ w, PipeWait.isOpen s'.pipe w = PipeWait.isOpen s.pipe w := fun w => by
    unfold PipeWait.isOpen; rw [hread, hwrite]
  have hclosed : Closed s' ↔ Closed s := by unfold Closed; rw [hread, hwrite]
  refine ⟨fun w u hu => ?_, fun w u v hu hv => ?_, fun u hu => ?_, fun u hu => ?_, fun hf => ?_,
    fun hc => ?_⟩
  · rw [hopen]; exact he.isOpen w u (((hrole u).1 w).mp hu)
  · exact he.closer w u v (((hrole u).1 w).mp hu) (((hrole v).1 w).mp hv)
  · have hu := (hrole u).2.1.mp hu
    obtain ⟨-, h0, hv⟩ := he.decider u hu
    exact ⟨hown u hu, by rw [hfreed, h0], fun v hf => hv v ((hrole v).2.2.mp hf)⟩
  · obtain ⟨h0, hc, hv⟩ := he.freer u ((hrole u).2.2.mp hu)
    exact ⟨by rw [hfreed, h0], hclosed.mpr hc, fun v hf => hv v ((hrole v).2.2.mp hf)⟩
  · obtain ⟨h1, hc, hv⟩ := he.freed (hfreed ▸ hf)
    exact ⟨by rw [hfreed, h1], hclosed.mpr hc, fun v hf => hv v ((hrole v).2.2.mp hf)⟩
  · rw [hfreed]
    refine (he.closed (hclosed.mp hc)).imp ?_ (Or.imp_left ?_)
    · exact fun ⟨u, hu⟩ => ⟨u, (hrole u).2.1.mpr hu⟩
    · exact fun ⟨u, hu⟩ => ⟨u, (hrole u).2.2.mpr hu⟩

/-- A process in a role that `t` does not take up was in it before. -/
theorem of_update {P : Point → Prop} {u : τ} (hu : P (update pt t l u)) (hl : ¬ P l) :
    u ≠ t ∧ P (pt u) := by
  by_cases e : u = t
  · subst e; rw [update_self] at hu; exact absurd hu hl
  · rw [update_of_ne e] at hu; exact ⟨e, hu⟩

/-- `pipeclose` of an end that is open is called. -/
theorem start (he : Ends h s pt) (hp : pt t = .outside) (ho : PipeWait.isOpen s.pipe w = true)
    (hnone : ∀ u, ¬ Closing w (pt u)) : Ends h s (update pt t (.close w)) := by
  have hmem : ∀ {w' u}, Closing w' (update pt t (.close w) u) →
      (u = t ∧ w' = w) ∨ (w' ≠ w ∧ Closing w' (pt u)) := fun {w' u} hu => by
    by_cases e : u = t
    · subst e; rw [update_self] at hu; exact .inl ⟨rfl, hu.symm⟩
    · rw [update_of_ne e] at hu
      exact .inr ⟨fun ew => hnone u (ew ▸ hu), hu⟩
  have hdec : ∀ u, Deciding (update pt t (.close w) u) ↔ Deciding (pt u) := fun u => by
    by_cases e : u = t
    · subst e; rw [update_self, hp]; exact .rfl
    · rw [update_of_ne e]
  have hfree : ∀ u, Freeing (update pt t (.close w) u) ↔ Freeing (pt u) := fun u => by
    by_cases e : u = t
    · subst e; rw [update_self, hp]; exact .rfl
    · rw [update_of_ne e]
  refine ⟨fun w' u hu => ?_, fun w' u v hu hv => ?_, fun u hu => ?_, fun u hu => ?_, fun hf => ?_,
    fun hc => ?_⟩
  · rcases hmem hu with ⟨-, rfl⟩ | ⟨-, hu'⟩
    · exact ho
    · exact he.isOpen w' u hu'
  · rcases hmem hu with ⟨eu, ew⟩ | ⟨hne, hu'⟩
    · rcases hmem hv with ⟨ev, -⟩ | ⟨hne, -⟩
      · exact eu.trans ev.symm
      · exact absurd ew hne
    · rcases hmem hv with ⟨-, ew⟩ | ⟨-, hv'⟩
      · exact absurd ew hne
      · exact he.closer w' u v hu' hv'
  · obtain ⟨h1, h0, hv⟩ := he.decider u ((hdec u).mp hu)
    exact ⟨h1, h0, fun v hf => hv v ((hfree v).mp hf)⟩
  · obtain ⟨h0, hc, hv⟩ := he.freer u ((hfree u).mp hu)
    exact ⟨h0, hc, fun v hf => hv v ((hfree v).mp hf)⟩
  · obtain ⟨h1, hc, hv⟩ := he.freed hf
    exact ⟨h1, hc, fun v hf => hv v ((hfree v).mp hf)⟩
  · refine (he.closed hc).imp ?_ (Or.imp_left ?_)
    · exact fun ⟨u, hu⟩ => ⟨u, (hdec u).mpr hu⟩
    · exact fun ⟨u, hu⟩ => ⟨u, (hfree u).mpr hu⟩

omit [DecidableEq τ] in
/-- While an end is open the page is in use. -/
theorem in_use (he : Ends h s pt) (ho : ¬ Closed s) : s.freed = 0 ∧ ∀ u, ¬ Freeing (pt u) := by
  refine ⟨?_, fun u hu => ho (he.freer u hu).2.1⟩
  by_contra hf
  exact ho (he.freed hf).2.1

/-- The end is marked. -/
theorem marked (he : Ends (some t) s pt) (hp : pt t = .closeMark w) :
    Ends (some t) { s with pipe := mark s.pipe w } (update pt t (.closeWake w)) := by
  have ht : Closing w (pt t) := by rw [hp]; rfl
  have hopen : ¬ Closed s := fun hc => by
    have ho := he.isOpen w t ht
    unfold PipeWait.isOpen at ho
    rw [hc.1, hc.2] at ho
    cases w <;> cases ho
  obtain ⟨h0, hnf⟩ := he.in_use hopen
  have hfree : ∀ u, ¬ Freeing (update pt t (.closeWake w) u) :=
    fun u hu => hnf u (of_update hu fun h => h).2
  have hmem : ∀ {w' u}, Closing w' (update pt t (.closeWake w) u) →
      w' ≠ w ∧ Closing w' (pt u) := fun {w' u} hu => by
    obtain ⟨e, hu⟩ := of_update (P := Closing w') hu fun h => h
    exact ⟨fun ew => e (he.closer w u t (ew ▸ hu) ht), hu⟩
  refine ⟨fun w' u hu => ?_, fun w' u v hu hv => ?_, fun u hu => ?_, fun u hu => absurd hu (hfree u),
    fun hf => absurd h0 hf, fun _ => .inl ⟨t, by rw [update_self]; trivial⟩⟩
  · obtain ⟨hne, hu⟩ := hmem hu
    have ho := he.isOpen w' u hu
    unfold PipeWait.isOpen mark at *
    cases w <;> cases w' <;> first | exact absurd rfl hne | exact ho
  · exact he.closer w' u v (hmem hu).2 (hmem hv).2
  · refine ⟨?_, h0, hfree⟩
    by_cases e : u = t
    · rw [e]
    · rw [update_of_ne e] at hu
      exact (he.decider u hu).1

/-- The test at the end of `pipeclose`. -/
theorem tested (he : Ends (some t) s pt) (hp : pt t = .closeTest) : Ends (some t) s (update pt t
      (if !s.pipe.readopen && !s.pipe.writeopen then .closeLeave else .leave)) := by
  have htdec : Deciding (pt t) := by rw [hp]; trivial
  obtain ⟨-, h0, hnf⟩ := he.decider t htdec
  have hnd : ∀ u, u ≠ t → ¬ Deciding (pt u) := fun u e hu =>
    e (some.inj (he.decider u hu).1).symm
  have hcl : (!s.pipe.readopen && !s.pipe.writeopen) = true ↔ Closed s := by
    simp [Closed]
  split
  · next hc =>
    rw [hcl] at hc
    have hfree : ∀ u, Freeing (update pt t .closeLeave u) → u = t := fun u hu => by
      by_contra e
      rw [update_of_ne e] at hu
      exact hnf u hu
    have hmem : ∀ {w u}, Closing w (update pt t .closeLeave u) → Closing w (pt u) :=
      fun {w u} hu => (of_update (P := Closing w) hu fun h => h).2
    refine ⟨fun w u hu => he.isOpen w u (hmem hu),
      fun w u v hu hv => he.closer w u v (hmem hu) (hmem hv), fun u hu => ?_,
      fun u hu => ⟨h0, hc, fun v hv => (hfree u hu).trans (hfree v hv).symm⟩,
      fun hf => absurd h0 hf, fun _ => .inr (.inl ⟨t, by rw [update_self]; trivial⟩)⟩
    obtain ⟨e, hu⟩ := of_update hu fun h => h
    exact absurd hu (hnd u e)
  · next hc =>
    rw [hcl] at hc
    have hfree : ∀ u, ¬ Freeing (update pt t .leave u) :=
      fun u hu => hnf u (of_update hu fun h => h).2
    have hmem : ∀ {w u}, Closing w (update pt t .leave u) → Closing w (pt u) :=
      fun {w u} hu => (of_update (P := Closing w) hu fun h => h).2
    refine ⟨fun w u hu => he.isOpen w u (hmem hu),
      fun w u v hu hv => he.closer w u v (hmem hu) (hmem hv), fun u hu => ?_,
      fun u hu => absurd hu (hfree u), fun hf => absurd h0 hf, fun h => absurd h hc⟩
    obtain ⟨e, hu⟩ := of_update hu fun h => h
    exact absurd hu (hnd u e)

/-- The page is freed. -/
theorem kfree (he : Ends h s pt) (hp : pt t = .closeFree) :
    Ends h { s with freed := s.freed + 1 } (update pt t .outside) := by
  have htfree : Freeing (pt t) := by rw [hp]; trivial
  obtain ⟨h0, hc, huniq⟩ := he.freer t htfree
  have hnd : ∀ u, ¬ Deciding (update pt t .outside u) := fun u hu =>
    (he.decider u (of_update hu fun h => h).2).2.2 t htfree
  have hnf : ∀ u, ¬ Freeing (update pt t .outside u) := fun u hu => by
    obtain ⟨e, hu⟩ := of_update hu fun h => h
    exact e (huniq u hu).symm
  have hmem : ∀ {w u}, Closing w (update pt t .outside u) → Closing w (pt u) :=
    fun {w u} hu => (of_update (P := Closing w) hu fun h => h).2
  have h1 : s.freed + 1 = 1 := by rw [h0]
  exact ⟨fun w u hu => he.isOpen w u (hmem hu),
    fun w u v hu hv => he.closer w u v (hmem hu) (hmem hv), fun u hu => absurd hu (hnd u),
    fun u hu => absurd hu (hnf u), fun _ => ⟨h1, hc, hnf⟩, fun _ => .inr (.inr h1)⟩

end Ends

/-- A `pipewrite` that has stored bytes since it took the lock does not give up. -/
def Allow (l : Point) (killed : Bool) (s : Page) : Prop :=
  ∀ n addr i, l = .writeFull n addr i true → s.pipe.readopen = true ∧ killed = false

/-! ### The rules -/

section Rules

variable [DecidableEq τ] {h h' : Option τ} {s s' : Page} {pt : τ → Point} {t : τ} {l : Point}

theorem J.keep (hJ : J h s pt) (hr : Ends.SameRole (pt t) l)
    (hown : ∀ u, Deciding (pt u) → h' = some u) (hother : ∀ u, h' = some u → u = t)
    (hread : s'.pipe.readopen = s.pipe.readopen) (hwrite : s'.pipe.writeopen = s.pipe.writeopen)
    (hfreed : s'.freed = s.freed) (hk : Know l s') : J h' s' (update pt t l) := by
  refine ⟨fun u hu => ?_, hJ.ends.keep hr hread hwrite hfreed hown⟩
  obtain rfl := hother u hu
  rwa [update_self]

/-- The holder goes on, and nothing is said about the ends. -/
theorem J.go (hJ : J (some t) s pt) (hr : Ends.SameRole (pt t) l)
    (hread : s'.pipe.readopen = s.pipe.readopen) (hwrite : s'.pipe.writeopen = s.pipe.writeopen)
    (hfreed : s'.freed = s.freed) (hk : Know l s') : J (some t) s' (update pt t l) :=
  hJ.keep hr (fun u hu => (hJ.ends.decider u hu).1) (fun u hu => (some.inj hu).symm) hread
    hwrite hfreed hk

/-- A process takes the lock. -/
theorem J.take (hJ : J none s pt) (hr : Ends.SameRole (pt t) l) (hk : Know l s) :
    J (some t) s (update pt t l) :=
  hJ.keep hr (fun u hu => by cases (hJ.ends.decider u hu).1)
    (fun u hu => (some.inj hu).symm) rfl rfl rfl hk

/-- The holder lets go of the lock. -/
theorem J.drop (hJ : J (some t) s pt) (hr : Ends.SameRole (pt t) l) (hd : ¬ Deciding (pt t)) :
    J none s (update pt t l) := by
  refine ⟨fun u hu => (by cases hu), hJ.ends.keep hr rfl rfl rfl fun u hu => ?_⟩
  obtain rfl := some.inj (hJ.ends.decider u hu).1
  exact absurd hu hd

/-- A process that does not hold the lock goes on. -/
theorem J.aside (hJ : J h s pt) (hpipe : s'.pipe = s.pipe) (hk : Know l s')
    (he : Ends h s' (update pt t l)) : J h s' (update pt t l) := by
  refine ⟨fun u hu => ?_, he⟩
  by_cases e : u = t
  · subst e; rwa [update_self]
  · rw [update_of_ne e]
    have hku := hJ.know u hu
    cases hp : pt u <;> rw [hp] at hku <;> simpa only [Know, Ok, hpipe] using hku

/-- A process stores a byte: the pipe was not full, and the readers are to be woken. -/
theorem G_put {n : Int} {addr : Nat → UInt8} {i : Nat} {stored : Bool} (hfull : ¬ s.pipe.full = true)
    (c : Chan) (hc : G (.writeFor n addr i stored) s c) :
    G (.writeFor n addr (i + 1) true) { s with pipe := s.pipe.put (addr i) } c := by
  cases c with
  | nread => exact .inr rfl
  | nwrite =>
    rcases hc with hok | ho
    · exact absurd hok.1 hfull
    · exact ho.elim

/-- A process takes a byte: the pipe was not empty, and the writers are to be woken. -/
theorem G_tail {n : Int} {i : Nat} (hempty : ¬ s.pipe.empty = true) (c : Chan)
    (hc : G (.readFor n i) s c) : G (.readFor n (i + 1)) { s with pipe := s.pipe.tail } c := by
  cases c with
  | nread =>
    rcases hc with hok | ho
    · exact absurd hok.1 hempty
    · exact ho.elim
  | nwrite => exact .inr trivial

/-- An end is marked, and the other side is to be woken. -/
theorem G_mark {w : Bool} (c : Chan) (hc : G (.closeMark w) s c) :
    G (.closeWake w) { s with pipe := mark s.pipe w } c := by
  rcases hc with hok | ho
  · cases w <;> cases c
    · exact .inl hok
    · exact .inr rfl
    · exact .inr rfl
    · exact .inl hok
  · exact ho.elim

/-- What is owed at `l` is owed at `l'`. -/
theorem G_mono {l l' : Point} (h : ∀ c, Owes l c → Ok c s ∨ Owes l' c) (c : Chan) (hc : G l s c) :
    G l' s c := by
  rcases hc with hok | ho
  · exact .inl hok
  · exact h c ho

/-- Nothing is owed at `l`. -/
theorem ok_of_G (h : ∀ c, ¬ Owes l c) (c : Chan) (hc : G l s c) : Ok c s :=
  hc.resolve_right (h c)

theorem sound : Monitor.Sound (instr (τ := τ)) may Allow J Ok G where
  call {h s} pt {t l} hr hm hJ := by
    have hp : pt t = .outside := by
      cases hp : pt t <;> rw [hp] at hr <;> first | rfl | cases hr
    have hown : ∀ u, Deciding (pt u) → h = some u := fun u hu => (hJ.ends.decider u hu).1
    cases l <;> first | exact hm.elim | skip
    · refine ⟨rfl, hJ.aside rfl trivial (hJ.ends.keep ?_ rfl rfl rfl hown)⟩
      simp [hp, Ends.SameRole, Closing, Deciding, Freeing]
    · refine ⟨rfl, hJ.aside rfl trivial (hJ.ends.keep ?_ rfl rfl rfl hown)⟩
      simp [hp, Ends.SameRole, Closing, Deciding, Freeing]
    · exact ⟨rfl, hJ.aside rfl trivial (hJ.ends.start hp hm.1 hm.2)⟩
  acquire {s} pt {t l} hi hJ := by
    cases hp : pt t <;> rw [hp] at hi <;> cases hi
    all_goals
      refine ⟨rfl, hJ.take ?_ trivial, fun _ hok => .inl hok⟩
      simp [hp, Ends.SameRole, Closing, Deciding, Freeing]
  access {s} pt {t f k d l} hi ha hf hJ := by
    have hknow := hJ.know t rfl
    cases hp : pt t <;> rw [hp] at hi hknow ha <;> cases hi
    case writeFor n addr i stored =>
      dsimp only at hf
      split at hf
      · split at hf
        · next hfull =>
          cases hf
          refine ⟨rfl, hJ.go ?_ rfl rfl rfl hfull, G_mono fun c hc => .inr ?_⟩
          · simp [hp, Ends.SameRole, Closing, Deciding, Freeing]
          · cases c <;> exact hc
        · next hfull =>
          cases hf
          refine ⟨rfl, hJ.go ?_ rfl rfl rfl trivial, G_put hfull⟩
          simp [hp, Ends.SameRole, Closing, Deciding, Freeing]
      · cases hf
        refine ⟨rfl, hJ.go ?_ rfl rfl rfl trivial, G_mono fun c hc => .inr ?_⟩
        · simp [hp, Ends.SameRole, Closing, Deciding, Freeing]
        · cases c
          · trivial
          · exact hc.elim
    case writeFull n addr i stored =>
      cases hf
      split
      · next hfail =>
        -- it has stored nothing, so it owes nothing
        have hst : stored = false := by
          cases stored with
          | false => rfl
          | true =>
            obtain ⟨ho, hk⟩ := ha n addr i rfl
            simp [ho, hk] at hfail
        subst hst
        refine ⟨rfl, hJ.go ?_ rfl rfl rfl trivial, G_mono fun c hc => ?_⟩
        · simp [hp, Ends.SameRole, Closing, Deciding, Freeing]
        · cases c
          · cases hc
          · exact hc.elim
      · next hgo =>
        have ho : s.pipe.readopen = true := by
          cases ho : s.pipe.readopen with
          | false => simp [ho] at hgo
          | true => rfl
        refine ⟨rfl, hJ.go ?_ rfl rfl rfl ⟨hknow, ho⟩, G_mono fun c hc => .inr ?_⟩
        · simp [hp, Ends.SameRole, Closing, Deciding, Freeing]
        · cases c
          · trivial
          · exact hc.elim
    case readTest n =>
      cases hf
      split
      · next hok =>
        rw [Bool.and_eq_true] at hok
        refine ⟨rfl, hJ.go ?_ rfl rfl rfl hok, G_mono fun c hc => hc.elim⟩
        simp [hp, Ends.SameRole, Closing, Deciding, Freeing]
      · refine ⟨rfl, hJ.go ?_ rfl rfl rfl trivial, G_mono fun c hc => hc.elim⟩
        simp [hp, Ends.SameRole, Closing, Deciding, Freeing]
    case readKilled n =>
      cases hf
      split
      · refine ⟨rfl, hJ.go ?_ rfl rfl rfl trivial, G_mono fun c hc => hc.elim⟩
        simp [hp, Ends.SameRole, Closing, Deciding, Freeing]
      · refine ⟨rfl, hJ.go ?_ rfl rfl rfl hknow, G_mono fun c hc => hc.elim⟩
        simp [hp, Ends.SameRole, Closing, Deciding, Freeing]
    case readFor n i =>
      dsimp only at hf
      split at hf
      · next hgo =>
        cases hf
        refine ⟨rfl, hJ.go ?_ rfl rfl rfl trivial, G_tail hgo.2⟩
        simp [hp, Ends.SameRole, Closing, Deciding, Freeing]
      cases hf
      refine ⟨rfl, hJ.go ?_ rfl rfl rfl trivial, G_mono fun c hc => .inr ?_⟩
      · simp [hp, Ends.SameRole, Closing, Deciding, Freeing]
      · cases c <;> exact hc
    case closeMark w =>
      cases hf
      refine ⟨rfl, ⟨fun u hu => ?_, hJ.ends.marked hp⟩, G_mark⟩
      obtain rfl := some.inj hu
      rw [update_self]
      trivial
    case closeTest =>
      cases hf
      refine ⟨?_, ⟨fun u hu => ?_, hJ.ends.tested hp⟩, G_mono fun c hc => hc.elim⟩
      · split <;> rfl
      · obtain rfl := some.inj hu
        rw [update_self]
        split <;> trivial
  sleep {s} pt {t c l} hi hJ := by
    have hknow := hJ.know t rfl
    cases hp : pt t <;> rw [hp] at hi hknow <;> cases hi
    all_goals
      refine ⟨?_, hknow, ok_of_G fun c hc => hc.elim⟩
      rw [← update_eq_self t pt]
      refine hJ.drop ⟨fun _ => .rfl, .rfl, .rfl⟩ ?_
      simp [hp, Deciding]
  resume {s} pt {t c l} hi hJ := by
    cases hp : pt t <;> rw [hp] at hi <;> cases hi
    all_goals
      refine ⟨rfl, hJ.take ?_ trivial, fun _ hok => .inl hok⟩
      simp [hp, Ends.SameRole, Closing, Deciding, Freeing]
  wakeup {s} pt {t c l} hi hJ := by
    have hknow := hJ.know t rfl
    cases hp : pt t <;> rw [hp] at hi hknow <;> cases hi
    case writeNotify n addr i =>
      refine ⟨rfl, hJ.go ?_ rfl rfl rfl hknow, fun c hne hc => .inl (hc.resolve_right ?_)⟩
      · simp [hp, Ends.SameRole, Closing, Deciding, Freeing]
      · cases c <;> simp [Owes] at hne ⊢
    case writeWake =>
      refine ⟨rfl, hJ.go ?_ rfl rfl rfl trivial, fun c hne hc => .inl (hc.resolve_right ?_)⟩
      · simp [hp, Ends.SameRole, Closing, Deciding, Freeing]
      · cases c <;> simp [Owes] at hne ⊢
    case readWake =>
      refine ⟨rfl, hJ.go ?_ rfl rfl rfl trivial, fun c hne hc => .inl (hc.resolve_right ?_)⟩
      · simp [hp, Ends.SameRole, Closing, Deciding, Freeing]
      · cases c <;> simp [Owes] at hne ⊢
    case closeWake w =>
      refine ⟨rfl, hJ.go ?_ rfl rfl rfl trivial, fun c hne hc => .inl (hc.resolve_right ?_)⟩
      · simp [hp, Ends.SameRole, Closing, Deciding, Freeing]
      · cases c <;> cases w <;> simp [Owes] at hne ⊢
  release {s} pt {t l} hi hJ := by
    cases hp : pt t <;> rw [hp] at hi <;> cases hi
    all_goals
      refine ⟨rfl, hJ.drop ?_ ?_, ok_of_G fun c hc => hc.elim⟩
      · simp [hp, Ends.SameRole, Closing, Deciding, Freeing]
      · simp [hp, Deciding]
  bare {h s} pt {t f d l} hi hf hJ := by
    cases hp : pt t <;> rw [hp] at hi <;> cases hi
    cases hf
    exact ⟨rfl, hJ.aside rfl trivial (hJ.ends.kfree hp), fun c hok => by cases c <;> exact hok,
      fun l' c hc => by cases c <;> exact hc⟩

end Rules

/-! ### The results -/

variable [DecidableEq τ]

/-- What the code guarantees in a state. -/
structure NoLostWakeup (x : Monitor.State τ Point Page) : Prop where
  /-- while `p->lock` is free, a sleeper on `&p->nread` has nothing to read -/
  readers : x.lock = none → ∀ t, Monitor.SleepsOn instr x .nread t →
    x.data.pipe.empty = true ∧ x.data.pipe.writeopen = true
  /-- while `p->lock` is free, a sleeper on `&p->nwrite` has no room -/
  writers : x.lock = none → ∀ t, Monitor.SleepsOn instr x .nwrite t →
    x.data.pipe.full = true ∧ x.data.pipe.readopen = true
  /-- the page is freed at most once, and only when both ends are closed -/
  once : x.data.freed ≤ 1 ∧ (x.data.freed = 1 → Closed x.data)
  /-- when both ends are closed and `p->lock` is free, the page has been freed, or the process that
  closed the second end is about to free it -/
  closed : x.lock = none → Closed x.data → x.data.freed = 1 ∨ ∃ t, x.points t = .closeFree

omit [DecidableEq τ] in
theorem noLostWakeup_of_inv {x : Monitor.State τ Point Page}
    (h : Monitor.Inv instr J Ok G x) : NoLostWakeup x := by
  refine ⟨fun hfree t hs => h.ok_of_sleepsOn hfree hs, fun hfree t hs => h.ok_of_sleepsOn hfree hs,
    ⟨?_, fun h1 => (h.data.ends.freed (by omega)).2.1⟩, fun hfree hc => ?_⟩
  · by_cases h0 : x.data.freed = 0
    · omega
    · exact (h.data.ends.freed h0).1.le
  · rcases h.data.ends.closed hc with ⟨u, hu⟩ | ⟨u, hu⟩ | h1
    · -- it would hold the lock
      have := (h.data.ends.decider u hu).1
      rw [hfree] at this
      cases this
    · refine .inr ⟨u, ?_⟩
      cases hp : x.points u <;> rw [hp] at hu <;> first | exact hu.elim | skip
      · have := h.not_held (t := u) hfree (by rw [hp]; exact fun c l e => by cases e)
        rw [hp] at this
        cases this
    · exact .inl h1

/-- **Pipes.**  In every state of every run of any number of processes on one pipe in which no
`pipewrite` gives up with bytes that it has stored since it took the lock. -/
theorem pipe_no_lost_wakeup {data : Fin PIPESIZE → UInt8} {x : Monitor.State τ Point Page}
    {tr : List (Monitor.State τ Point Page × Monitor.Op τ Point)}
    (hr : Run (Monitor.Step instr may) (Monitor.idle ⟨.alloc data, 0⟩ .outside) tr x)
    (ha : ∀ z ∈ tr, Monitor.Allowed instr Allow z.1 z.2) :
    (∀ z ∈ tr, NoLostWakeup z.1) ∧ NoLostWakeup x := by
  have hJ : J none ⟨.alloc data, 0⟩ fun _ : τ => Point.outside := by
    refine ⟨fun t ht => (by cases ht), fun w u hu => hu.elim, fun w u v hu => hu.elim,
      fun u hu => hu.elim, fun u hu => hu.elim, fun hf => absurd rfl hf, fun hc => ?_⟩
    cases hc.1
  have h := Monitor.inv_run sound rfl hJ hr ha
  exact ⟨fun z hz => noLostWakeup_of_inv (h.1 z hz), noLostWakeup_of_inv h.2⟩

instance decidableClosing (w : Bool) (l : Point) : Decidable (Closing w l) := by
  cases l <;> dsimp only [Closing] <;> infer_instance

instance decidableMay [Fintype τ] (s : Page) (pt : τ → Point) (t : τ) (l : Point) :
    Decidable (may s pt t l) := by
  cases l <;> dsimp only [may] <;> infer_instance

instance decidableAllow (killed : Bool) (s : Page) (l : Point) : Decidable (Allow l killed s) := by
  cases l with
  | writeFull n addr i full =>
    cases full with
    | true =>
      exact decidable_of_iff (s.pipe.readopen = true ∧ killed = false)
        ⟨fun h _ _ _ _ => h, fun h => h n addr i rfl⟩
    | false => exact isTrue fun _ _ _ e => by cases e
  | _ => exact isTrue fun _ _ _ e => by cases e

/-- A reader sleeps on the empty pipe.  A writer stores a byte, which wakes the reader, and closes
its end; the reader takes the byte and closes its own. -/
def handOverOps : List (Monitor.Op Bool Point) :=
  [.call false (.read 2)] ++ List.replicate 6 (.next false) ++
    [.call true (.write 1 fun _ => 7)] ++ List.replicate 5 (.next true) ++
    [.call true (.close true)] ++ List.replicate 5 (.next true) ++ List.replicate 7 (.next false) ++
    [.call false (.close false)] ++ List.replicate 6 (.next false)

theorem pipe_no_lost_wakeup_handOver : ∃ tr x,
    Run (Monitor.Step (instr (τ := Bool)) may) (Monitor.idle ⟨.alloc fun _ => 0, 0⟩ .outside) tr x ∧
    (x.data.freed = 1 ∧ x.data.pipe.nread = 1) ∧ (∀ z ∈ tr, NoLostWakeup z.1) ∧ NoLostWakeup x := by
  obtain ⟨x, hr, hx⟩ := exists_run (Monitor.step_of_exec? (instr (τ := Bool)) may)
    (Monitor.idle ⟨.alloc fun _ => 0, 0⟩ .outside) handOverOps
    (fun x => x.data.freed = 1 ∧ x.data.pipe.nread = 1) (by decide +kernel)
  have ha : ∀ z ∈ traceFn (Monitor.exec? (instr (τ := Bool)) may)
      (Monitor.idle ⟨.alloc fun _ => 0, 0⟩ .outside) handOverOps,
      ∀ t, Allow (z.1.place t).point (z.1.killed t) z.1.data := by decide +kernel
  refine ⟨_, x, hr, hx, pipe_no_lost_wakeup hr fun z hz => ?_⟩
  unfold Monitor.Allowed
  split
  · exact fun _ => ha z hz _
  · trivial

/-- A reader sleeps on the empty pipe.  A writer that has been killed stores as many bytes as fit, and
gives up. -/
def giveUpOps : List (Monitor.Op Bool Point) :=
  [.call false (.read 1)] ++ List.replicate 6 (.next false) ++
    [.kill true, .call true (.write 513 fun _ => 7)] ++ List.replicate 516 (.next true)

/-- The reader is left asleep on a pipe that is full. -/
theorem killed_writer_loses_wakeup : ∃ tr x,
    Run (Monitor.Step instr may) (Monitor.idle ⟨.alloc fun _ => 0, 0⟩ .outside) tr x ∧
    x.lock = none ∧ Monitor.SleepsOn instr x .nread false ∧ x.data.pipe.full = true ∧
    x.data.pipe.empty = false := by
  obtain ⟨x, hr, hfree, hs, hfull, hempty⟩ := exists_run
    (Monitor.step_of_exec? (instr (τ := Bool)) may)
    (Monitor.idle ⟨.alloc fun _ => 0, 0⟩ .outside) giveUpOps
    (fun x => x.lock = none ∧ Monitor.sleepsOn (instr (τ := Bool)) .nread (x.place false) = true ∧
      x.data.pipe.full = true ∧ x.data.pipe.empty = false) (by decide +kernel)
  exact ⟨_, x, hr, hfree, Monitor.Inv.sleepsOn_iff.mp hs, hfull, hempty⟩

end Xv6.PipeWait
