import Xv6.Lib.Ring
import Xv6.Lib.Run
import Xv6.Kernel.Base
import Mathlib.Data.UInt

/-!
# File — Pipe

`pipe.c`: `pipewrite`, `piperead` and `pipeclose` on one pipe, for any number of processes `ι`.  A
step is a maximal section under `p->lock`: from the call, or from the return of `sleep`, up to the
next `sleep` or the return from the call.  `wakeup(&p->nread)` and `wakeup(&p->nwrite)` wake the
readers and the writers that sleep, and so does `kill`.

The counters are 32-bit and wrap.  The memory that `addr` points to is a parameter of each section:
between two sections of a `pipewrite` a process that shares it may change it.

* `pipe_fifo`: what the readers got, followed by what the pipe holds, is what the writers stored.
-/

namespace Xv6

open Lib Function List

def PIPESIZE : Nat := 512

instance : NeZero PIPESIZE := ⟨Nat.succ_ne_zero 511⟩

/-- `struct pipe`. -/
structure Pipe where
  data : Fin PIPESIZE → UInt8
  nread : UInt32
  nwrite : UInt32
  readopen : Bool
  writeopen : Bool

namespace Pipe

/-- The pipe that `pipealloc` makes out of a page. -/
def alloc (data : Fin PIPESIZE → UInt8) : Pipe := ⟨data, 0, 0, true, true⟩

/-- `nwrite == nread + PIPESIZE`. -/
def full (p : Pipe) : Bool := p.nwrite = p.nread + UInt32.ofNat PIPESIZE

/-- `nread == nwrite`. -/
def empty (p : Pipe) : Bool := p.nread = p.nwrite

/-- `data[nwrite++ % PIPESIZE] = c`. -/
def put (p : Pipe) (c : UInt8) : Pipe :=
  { p with
    data := update p.data (Ring.cell PIPESIZE p.nwrite.toNat) c
    nwrite := p.nwrite + 1 }

/-- `data[nread % PIPESIZE]`. -/
def head (p : Pipe) : UInt8 := p.data (Ring.cell PIPESIZE p.nread.toNat)

/-- `nread++`. -/
def tail (p : Pipe) : Pipe := { p with nread := p.nread + 1 }

/-- How a section of `pipewrite` ends. -/
inductive Leave where
  /-- it returns `n` -/
  | done
  /-- it returns -1 -/
  | fail
  /-- it sleeps before byte `i` -/
  | sleep (i : Nat)
  deriving DecidableEq

/-- The loop of `pipewrite` from byte `i` on, with the bytes that it stores. -/
def pipewriteLoop (killed : Bool) (addr : Nat → UInt8) :
    (left i : Nat) → Pipe → Pipe × List UInt8 × Leave
  | 0, _, p => (p, [], .done)
  | left + 1, i, p =>
    if p.full then
      if !p.readopen || killed then (p, [], .fail) else (p, [], .sleep i)
    else
      let (p, out, e) := pipewriteLoop killed addr left (i + 1) (p.put (addr i))
      (p, addr i :: out, e)

/-- The copying loop of `piperead`, with the bytes that it returns. -/
def pipereadLoop : Nat → Pipe → Pipe × List UInt8
  | 0, p => (p, [])
  | left + 1, p =>
    if p.empty then (p, [])
    else
      let (p', out) := pipereadLoop left p.tail
      (p', p.head :: out)

end Pipe

namespace PipeSys

/-- Where a process is. -/
inductive Phase where
  | outside
  /-- in `pipewrite` of `n` bytes, in `sleep` before byte `i` -/
  | writing (n : Int) (i : Nat) (asleep : Bool)
  /-- in `piperead` of `n` bytes, in `sleep` -/
  | reading (n : Int) (asleep : Bool)
  deriving DecidableEq

/-- Is the process in a call on the write end, or the read end? -/
def Phase.uses (writable : Bool) : Phase → Bool
  | .outside => false
  | .writing _ _ _ => writable
  | .reading _ _ => !writable

/-- Has the process been woken? -/
def Phase.ready : Phase → Bool
  | .outside => false
  | .writing _ _ asleep => !asleep
  | .reading _ asleep => !asleep

/-- The process leaves `sleep`. -/
def Phase.wake : Phase → Phase
  | .outside => .outside
  | .writing n i _ => .writing n i false
  | .reading n _ => .reading n false

/-- A pipe and the processes. -/
structure Sys (ι : Type) where
  pipe : Pipe
  phase : ι → Phase
  killed : ι → Bool

/-- What a section does: the bytes stored, the bytes returned, and the value it returns. -/
structure Io where
  stored : List UInt8
  returned : List UInt8
  ret : Option Int

inductive Op (ι : Type) where
  | write (q : ι) (n : Int) (addr : Nat → UInt8)
  | read (q : ι) (n : Int)
  | resume (q : ι) (addr : Nat → UInt8)
  | kill (q : ι)
  | close (writable : Bool)

variable {ι : Type} [DecidableEq ι]

/-- `wakeup(&p->nwrite)` for `writable`, `wakeup(&p->nread)` otherwise. -/
def wakeup (writable : Bool) (phase : ι → Phase) (q : ι) : Phase :=
  if (phase q).uses writable then (phase q).wake else phase q

/-- A section of `pipewrite(p, addr, n)` called by `q`, from byte `i` on. -/
def pipewrite (s : Sys ι) (q : ι) (addr : Nat → UInt8) (n : Int) (i : Nat) : Io × Sys ι :=
  match Pipe.pipewriteLoop (s.killed q) addr (n - i).toNat i s.pipe with
  | (p, out, .done) =>
    (⟨out, [], some n⟩, { s with pipe := p, phase := update (wakeup false s.phase) q .outside })
  | (p, out, .fail) =>
    (⟨out, [], some (-1)⟩, { s with pipe := p, phase := update s.phase q .outside })
  | (p, out, .sleep i) =>
    (⟨out, [], none⟩,
      { s with pipe := p, phase := update (wakeup false s.phase) q (.writing n i true) })

/-- A section of `piperead(p, addr, n)` called by `q`. -/
def piperead (s : Sys ι) (q : ι) (n : Int) : Io × Sys ι :=
  if s.pipe.empty && s.pipe.writeopen then
    if s.killed q then
      (⟨[], [], some (-1)⟩, { s with phase := update s.phase q .outside })
    else (⟨[], [], none⟩, { s with phase := update s.phase q (.reading n true) })
  else
    let (p, out) := Pipe.pipereadLoop n.toNat s.pipe
    (⟨[], out, some out.length⟩,
      { s with pipe := p, phase := update (wakeup true s.phase) q .outside })

/-- `pipeclose(p, writable)`. -/
def pipeclose (s : Sys ι) (writable : Bool) : Sys ι :=
  if writable then
    { s with pipe := { s.pipe with writeopen := false }, phase := wakeup false s.phase }
  else
    { s with pipe := { s.pipe with readopen := false }, phase := wakeup true s.phase }

/-- What happens in a step. -/
def exec (s : Sys ι) : Op ι → Io × Sys ι
  | .write q n addr => pipewrite s q addr n 0
  | .read q n => piperead s q n
  | .resume q addr =>
    match s.phase q with
    | .outside => (⟨[], [], none⟩, s)
    | .writing n i _ => pipewrite s q addr n i
    | .reading n _ => piperead s q n
  | .kill q =>
    (⟨[], [], none⟩, { s with
      phase := update s.phase q (s.phase q).wake
      killed := update s.killed q true })
  | .close writable => (⟨[], [], none⟩, pipeclose s writable)

/-- When a step can be taken.  An end of the pipe is open as long as a descriptor names it, and a
process in a call has such a descriptor. -/
def Enabled (s : Sys ι) : Op ι → Prop
  | .write q _ _ => s.phase q = .outside ∧ s.pipe.writeopen = true
  | .read q _ => s.phase q = .outside ∧ s.pipe.readopen = true
  | .resume q _ => (s.phase q).ready = true
  | .kill _ => True
  | .close writable =>
    (if writable then s.pipe.writeopen else s.pipe.readopen) = true ∧
      ∀ q, (s.phase q).uses writable = false

/-- One step. -/
def Step (s : Sys ι) (op : Op ι) (s' : Sys ι) : Prop := Enabled s op ∧ (exec s op).2 = s'

/-- A new pipe, with nobody in it. -/
def opened (data : Fin PIPESIZE → UInt8) (killed : ι → Bool) : Sys ι :=
  ⟨Pipe.alloc data, fun _ => .outside, killed⟩

/-- The bytes that `pipewrite` stored along a run. -/
def stored (t : List (Sys ι × Op ι)) : List UInt8 := t.flatMap fun x => (exec x.1 x.2).1.stored

/-- The bytes that `piperead` returned along a run. -/
def returned (t : List (Sys ι × Op ι)) : List UInt8 :=
  t.flatMap fun x => (exec x.1 x.2).1.returned

end PipeSys

/-! ### The ring -/

namespace Pipe

/-- `nwrite - nread`, in 32 bits. -/
def used (p : Pipe) : Nat := (p.nwrite - p.nread).toNat

/-- The bytes in the pipe. -/
def buffered (p : Pipe) : List UInt8 := Ring.window p.data p.nread.toNat p.used

theorem pipesize_dvd : PIPESIZE ∣ 2 ^ 32 := ⟨2 ^ 23, rfl⟩

/-- The write counter is the read counter and the bytes in use, up to a wrap. -/
theorem nwrite_toNat (p : Pipe) : p.nwrite.toNat = (p.nread.toNat + p.used) % 2 ^ 32 := by
  rw [used, ← UInt32.toNat_add, UInt32.add_comm, UInt32.sub_add_cancel]

theorem used_eq_zero {p : Pipe} : p.used = 0 ↔ p.empty = true := by
  unfold used empty
  rw [decide_eq_true_eq, ← UInt32.toNat_zero, UInt32.toNat_inj, sub_eq_zero, eq_comm]

theorem full_iff {p : Pipe} : p.full = true ↔ p.used = PIPESIZE := by
  unfold used full
  rw [decide_eq_true_eq]
  constructor
  · intro h
    rw [h, UInt32.add_comm, UInt32.add_sub_cancel]
    rfl
  · intro h
    have hw : p.nwrite - p.nread = UInt32.ofNat PIPESIZE := UInt32.toNat_inj.mp h
    rw [← hw, UInt32.add_comm, UInt32.sub_add_cancel]

/-- **Storing a byte** in a pipe that is not full. -/
theorem buffered_put {p : Pipe} (h : p.used ≤ PIPESIZE) (hf : p.full = false) (c : UInt8) :
    (p.put c).used ≤ PIPESIZE ∧ (p.put c).buffered = p.buffered ++ [c] := by
  have hlt : p.used < PIPESIZE := Nat.lt_of_le_of_ne h fun he => by
    rw [full_iff.mpr he] at hf
    cases hf
  have hu : (p.put c).used = p.used + 1 := by
    have hs : (p.put c).nwrite - (p.put c).nread = p.nwrite - p.nread + 1 :=
      add_sub_right_comm p.nwrite 1 p.nread
    have hw : p.used + 1 < 2 ^ 32 := by unfold PIPESIZE at hlt; omega
    rw [used, hs, UInt32.toNat_add, ← used]
    exact Nat.mod_eq_of_lt hw
  refine ⟨hu ▸ hlt, ?_⟩
  unfold buffered
  rw [hu]
  simp only [put]
  rw [nwrite_toNat, Ring.cell_mod pipesize_dvd, Ring.window_put hlt]

/-- **Taking a byte** out of a pipe that is not empty. -/
theorem buffered_tail {p : Pipe} (he : p.empty = false) :
    p.tail.used + 1 = p.used ∧ p.buffered = p.head :: p.tail.buffered := by
  have hpos : p.used ≠ 0 := fun h₀ => by
    rw [used_eq_zero.mp h₀] at he
    cases he
  have hu : p.tail.used + 1 = p.used := by
    have hs : p.nwrite - p.nread = p.tail.nwrite - p.tail.nread + 1 := by
      simp only [tail]
      rw [sub_add_eq_sub_sub, sub_add_cancel]
    have hmod : p.used = (p.tail.used + 1) % 2 ^ 32 := by
      rw [used, hs, UInt32.toNat_add, ← used]
      rfl
    have hlt : p.tail.used < 2 ^ 32 := (p.tail.nwrite - p.tail.nread).toNat_lt
    omega
  refine ⟨hu, ?_⟩
  have hr : p.tail.nread.toNat = (p.nread.toNat + 1) % 2 ^ 32 := UInt32.toNat_add _ _
  unfold buffered
  rw [← hu, hr, Ring.window_mod pipesize_dvd]
  rfl

/-! ### The loops -/

theorem pipewriteLoop_spec (killed : Bool) (addr : Nat → UInt8) (left i : Nat) (p : Pipe)
    (h : p.used ≤ PIPESIZE) : (pipewriteLoop killed addr left i p).1.used ≤ PIPESIZE ∧
      (pipewriteLoop killed addr left i p).1.buffered =
        p.buffered ++ (pipewriteLoop killed addr left i p).2.1 := by
  induction left generalizing i p with
  | zero => exact ⟨h, (append_nil _).symm⟩
  | succ left ih =>
    rw [pipewriteLoop]
    split
    · split
      · exact ⟨h, (append_nil _).symm⟩
      · exact ⟨h, (append_nil _).symm⟩
    next hf =>
    obtain ⟨hu, hb⟩ := buffered_put h (Bool.eq_false_iff.mpr hf) (addr i)
    obtain ⟨hu', hb'⟩ := ih (i + 1) (p.put (addr i)) hu
    refine ⟨hu', ?_⟩
    rw [hb, append_assoc] at hb'
    exact hb'

theorem pipereadLoop_spec (left : Nat) (p : Pipe) (h : p.used ≤ PIPESIZE) :
    (pipereadLoop left p).1.used ≤ PIPESIZE ∧
      p.buffered = (pipereadLoop left p).2 ++ (pipereadLoop left p).1.buffered := by
  induction left generalizing p with
  | zero => exact ⟨h, rfl⟩
  | succ left ih =>
    rw [pipereadLoop]
    split
    · exact ⟨h, rfl⟩
    next he =>
    obtain ⟨hu, hb⟩ := buffered_tail (Bool.eq_false_iff.mpr he)
    obtain ⟨hu', hb'⟩ := ih p.tail (by omega)
    exact ⟨hu', hb.trans (congrArg (p.head :: ·) hb')⟩

end Pipe

/-! ### Runs -/

namespace PipeSys

variable {ι : Type} [DecidableEq ι] {s s' : Sys ι} {op : Op ι} {t : List (Sys ι × Op ι)}

/-- What a section moves: into the pipe at its end, out of it at its front. -/
def Moves (p : Pipe) (io : Io) (p' : Pipe) : Prop :=
  p'.used ≤ PIPESIZE ∧ p.buffered ++ io.stored = io.returned ++ p'.buffered

theorem moves_pipewrite (h : s.pipe.used ≤ PIPESIZE) (q : ι) (addr : Nat → UInt8) (n : Int)
    (i : Nat) : Moves s.pipe (pipewrite s q addr n i).1 (pipewrite s q addr n i).2.pipe := by
  obtain ⟨hu, hb⟩ := Pipe.pipewriteLoop_spec (s.killed q) addr (n - i).toNat i s.pipe h
  unfold pipewrite
  split <;> next hl => rw [hl] at hu hb; exact ⟨hu, hb.symm⟩

theorem moves_piperead (h : s.pipe.used ≤ PIPESIZE) (q : ι) (n : Int) :
    Moves s.pipe (piperead s q n).1 (piperead s q n).2.pipe := by
  have hstay : Moves s.pipe ⟨[], [], none⟩ s.pipe := ⟨h, append_nil _⟩
  unfold piperead
  split
  · split
    · exact hstay
    · exact hstay
  · obtain ⟨hu, hb⟩ := Pipe.pipereadLoop_spec n.toNat s.pipe h
    exact ⟨hu, (append_nil _).trans hb⟩

/-- **One section.** -/
theorem moves_exec (h : s.pipe.used ≤ PIPESIZE) (op : Op ι) :
    Moves s.pipe (exec s op).1 (exec s op).2.pipe := by
  cases op with
  | write q n addr => exact moves_pipewrite h q addr n 0
  | read q n => exact moves_piperead h q n
  | resume q addr =>
    unfold exec
    dsimp only
    split
    · exact ⟨h, append_nil _⟩
    · next n i _ _ => exact moves_pipewrite h q addr n i
    · next n _ _ => exact moves_piperead h q n
  | kill q => exact ⟨h, append_nil _⟩
  | close writable =>
    cases writable with
    | false => exact ⟨h, append_nil _⟩
    | true => exact ⟨h, append_nil _⟩

/-- Along a run, from any pipe. -/
theorem moves_run (hr : Run Step s t s') (h : s.pipe.used ≤ PIPESIZE) :
    s'.pipe.used ≤ PIPESIZE ∧ s.pipe.buffered ++ stored t = returned t ++ s'.pipe.buffered := by
  induction hr with
  | refl => exact ⟨h, append_nil _⟩
  | @more s s₁ s' op t hs _ ih =>
    obtain ⟨-, rfl⟩ := hs
    obtain ⟨hu, hm⟩ := moves_exec h op
    obtain ⟨hu', hm'⟩ := ih hu
    refine ⟨hu', ?_⟩
    calc s.pipe.buffered ++ stored ((s, op) :: t)
        = (s.pipe.buffered ++ (exec s op).1.stored) ++ stored t := by
          simp [stored]
      _ = (exec s op).1.returned ++ ((exec s op).2.pipe.buffered ++ stored t) := by
          rw [hm, append_assoc]
      _ = returned ((s, op) :: t) ++ s'.pipe.buffered := by
          rw [hm']; simp [returned]

/-- **A pipe is a FIFO channel.**  Along every run on a new pipe, of any length and with any number
of readers and writers, the pipe never holds more than `PIPESIZE` bytes, and the bytes stored are
the bytes returned followed by the bytes in the pipe. -/
theorem pipe_fifo {data : Fin PIPESIZE → UInt8} {killed : ι → Bool}
    (hr : Run Step (opened data killed) t s) : (s.pipe.nwrite - s.pipe.nread).toNat ≤ PIPESIZE ∧
      stored t = returned t ++ s.pipe.buffered := by
  have h₀ : (opened data killed).pipe.used = 0 := Pipe.used_eq_zero.mpr rfl
  obtain ⟨hu, hm⟩ := moves_run hr (by rw [h₀]; exact Nat.zero_le _)
  refine ⟨hu, ?_⟩
  rw [Pipe.buffered, h₀] at hm
  exact hm

/-- A writer stores three bytes, a reader takes two. -/
theorem pipe_fifo_two : ∃ (t : List (Sys Bool × Op Bool)) (s : Sys Bool),
    Run Step (opened (fun _ => 0) fun _ => false) t s ∧ stored t = [7, 8, 9] ∧
    returned t = [7, 8] ∧ s.pipe.buffered = [9] := by
  let s₀ : Sys Bool := opened (fun _ => 0) fun _ => false
  let w : Op Bool := .write true 3 fun i => UInt8.ofNat (i + 7)
  let s₁ := (exec s₀ w).2
  let s₂ := (exec s₁ (.read false 2)).2
  have h₁ : Step s₀ w s₁ := ⟨⟨rfl, rfl⟩, rfl⟩
  have h₂ : Step s₁ (.read false 2) s₂ := ⟨⟨by decide +kernel, by decide +kernel⟩, rfl⟩
  have hr : Run Step s₀ [(s₀, w), (s₁, .read false 2)] s₂ := .more h₁ (.one h₂)
  have hst : stored [(s₀, w), (s₁, .read false 2)] = [7, 8, 9] := by decide +kernel
  have hre : returned [(s₀, w), (s₁, .read false 2)] = [7, 8] := by decide +kernel
  obtain ⟨-, h⟩ := pipe_fifo hr
  rw [hst, hre, cons_append, cons_append, nil_append] at h
  exact ⟨_, s₂, hr, hst, hre, (cons.inj (cons.inj h).2).2.symm⟩

end PipeSys

end Xv6
