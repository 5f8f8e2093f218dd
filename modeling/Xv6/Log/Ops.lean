import Xv6.Log.Commit

/-!
# Log — Ops

`begin_op`, `log_write` and `end_op` of `log.c`, for any number of processes `ι`.  A step is one
section under `log.lock`, one pass of the unlocked checks of `log_write`, or the commit.  A process
that sleeps on `&log` is `asleep` until a `wakeup(&log)`, or a `kill`, makes it `woken`; it then
passes the loop of `begin_op` again.

The caller of `log_write` has changed the buffer it passes.  Between the checks of `log_write` and
its section under the lock another process may step.
-/

namespace Xv6

open Lib Function Option

/-- The blocks that the header names. -/
def LogHeader.blocks (lh : LogHeader) : List UInt32 := (List.ofFn lh.block).take lh.n

/-- The section of `log_write` under the lock: `i` is the index of the block, or `n`. -/
def LogHeader.add (lh : LogHeader) (b : UInt32) : Res LogHeader :=
  let i := lh.blocks.idxOf b
  if h : i < LOGSIZE then
    .ok { n := if i = lh.n then lh.n + 1 else lh.n, block := update lh.block ⟨i, h⟩ b }
  else .error (.fault "log.lh.block: index out of range")

namespace Log

/-- `struct log`. -/
structure LogState where
  start : Nat
  size : Nat
  outstanding : Int
  committing : Bool
  lh : LogHeader

/-- One pass of the loop of `begin_op`; `none` when it sleeps. -/
def beginOp (l : LogState) : Option LogState :=
  if l.committing then none
  else if (l.lh.n : Int) + (l.outstanding + 1) * MAXOPBLOCKS > LOGSIZE then none
  else some { l with outstanding := l.outstanding + 1 }

/-- The checks of `log_write`. -/
def logCheck (l : LogState) : Res Unit :=
  if (l.lh.n : Int) ≥ LOGSIZE ∨ (l.lh.n : Int) ≥ (l.size : Int) - 1 then
    .error (.panic "too big a transaction")
  else if l.outstanding < 1 then .error (.panic "log_write outside of trans")
  else .ok ()

/-- The first section of `end_op`, with `do_commit`. -/
def endOp (l : LogState) : Res (Bool × LogState) :=
  let l := { l with outstanding := l.outstanding - 1 }
  if l.committing then .error (.panic "log.committing")
  else if l.outstanding = 0 then .ok (true, { l with committing := true })
  else .ok (false, l)

/-- Where a process is. -/
inductive Phase where
  | idle
  | asleep
  | woken
  /-- between `begin_op` and `end_op` -/
  | inOp
  /-- in `log_write` of a block, past the checks -/
  | writing (b : UInt32)
  /-- in `end_op`, before `commit()` -/
  | closing
  /-- in `end_op`, after `commit()` -/
  | committed
  deriving DecidableEq

/-- Is the process in an operation? -/
def Phase.inside : Phase → Bool
  | .inOp => true
  | .writing _ => true
  | _ => false

/-- Does the process commit? -/
def Phase.commits : Phase → Bool
  | .closing => true
  | .committed => true
  | _ => false

/-- The log, the processes, and the disk with its cache. -/
structure Sys (ι : Type) where
  log : LogState
  phase : ι → Phase
  dev : Dev Nat Block

/-- `wakeup(&log)`. -/
def wakeup {ι : Type} (phase : ι → Phase) (q : ι) : Phase :=
  if phase q = .asleep then .woken else phase q

/-- What a process does next. -/
inductive Op (ι : Type) where
  | beginOp (p : ι)
  /-- the checks of `log_write`, of a buffer for the block `b` with the data `v` -/
  | logWrite (p : ι) (b : UInt32) (v : Block)
  | logStore (p : ι)
  | endOp (p : ι)
  | commit (p : ι)
  | clear (p : ι)
  | wake (p : ι)

variable {ι : Type} [DecidableEq ι]

/-- The system after the step, or why the machine stops; `none` when the process is elsewhere. -/
def step (s : Sys ι) : Op ι → Option (Res (Sys ι))
  | .beginOp p =>
    if s.phase p = .idle ∨ s.phase p = .woken then
      match beginOp s.log with
      | none => some (.ok { s with phase := update s.phase p .asleep })
      | some l => some (.ok { s with log := l, phase := update s.phase p .inOp })
    else none
  | .logWrite p b v =>
    if s.phase p = .inOp then
      some do
        logCheck s.log
        return { s with
          phase := update s.phase p (.writing b)
          dev := { s.dev with cache := update s.dev.cache b.toNat (some v) } }
    else none
  | .logStore p =>
    match s.phase p with
    | .writing b =>
      some do
        let lh ← s.log.lh.add b
        return { s with
          log := { s.log with lh := lh }
          phase := update s.phase p .inOp }
    | _ => none
  | .endOp p =>
    if s.phase p = .inOp then
      some do
        let (doCommit, l) ← endOp s.log
        return { s with
          log := l
          phase := if doCommit then update s.phase p .closing
            else update (wakeup s.phase) p .idle }
    else none
  | .commit p =>
    if s.phase p = .closing then
      some do
        let (lh, dev) ← (commit s.log.start s.log.lh).run s.dev
        return ⟨{ s.log with lh := lh }, update s.phase p .committed, dev⟩
    else none
  | .clear p =>
    if s.phase p = .committed then
      some (.ok { s with
        log := { s.log with committing := false }
        phase := update (wakeup s.phase) p .idle })
    else none
  | .wake p =>
    if s.phase p = .asleep then
      some (.ok { s with phase := update s.phase p .woken })
    else none

/-- A step after which the machine goes on. -/
def Step (s : Sys ι) (op : Op ι) (s' : Sys ι) : Prop := step s op = some (.ok s')

/-- The system after `initlog`: a log of `size` blocks from `start`.  `log.lh.block` still has the
block numbers that `read_head` read. -/
def initial (start size : Nat) (block : Fin LOGSIZE → UInt32) (d : Nat → Block) : Sys ι :=
  ⟨⟨start, size, 0, false, ⟨0, block⟩⟩, fun _ => .idle, .boot d⟩

/-! ### What a step does -/

/-- The ways a step can go. -/
inductive StepKind (s : Sys ι) : Op ι → Sys ι → Prop where
  | sleep {p : ι} (hp : s.phase p = .idle ∨ s.phase p = .woken) (h : beginOp s.log = none) :
      StepKind s (.beginOp p) { s with phase := update s.phase p .asleep }
  | enter {p : ι} {l : LogState} (hp : s.phase p = .idle ∨ s.phase p = .woken)
      (h : beginOp s.log = some l) :
      StepKind s (.beginOp p) { s with log := l, phase := update s.phase p .inOp }
  | check {p : ι} {b : UInt32} {v : Block} (hp : s.phase p = .inOp) (h : logCheck s.log = .ok ()) :
      StepKind s (.logWrite p b v) { s with
          phase := update s.phase p (.writing b)
          dev := { s.dev with cache := update s.dev.cache b.toNat (some v) } }
  | store {p : ι} {b : UInt32} {lh : LogHeader} (hp : s.phase p = .writing b)
      (h : s.log.lh.add b = .ok lh) :
      StepKind s (.logStore p)
        { s with log := { s.log with lh := lh }, phase := update s.phase p .inOp }
  | last {p : ι} {l : LogState} (hp : s.phase p = .inOp) (h : endOp s.log = .ok (true, l)) :
      StepKind s (.endOp p) { s with log := l, phase := update s.phase p .closing }
  | notLast {p : ι} {l : LogState} (hp : s.phase p = .inOp) (h : endOp s.log = .ok (false, l)) :
      StepKind s (.endOp p) { s with log := l, phase := update (wakeup s.phase) p .idle }
  | commit {p : ι} {lh : LogHeader} {dev : Dev Nat Block} (hp : s.phase p = .closing)
      (h : (commit s.log.start s.log.lh).run s.dev = .ok (lh, dev)) :
      StepKind s (.commit p) ⟨{ s.log with lh := lh }, update s.phase p .committed, dev⟩
  | clear {p : ι} (hp : s.phase p = .committed) :
      StepKind s (.clear p) { s with
          log := { s.log with committing := false }
          phase := update (wakeup s.phase) p .idle }
  | wake {p : ι} (hp : s.phase p = .asleep) :
      StepKind s (.wake p) { s with phase := update s.phase p .woken }

/-- **Inversion of a step.** -/
theorem step_kind {s s' : Sys ι} {op : Op ι} (h : Step s op s') : StepKind s op s' := by
  cases op with
  | beginOp p =>
    obtain ⟨hp, h⟩ := ite_none_right_eq_some.mp h
    cases hb : beginOp s.log with
    | none => rw [hb] at h; cases h; exact .sleep hp hb
    | some l => rw [hb] at h; cases h; exact .enter hp hb
  | logWrite p b v =>
    obtain ⟨hp, h⟩ := ite_none_right_eq_some.mp h
    obtain ⟨⟨⟩, hc, h⟩ := of_bind (some.inj h)
    cases h
    exact .check hp hc
  | logStore p =>
    cases hp : s.phase p with
    | writing b =>
      simp only [Step, step, hp] at h
      obtain ⟨lh, hl, h⟩ := of_bind (some.inj h)
      cases h
      exact .store hp hl
    | _ => simp [Step, step, hp] at h
  | endOp p =>
    obtain ⟨hp, h⟩ := ite_none_right_eq_some.mp h
    obtain ⟨⟨doCommit, l⟩, he, h⟩ := of_bind (some.inj h)
    cases h
    cases doCommit with
    | true => exact .last hp he
    | false => exact .notLast hp he
  | commit p =>
    obtain ⟨hp, h⟩ := ite_none_right_eq_some.mp h
    obtain ⟨⟨lh, dev⟩, he, h⟩ := of_bind (some.inj h)
    cases h
    exact .commit hp he
  | clear p =>
    obtain ⟨hp, h⟩ := ite_none_right_eq_some.mp h
    cases h
    exact .clear hp
  | wake p =>
    obtain ⟨hp, h⟩ := ite_none_right_eq_some.mp h
    cases h
    exact .wake hp

omit [DecidableEq ι] in
@[simp] theorem inside_wakeup (phase : ι → Phase) (q : ι) :
    (wakeup phase q).inside = (phase q).inside := by
  unfold wakeup
  split
  · next h => rw [h]; rfl
  · rfl

omit [DecidableEq ι] in
@[simp] theorem commits_wakeup (phase : ι → Phase) (q : ι) :
    (wakeup phase q).commits = (phase q).commits := by
  unfold wakeup
  split
  · next h => rw [h]; rfl
  · rfl

end Log

end Xv6
