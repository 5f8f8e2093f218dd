import Mathlib.Data.Finset.Dedup
import Xv6.Log.Group

/-!
# Log — Space

The space that `begin_op` reserves.  It admits an operation when `MAXOPBLOCKS` entries of the header
are left for it and for each operation that goes on, out of `LOGSIZE`.  But `log_write` accepts a
block only while fewer than `log.size - 1` blocks are in the header, and it makes that check before
it looks whether the block is there already.  With the `LOGSIZE` blocks that `mkfs` gives the log,
the panic comes with the thirtieth block (`reservation_too_small`), and at any other time exactly
when more than `LOGSIZE - 2` distinct blocks have been logged since the last commit
(`tooBig_iff`).
-/

namespace Xv6.Log

open Lib

variable {ι : Type} [DecidableEq ι] {s : Sys ι} {op : Op ι}

/-- The blocks passed to `log_write` since the last commit. -/
def logged (t : List (Sys ι × Op ι)) : Finset UInt32 := (history t).since.toFinset

omit [DecidableEq ι] in
theorem HeaderInv.n_eq {c : Hist ι} (h : HeaderInv c s) : s.log.lh.n = c.since.toFinset.card := by
  have hset : s.log.lh.blocks.toFinset = c.since.toFinset := by
    ext b
    rw [List.mem_toFinset, List.mem_toFinset, h.mem]
  rw [← hset, List.toFinset_card_of_nodup h.nodup, LogHeader.length_blocks h.n_le]

theorem logCheck_tooBig {l : LogState} : logCheck l = .error (.panic "too big a transaction") ↔
      (l.lh.n : Int) ≥ LOGSIZE ∨ (l.lh.n : Int) ≥ (l.size : Int) - 1 := by
  unfold logCheck
  split
  · next h => exact ⟨fun _ => h, fun _ => rfl⟩
  next h =>
  refine ⟨fun he => ?_, fun he => absurd he h⟩
  split at he
  · simp at he
  · cases he

theorem logWrite_error {p : ι} {b : UInt32} {v : Block} {e : Stop} (hp : s.phase p = .inOp)
    (h : logCheck s.log = .error e) : step s (.logWrite p b v) = some (.error e) := by
  simp only [step, hp, if_true, h, Res.error_bind]

/-- Nothing changes the place of the log. -/
theorem size_run {s₀ : Sys ι} {t : List (Sys ι × Op ι)} (hr : Run Step s₀ t s) :
    s.log.size = s₀.log.size := by
  refine (hr.inv_all (I := fun s => s.log.size = s₀.log.size) (fun s op s' h hs => ?_) rfl).2
  cases step_kind hs with
  | enter _ hb =>
    obtain ⟨-, -, rfl⟩ := beginOp_eq_some hb
    exact h
  | last _ he | notLast _ he =>
    obtain ⟨-, ⟨-, -, rfl⟩ | ⟨-, rfl⟩⟩ := endOp_eq_ok he
    · exact h
    · exact h
  | _ => exact h

/-- **When the log is too small.**  On the layout of `mkfs`, no step panics with `"too big a
transaction"` iff at every call of `log_write` at most `LOGSIZE - 2` distinct blocks have been
logged since the last commit. -/
theorem tooBig_iff {block : Fin LOGSIZE → UInt32} {d : Nat → Block} {t : List (Sys ι × Op ι)}
    (hr : Run Step (initial 2 LOGSIZE block d) t s) (op : Op ι) :
    step s op ≠ some (.error (.panic "too big a transaction")) ↔
      ∀ p b v, op = .logWrite p b v → s.phase p = .inOp → (logged t).card ≤ LOGSIZE - 2 := by
  have h := headerInv_run hr
  have hn : s.log.lh.n = (logged t).card := h.n_eq
  have hsize : s.log.size = LOGSIZE := size_run hr
  have hL : LOGSIZE = 30 := rfl
  constructor
  · rintro hne p b v rfl hp
    by_contra hgt
    refine hne (logWrite_error hp (logCheck_tooBig.mpr (.inr ?_)))
    rw [hn, hsize]
    omega
  · intro hle he
    rcases step_error h.group he with ⟨-, hc, p, b, v, rfl, hp⟩ | h' | h'
    · have hcard := hle p b v rfl hp
      have hbig := logCheck_tooBig.mp hc
      rw [hn, hsize] at hbig
      omega
    · simp at h'
    · simp at h'

/-- The first `log_write` of an operation is accepted. -/
theorem tooBig_beginOp : ∃ (s : Sys (Fin 2)) (t : _),
    Run Step (initial 2 LOGSIZE (fun _ => 0) fun _ _ => 0) t s ∧ s.phase 0 = .inOp ∧
    step s (.logWrite 0 7 fun _ => 0) ≠ some (.error (.panic "too big a transaction")) := by
  obtain ⟨s, hr, hs⟩ := exists_run (R := Step) (f := next) (fun _ _ _ h => step_of_next h)
    (initial 2 LOGSIZE (fun _ => 0) fun _ _ => 0) [.beginOp (0 : Fin 2)]
    (fun s => s.phase 0 = .inOp) (by decide +kernel)
  exact ⟨s, _, hr, hs, (tooBig_iff hr _).mpr fun _ _ _ _ _ => by decide +kernel⟩

/-- `p` logs `n` blocks from `b` on. -/
def logFrom (p : ι) (b : UInt32) (n : Nat) : List (Op ι) :=
  (List.range n).flatMap fun i => [.logWrite p (b + UInt32.ofNat i) fun _ => 0, .logStore p]

/-- Three operations, of 10, 10 and so far 9 blocks. -/
def threeOps : List (Op (Fin 3)) :=
  [.beginOp 0, .beginOp 1, .beginOp 2] ++ logFrom 0 100 10 ++ logFrom 1 110 10 ++ logFrom 2 120 9

/-- The thirtieth block is refused, though no operation has logged more than `MAXOPBLOCKS`. -/
theorem reservation_too_small : ∃ (s : Sys (Fin 3)) (t : _),
    Run Step (initial 2 LOGSIZE (fun _ => 0) fun _ _ => 0) t s ∧
    (∀ p, ((history t).mine p).toFinset.card ≤ MAXOPBLOCKS) ∧
    (129 :: (history t).mine 2).toFinset.card ≤ MAXOPBLOCKS ∧
    step s (.logWrite 2 129 fun _ => 0) = some (.error (.panic "too big a transaction")) := by
  obtain ⟨s, hr, hp, hn, hsize⟩ := exists_run (R := Step) (f := next)
    (fun _ _ _ h => step_of_next h) (initial 2 LOGSIZE (fun _ => 0) fun _ _ => 0) threeOps
    (fun s => s.phase 2 = .inOp ∧ s.log.lh.n = 29 ∧ s.log.size = 30) (by decide +kernel)
  refine ⟨s, _, hr, by decide +kernel, by decide +kernel, logWrite_error hp ?_⟩
  rw [logCheck_tooBig, hn, hsize]
  decide

end Xv6.Log
