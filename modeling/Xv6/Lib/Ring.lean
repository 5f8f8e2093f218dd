import Mathlib.Algebra.GroupWithZero.Nat
import Mathlib.Data.Fin.Basic
import Mathlib.Logic.Function.Basic

/-!
# Lib — Ring

A ring of `N` cells, addressed by counters that only grow: counter `i` addresses cell `i % N`.
`window d r n` is what the `n` cells from counter `r` on hold.

* `window_put`: writing the cell after a window that is not the whole ring extends the window.
* `window_mod`: counters may wrap at any multiple of `N`.
-/

namespace Xv6.Lib.Ring

open Function

variable {α : Type*} {N M k n : Nat} [NeZero N]

/-- The cell that counter `i` addresses. -/
def cell (N : Nat) [NeZero N] (i : Nat) : Fin N := Fin.ofNat N i

theorem cell_mod (hM : N ∣ M) (i : Nat) : cell N (i % M) = cell N i :=
  Fin.ext (Nat.mod_mod_of_dvd i hM)

/-- Counters less than `N` apart address different cells. -/
theorem cell_add_ne (h₀ : 0 < k) (h : k < N) (i : Nat) : cell N (i + k) ≠ cell N i := by
  intro he
  have hmod : (i + k) % N = i % N := congrArg Fin.val he
  have hdvd : N ∣ i + k - i := Nat.dvd_of_mod_eq_zero (Nat.sub_mod_eq_zero_of_mod_eq hmod)
  rw [Nat.add_sub_cancel_left] at hdvd
  exact absurd (Nat.le_of_dvd h₀ hdvd) (Nat.not_le.mpr h)

/-- The contents of the `n` cells from counter `r` on. -/
def window (d : Fin N → α) (r : Nat) : Nat → List α
  | 0 => []
  | n + 1 => d (cell N r) :: window d (r + 1) n

@[simp] theorem length_window (d : Fin N → α) (r n : Nat) : (window d r n).length = n := by
  induction n generalizing r with
  | zero => rfl
  | succ n ih => simp [window, ih]

theorem window_mod (hM : N ∣ M) (d : Fin N → α) (r n : Nat) :
    window d (r % M) n = window d r n := by
  induction n generalizing r with
  | zero => rfl
  | succ n ih =>
    -- `r % M + 1` and `r + 1` are the same counter up to a multiple of `M`
    have hs : window d (r % M + 1) n = window d (r + 1) n := by
      rw [← ih (r % M + 1), ← ih (r + 1), Nat.mod_add_mod]
    rw [window, window, cell_mod hM, hs]

theorem window_succ (d : Fin N → α) (r n : Nat) :
    window d r (n + 1) = window d r n ++ [d (cell N (r + n))] := by
  induction n generalizing r with
  | zero => rfl
  | succ n ih =>
    have hi : r + 1 + n = r + (n + 1) := by omega
    rw [window, ih (r + 1), window, List.cons_append, hi]

theorem window_add (d : Fin N → α) (r m n : Nat) :
    window d r (m + n) = window d r m ++ window d (r + m) n := by
  induction n with
  | zero => rw [Nat.add_zero, window, List.append_nil]
  | succ n ih => rw [← Nat.add_assoc, window_succ, ih, window_succ, List.append_assoc, Nat.add_assoc]

/-- A cell outside the window. -/
theorem window_update (hn : n ≤ k) (hk : k < N) (d : Fin N → α) (r : Nat) (x : α) :
    window (update d (cell N (r + k)) x) r n = window d r n := by
  induction n generalizing r k with
  | zero => rfl
  | succ n ih =>
    have hne : cell N r ≠ cell N (r + k) := (cell_add_ne (by omega) hk r).symm
    obtain ⟨j, rfl⟩ : ∃ j, k = j + 1 := ⟨k - 1, by omega⟩
    have hs := ih (k := j) (by omega) (by omega) (r + 1)
    have hi : r + 1 + j = r + (j + 1) := by omega
    rw [hi] at hs
    rw [window, window, update_of_ne hne, hs]

/-- The cell next to a window that is not full. -/
theorem window_put (hn : n < N) (d : Fin N → α) (r : Nat) (x : α) :
    window (update d (cell N (r + n)) x) r (n + 1) = window d r n ++ [x] := by
  rw [window_succ, window_update (Nat.le_refl n) hn, update_self]

end Xv6.Lib.Ring
