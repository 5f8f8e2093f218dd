import Mathlib.Logic.Function.Basic
import Mathlib.Data.Fintype.Basic
import Mathlib.Algebra.Order.Ring.Nat

/-!
# Kernel — Base

The constants of `param.h`, `mmu.h`, `memlayout.h` and `container.h`, and the outcome of a kernel
function.  A kernel function that can stop the machine returns `Res`: `Stop.panic` is a call of
`panic`, `Stop.fault` a step the C program gives no meaning to (a null pointer, an index out of
range, a signed overflow, a string that overruns its buffer) or a loop that never ends, and
`Stop.doubleFree` a `kfree` of a page that is on the free list, after which that list is no longer
a list.
-/

namespace Xv6

/-- `NPROC`: the process table has 64 slots. -/
def NPROC : Nat := 64
/-- `PRIO_MAX`: the number of buckets of the run queue. -/
def PRIO_MAX : Nat := 10
def MUX_MAXNUM : Nat := 16
def SHM_MAXNUM : Nat := 16
def MAX_NUM_CONTAINERS : Nat := 10
def PGSIZE : Nat := 4096
def NPDENTRIES : Nat := 1024
def NPTENTRIES : Nat := 1024
def KERNBASE : Nat := 0x80000000
def PHYSTOP : Nat := 0xE000000
def DEVSPACE : Nat := 0xFE000000
def MAXARG : Nat := 32

instance : NeZero NPROC := ⟨Nat.succ_ne_zero 63⟩
instance : NeZero PRIO_MAX := ⟨Nat.succ_ne_zero 9⟩
instance : NeZero MUX_MAXNUM := ⟨Nat.succ_ne_zero 15⟩
instance : NeZero SHM_MAXNUM := ⟨Nat.succ_ne_zero 15⟩

/-- A slot of `ptable.proc`; a `struct proc *` is an `Option Slot`. -/
abbrev Slot := Fin NPROC

/-- The name of a mutex or of a shared segment: the bytes before the terminating NUL. -/
abbrev CStr := List UInt8

/-- `2 ^ 32`, the modulus of `uint`. -/
def UINT : Nat := 4294967296

/-- The greatest `int`. -/
def INT_MAX : Int := 2147483647

/-- Why a kernel function does not return. -/
inductive Stop where
  | panic (msg : String)
  | fault (msg : String)
  | doubleFree (page : Nat)
  deriving DecidableEq, Repr

/-- The outcome of a kernel function. -/
abbrev Res (α : Type) := Except Stop α

namespace Res

variable {α β : Type} {x : Res α} {f : α → Res β} {b : β} {e : Stop} {a : α}

theorem bind_eq_ok : (x >>= f) = .ok b ↔ ∃ a, x = .ok a ∧ f a = .ok b := by
  cases x with
  | error e => simp [bind, Except.bind]
  | ok a => simp [bind, Except.bind]

theorem bind_eq_error : (x >>= f) = .error e ↔ x = .error e ∨ ∃ a, x = .ok a ∧ f a = .error e := by
  cases x with
  | error e => simp [bind, Except.bind]
  | ok a => simp [bind, Except.bind]

@[simp] theorem ok_bind : ((.ok a : Res α) >>= f) = f a := rfl

@[simp] theorem pure_eq_ok : (pure a : Res α) = .ok a := rfl

@[simp] theorem error_bind : ((.error e : Res α) >>= f) = .error e := rfl

theorem fst_of_ok {x : α × β} (h : (.ok x : Res (α × β)) = .ok (a, b)) : x.1 = a :=
  congrArg Prod.fst (Except.ok.inj h)

theorem snd_of_ok {x : α × β} (h : (.ok x : Res (α × β)) = .ok (a, b)) : x.2 = b :=
  congrArg Prod.snd (Except.ok.inj h)

theorem toOption_eq_some : x.toOption = some a ↔ x = .ok a := by
  cases x <;> simp [Except.toOption]

/-- Does the function return, with a result that has `P`? -/
def returns (P : α → Bool) : Res α → Bool
  | .ok a => P a
  | .error _ => false

theorem of_returns {P : α → Bool} (h : returns P x = true) : ∃ a, x = .ok a ∧ P a = true := by
  cases x with
  | error e => cases h
  | ok a => exact ⟨a, rfl, h⟩

end Res

/-- A sequence that returns, taken apart. -/
theorem of_bind {α β : Type} {x : Res α} {f : α → Res β} {b : β} (h : (x >>= f) = .ok b) :
    ∃ a, x = .ok a ∧ f a = .ok b := Res.bind_eq_ok.mp h

/-- The 32-bit conversion of an `int` or a difference of addresses to `uint`. -/
def toUint (x : Int) : Nat := (x % (UINT : Int)).toNat

/-- `PGROUNDUP` in 32 bits. -/
def pgroundup (a : Nat) : Nat := ((a + (PGSIZE - 1)) % UINT) / PGSIZE * PGSIZE

end Xv6
