import Xv6.Lib.Guard
import Xv6.Container.CString
import Mathlib.Data.UInt

/-!
# Syscall — Fetch

`fetchint`, `fetchstr`, `argint`, `argptr` and `argstr` of `syscall.c`, and the functions of
`string.c` on a string in user memory.  User memory is a memory of bytes with the size of the
process as its limit: a byte that the kernel reads or writes at or past it ends the call in a trap,
and so does a sum of a range check that wraps in 32 bits.  The address of an argument word,
`esp + 4 + 4 * n`, is no range check: it is taken modulo 2³².

For a process of at most `KERNBASE` bytes the fetch helpers never trap, and `wp_argint`, `wp_argptr`
and `wp_argstr` say what they give.
-/

namespace Xv6

open Lib List Option

/-- Kernel code over the memory of the calling process. -/
abbrev User := Guard UInt8 Stop

/-- The contents of user memory. -/
abbrev Umem := Nat → UInt8

/-- The number with the given bytes, the lowest first. -/
def leWord (bs : List UInt8) : Nat := bs.foldr (fun b w => b.toNat + 256 * w) 0

/-- The `k` lowest bytes of a number. -/
def leBytes : Nat → Nat → List UInt8
  | 0, _ => []
  | k + 1, w => UInt8.ofNat w :: leBytes k (w / 256)

/-- A word as an `int`. -/
def asInt (w : Nat) : Int := if w < 2147483648 then w else (w : Int) - UINT

/-- The size of the calling process and its saved stack pointer. -/
structure Caller where
  sz : Nat
  esp : Nat

namespace Caller

variable (c : Caller)

/-- `fetchint(addr, ip)`. -/
def fetchint (addr : Nat) : User (Option Nat) := do
  if addr ≥ c.sz then return none
  let e ← sum UINT addr 4
  if e > c.sz then return none
  let bs ← loadAll c.sz addr 4
  return some (leWord bs)

/-- `fetchstr(addr, pp)`: the string at `addr`. -/
def fetchstr (addr : Nat) : User (Option Str) := do
  if addr ≥ c.sz then return none
  scanBelow c.sz (c.sz - addr) addr

/-- `argint(n, ip)`. -/
def argint (n : Nat) : User (Option Nat) := c.fetchint ((c.esp + 4 + 4 * n) % UINT)

/-- `argptr(n, pp, size)`. -/
def argptr (n : Nat) (size : Int) : User (Option Nat) := do
  let some i ← c.argint n | return none
  if size < 0 then return none
  if i ≥ c.sz then return none
  let e ← sum UINT i size.toNat
  if e > c.sz then return none
  return some i

/-- `argstr(n, pp)`: the address of the string. -/
def argstr (n : Nat) : User (Option Nat) := do
  let some addr ← c.argint n | return none
  let some _ ← c.fetchstr addr | return none
  return some addr

/-! ### What they give -/

/-- The word at `addr`, if it lies in the process. -/
def word? (m : Umem) (addr : Nat) : Option Nat :=
  if addr + 4 ≤ c.sz then some (leWord ((List.range' addr 4).map m)) else none

/-- Argument word `n`. -/
def arg? (m : Umem) (n : Nat) : Option Nat := c.word? m ((c.esp + 4 + 4 * n) % UINT)

/-- The string at `addr`, if its NUL lies in the process. -/
def str? (m : Umem) (addr : Nat) : Option Str := scan? m (c.sz - addr) addr

/-- Argument `n` as a pointer to `size` bytes of the process, of which it lies in one. -/
def ptrArg? (m : Umem) (n : Nat) (size : Int) : Option Nat :=
  (c.arg? m n).filter fun i => 0 ≤ size ∧ i < c.sz ∧ i + size.toNat ≤ c.sz

/-- Argument `n` as a pointer to a string. -/
def strArg? (m : Umem) (n : Nat) : Option Nat :=
  (c.arg? m n).filter fun a => (c.str? m a).isSome

variable {c} {m : Umem} {addr n : Nat} {Q : Option Nat → Umem → Prop} {size : Int}

theorem wp_fetchint (hsz : c.sz ≤ KERNBASE) : wp (c.fetchint addr) Q m ↔ Q (c.word? m addr) m := by
  have hU : KERNBASE + 4 ≤ UINT := by decide
  unfold fetchint word?
  by_cases h : addr ≥ c.sz
  · rw [if_pos h, if_neg (by omega)]
    exact wp_pure _
  rw [if_neg h, wp_bind, wp_sum]
  by_cases h' : addr + 4 > c.sz
  · rw [if_pos h', if_neg (by omega)]
    exact ⟨fun hq => hq.2, fun hq => ⟨by omega, hq⟩⟩
  · rw [if_neg h', if_pos (by omega), wp_bind, wp_loadAll]
    simp only [wp_pure]
    exact ⟨fun hq => hq.2.2, fun hq => ⟨by omega, fun i _ _ => by omega, hq⟩⟩

theorem wp_fetchstr {Q : Option Str → Umem → Prop} :
    wp (c.fetchstr addr) Q m ↔ Q (c.str? m addr) m := by
  unfold fetchstr str?
  by_cases h : addr ≥ c.sz
  · rw [if_pos h, show c.sz - addr = 0 by omega, scan?]
    exact wp_pure _
  · rw [if_neg h]
    exact wp_scanBelow fun i _ _ => by omega

theorem wp_argint (hsz : c.sz ≤ KERNBASE) :
    wp (c.argint n) Q m ↔ Q (c.arg? m n) m := wp_fetchint hsz

theorem wp_argptr (hsz : c.sz ≤ KERNBASE) (hs : size ≤ INT_MAX) :
    wp (c.argptr n size) Q m ↔ Q (c.ptrArg? m n size) m := by
  have hU : (KERNBASE : Int) + INT_MAX < (UINT : Int) := by decide
  unfold argptr ptrArg?
  rw [wp_bind, wp_argint hsz]
  cases c.arg? m n with
  | none => exact wp_pure _
  | some i =>
    dsimp only
    by_cases h₀ : size < 0
    · rw [if_pos h₀, filter_some, if_neg (by simp; omega)]
      exact wp_pure _
    rw [if_neg h₀]
    by_cases h₁ : i ≥ c.sz
    · rw [if_pos h₁, filter_some, if_neg (by simp; omega)]
      exact wp_pure _
    rw [if_neg h₁, wp_bind, wp_sum]
    by_cases h₂ : i + size.toNat > c.sz
    · rw [if_pos h₂, filter_some, if_neg (by simp; omega)]
      exact ⟨fun hq => hq.2, fun hq => ⟨by omega, hq⟩⟩
    · rw [if_neg h₂, filter_some, if_pos (by simp; omega)]
      exact ⟨fun hq => hq.2, fun hq => ⟨by omega, hq⟩⟩

theorem wp_argstr (hsz : c.sz ≤ KERNBASE) : wp (c.argstr n) Q m ↔ Q (c.strArg? m n) m := by
  unfold argstr strArg?
  rw [wp_bind, wp_argint hsz]
  cases c.arg? m n with
  | none => exact wp_pure _
  | some addr =>
    dsimp only
    rw [wp_bind, wp_fetchstr, filter_some]
    cases c.str? m addr with
    | none => exact wp_pure _
    | some s => exact wp_pure _

theorem ptrArg?_eq_some {i : Nat} (h : c.ptrArg? m n size = some i) :
    c.arg? m n = some i ∧ 0 ≤ size ∧ i < c.sz ∧ i + size.toNat ≤ c.sz := by
  obtain ⟨ha, hp⟩ := filter_eq_some_iff.mp h
  exact ⟨ha, by simpa using hp⟩

theorem strArg?_eq_some {a : Nat} (h : c.strArg? m n = some a) : ∃ s, c.str? m a = some s := by
  obtain ⟨-, hp⟩ := filter_eq_some_iff.mp h
  exact isSome_iff_exists.mp hp

/-- A string with its NUL lies in the process. -/
theorem str?_lt {a : Nat} {s : Str} (h : c.str? m a = some s) : a + s.length < c.sz := by
  obtain ⟨hl, -, -⟩ := scan?_eq_some.mp h
  omega

end Caller

/-! ### Strings in user memory -/

/-- `strlen(s)`. -/
def strlenIn (lim a : Nat) : User Nat := do
  let s ← scan lim a
  return s.length

/-- `strncpy` from the user address `a` into a buffer of the kernel: the bytes before a NUL. -/
def strncpyIn (lim : Nat) : Nat → Nat → User CStr
  | _, 0 => return []
  | a, n + 1 => do
    let c ← load lim a
    if c = 0 then return []
    let s ← strncpyIn lim (a + 1) n
    return c :: s

/-- `strncmp` of the string at the user address `a` and the string `q` of the kernel. -/
def strncmpIn (lim : Nat) : Nat → CStr → Nat → User Int
  | _, _, 0 => return 0
  | a, q, n + 1 => do
    let c ← load lim a
    if c ≠ 0 ∧ c = q.headD 0 then strncmpIn lim (a + 1) q.tail n
    else return (c.toNat : Int) - (q.headD 0).toNat

/-- `strcpy` of a string of the kernel to the user address `a`, and the copying loops of `getname`
and `getpath`. -/
def strcpyOut (lim a : Nat) (s : Str) : User Unit := storeAll lim a (s.map (·.1) ++ [0])

variable {lim a n : Nat} {m : Umem} {s : Str}

theorem wp_strlenIn {Q : Nat → Umem → Prop} :
    wp (strlenIn lim a) Q m ↔ ∃ s, scan? m (lim - a) a = some s ∧ Q s.length m := by
  rw [strlenIn, wp_bind, wp_scan]
  exact Iff.rfl

theorem strlenIn_eq_ok (h : scan? m (lim - a) a = some s) :
    strlenIn lim a m = .ok (s.length, m) := by
  unfold strlenIn
  change ((scan lim a : User Str) m >>= _) = _
  rw [scan_eq_ok h]
  rfl

theorem reads_strncpyIn : ∀ {a : Nat}, (n = 0 ∨ a + n ≤ lim) → Reads (strncpyIn lim a n) m := by
  induction n with
  | zero => exact fun _ => .ret
  | succ n ih =>
    intro a hn
    exact .bind (.load (by omega)) fun _ => .ite (fun _ => .ret) fun _ =>
      .bind (ih (by omega)) fun _ => .ret

theorem reads_strncmpIn : ∀ {a : Nat} {q : CStr}, (n = 0 ∨ a + n ≤ lim) →
    Reads (strncmpIn lim a q n) m := by
  induction n with
  | zero => exact fun _ => .ret
  | succ n ih =>
    intro a q hn
    exact .bind (.load (by omega)) fun _ => .ite (fun _ => ih (by omega)) fun _ => .ret

theorem wp_strcpyOut {Q : Unit → Umem → Prop} :
    wp (strcpyOut lim a s) Q m ↔ a + s.length < lim ∧ Q () (put m a (s.map (·.1) ++ [0])) := by
  rw [strcpyOut, wp_storeAll]
  simp only [length_append, length_map, length_singleton]
  constructor
  · rintro ⟨h, hQ⟩
    exact ⟨h (a + s.length) (by omega) (by omega), hQ⟩
  · rintro ⟨h, hQ⟩
    exact ⟨fun i _ _ => by omega, hQ⟩

/-- The string that `strcpy` has written. -/
theorem scan?_put (h : a + s.length < lim) :
    scan? (put m a (s.map (·.1) ++ [0])) (lim - a) a = some s := by
  refine scan?_eq_some.mpr ⟨by omega, ?_, ?_⟩
  · exact put_of_getElem? (by simp)
  · refine ext_getElem? fun i => ?_
    rcases Nat.lt_or_ge i s.length with hi | hi
    · rw [getElem?_map, getElem?_range' hi, map_some, getElem?_map,
        getElem?_eq_getElem hi, map_some, Nat.one_mul]
      refine congrArg some (put_of_getElem? ?_)
      rw [getElem?_append_left (by simpa using hi), getElem?_map, getElem?_eq_getElem hi, map_some]
    · rw [getElem?_eq_none (by simpa using hi), getElem?_eq_none (by simpa using hi)]

end Xv6
