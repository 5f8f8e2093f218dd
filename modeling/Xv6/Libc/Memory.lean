import Mathlib.Logic.Function.Basic
import Mathlib.Tactic.IntervalCases

/-!
# Libc — Memory

`memset` and `memmove` of `string.c`, `memmove` of `ulib.c`, and the string instructions of `x86.h`,
on a memory of bytes with addresses of 32 bits.

* `memset_eq`: `memset` writes the low byte of its argument to every byte of its range and to no
  other, whether it stores words or bytes.
* `memmove_agree`: the two versions of `memmove` leave the same memory if and only if the
  destination does not start inside the source, or the source repeats itself there.
-/

namespace Xv6.Libc

open Function

abbrev Addr := BitVec 32

abbrev Ram := Addr → BitVec 8

variable {m : Ram} {dst src a d s : Addr} {n : Nat}

/-! ### memset -/

/-- `rep stosb`. -/
def stosb (m : Ram) (addr : Addr) (data : BitVec 32) : Nat → Ram
  | 0 => m
  | cnt + 1 => stosb (update m addr (data.setWidth 8)) (addr + 1) data cnt

/-- Byte `k` of a word. -/
def byte (w : BitVec 32) (k : Nat) : BitVec 8 := (w >>> (8 * k)).setWidth 8

/-- A store of the word `w`, its low byte first. -/
def storeWord (m : Ram) (a : Addr) (w : BitVec 32) : Ram :=
  update (update (update (update m a (byte w 0)) (a + 1) (byte w 1)) (a + 2) (byte w 2))
    (a + 3) (byte w 3)

/-- `rep stosl`. -/
def stosl (m : Ram) (addr : Addr) (data : BitVec 32) : Nat → Ram
  | 0 => m
  | cnt + 1 => stosl (storeWord m addr data) (addr + 4) data cnt

/-- `(c<<24)|(c<<16)|(c<<8)|c`, after `c &= 0xFF`. -/
def fill (c : BitVec 32) : BitVec 32 :=
  let c := c &&& 0xFF
  (c <<< 24) ||| (c <<< 16) ||| (c <<< 8) ||| c

/-- `memset`. -/
def memset (m : Ram) (dst : Addr) (c n : BitVec 32) : Ram :=
  if dst.toInt.tmod 4 = 0 ∧ n.toNat % 4 = 0 then stosl m dst (fill c) (n.toNat / 4)
  else stosb m dst c n.toNat

theorem byte_fill (c : BitVec 32) {k : Nat} (hk : k < 4) : byte (fill c) k = c.setWidth 8 := by
  ext i hi
  interval_cases k <;> interval_cases i <;> simp [byte, fill]

theorem stosl_fill (c : BitVec 32) (n : Nat) : stosl m a (fill c) n = stosb m a c (4 * n) := by
  induction n generalizing m a with
  | zero => rfl
  | succ n ih =>
    have hw : storeWord m a (fill c) = stosb m a c 4 := by
      simp [storeWord, stosb, byte_fill, BitVec.add_assoc]
    rw [stosl, ih, hw, Nat.mul_succ]
    simp [stosb, BitVec.add_assoc]

/-- The range `stosb` writes may wrap around. -/
theorem stosb_apply (c : BitVec 32) (hn : n ≤ 2 ^ 32) :
    stosb m d c n a = if (a - d).toNat < n then c.setWidth 8 else m a := by
  induction n generalizing m d with
  | zero => simp [stosb]
  | succ n ih =>
    rw [stosb, ih (by omega)]
    by_cases e : a = d
    · subst e
      simp
    · have hsub : (a - (d + 1)).toNat + 1 = (a - d).toNat := by bv_omega
      rw [update_of_ne e, ← hsub]
      simp

/-- **`memset`**: words and bytes leave the same memory, in which the range holds the low byte of `c`
and the rest is as before. -/
theorem memset_eq (m : Ram) (dst : Addr) (c n : BitVec 32) :
    (∀ k, stosl m dst (fill c) k = stosb m dst c (4 * k)) ∧
    ∀ a, memset m dst c n a = if (a - dst).toNat < n.toNat then c.setWidth 8 else m a := by
  refine ⟨stosl_fill c, fun a => ?_⟩
  unfold memset
  split
  · next h =>
    have hn : 4 * (n.toNat / 4) = n.toNat := Nat.mul_div_cancel' (Nat.dvd_of_mod_eq_zero h.2)
    rw [stosl_fill, hn, stosb_apply c n.isLt.le]
  · exact stosb_apply c n.isLt.le

/-! ### memmove -/

/-- `while(n-- > 0) *d++ = *s++;` -/
def copyUp (m : Ram) (d s : Addr) : Nat → Ram
  | 0 => m
  | n + 1 => copyUp (update m d (m s)) (d + 1) (s + 1) n

/-- `while(n-- > 0) *--d = *--s;` -/
def copyDown (m : Ram) (d s : Addr) : Nat → Ram
  | 0 => m
  | n + 1 => copyDown (update m (d - 1) (m (s - 1))) (d - 1) (s - 1) n

/-- `memmove` of the kernel. -/
def memmove (m : Ram) (dst src : Addr) (n : BitVec 32) : Ram :=
  if src < dst ∧ dst < src + n then copyDown m (dst + n) (src + n) n.toNat
  else copyUp m dst src n.toNat

/-- `memmove` of the user library, whose `n` is an `int`. -/
def ulibMemmove (m : Ram) (dst src : Addr) (n : BitVec 32) : Ram :=
  copyUp m dst src n.toInt.toNat

/-- The bytes of the source, at the destination. -/
def moved (m : Ram) (dst src : Addr) (n : Nat) : Ram := fun a =>
  if (a - dst).toNat < n then m (src + (a - dst)) else m a

theorem copyUp_succ (m : Ram) (d s : Addr) (n : Nat) : copyUp m d s (n + 1) =
    update (copyUp m d s n) (d + BitVec.ofNat 32 n) (copyUp m d s n (s + BitVec.ofNat 32 n)) := by
  induction n generalizing m d s with
  | zero => simp [copyUp]
  | succ n ih =>
    have hadd : ∀ x : Addr, x + 1 + BitVec.ofNat 32 n = x + BitVec.ofNat 32 (n + 1) := fun x => by
      bv_omega
    rw [copyUp, ih, hadd, hadd]
    rfl

/-- One more byte of the source has arrived. -/
theorem moved_succ (hn : n < 2 ^ 32) : moved m dst src (n + 1) =
    update (moved m dst src n) (dst + BitVec.ofNat 32 n) (m (src + BitVec.ofNat 32 n)) := by
  funext a
  by_cases e : a = dst + BitVec.ofNat 32 n
  · subst e
    have hsub : dst + BitVec.ofNat 32 n - dst = BitVec.ofNat 32 n := by bv_omega
    rw [update_self, moved, if_pos (by bv_omega), hsub]
  · have hne : (a - dst).toNat ≠ n := by bv_omega
    rw [update_of_ne e]
    simp only [moved, Nat.lt_succ_iff, le_iff_lt_or_eq, hne, or_false]

/-- Copying upwards, when each byte is read as it was, or has been overwritten by the same. -/
theorem copyUp_eq (hn : n ≤ 2 ^ 32) (h : ∀ i < n, moved m dst src i (src + BitVec.ofNat 32 i) =
    m (src + BitVec.ofNat 32 i)) : copyUp m dst src n = moved m dst src n := by
  induction n with
  | zero => funext a; simp [copyUp, moved]
  | succ n ih =>
    rw [copyUp_succ, ih (by omega) fun i hi => h i (by omega), h n (by omega), moved_succ (by omega)]

/-- Copying upwards into the source repeats its start. -/
theorem copyUp_repeats (hd : d = s + a) (ha : 0 < a.toNat) (hn : n ≤ 2 ^ 32) (i : BitVec 32)
    (hi : i.toNat + a.toNat < n) : copyUp m d s n (d + i + a) = copyUp m d s n (d + i) := by
  induction n with
  | zero => omega
  | succ n ih =>
    have hne : d + i ≠ d + BitVec.ofNat 32 n := by bv_omega
    rw [copyUp_succ, update_of_ne hne]
    by_cases e : i.toNat + a.toNat = n
    · have hlast : d + i + a = d + BitVec.ofNat 32 n := by bv_omega
      have hread : s + BitVec.ofNat 32 n = d + i := by subst hd; bv_omega
      rw [hlast, update_self, hread]
    · have hne' : d + i + a ≠ d + BitVec.ofNat 32 n := by bv_omega
      rw [update_of_ne hne', ih (by omega) (by omega)]

theorem copyDown_eq (hs : src < dst) (hd : dst.toNat + n < 2 ^ 32) :
    copyDown m (dst + BitVec.ofNat 32 n) (src + BitVec.ofNat 32 n) n = moved m dst src n := by
  induction n generalizing m with
  | zero => funext a; simp [copyDown, moved]
  | succ n ih =>
    have hsub : ∀ x : Addr, x + BitVec.ofNat 32 (n + 1) - 1 = x + BitVec.ofNat 32 n := fun x => by
      bv_omega
    rw [copyDown, hsub, hsub, ih (by omega), moved_succ (by omega)]
    funext a
    by_cases e : a = dst + BitVec.ofNat 32 n
    · subst e
      have hge : ¬ (dst + BitVec.ofNat 32 n - dst).toNat < n := by bv_omega
      rw [moved, if_neg hge, update_self, update_self]
    rw [update_of_ne e]
    unfold moved
    split
    · next hlt =>
      have hne : src + (a - dst) ≠ dst + BitVec.ofNat 32 n := by bv_omega
      rw [update_of_ne hne]
    · rw [update_of_ne e]

/-- **The two versions of `memmove`.** -/
theorem memmove_agree (m : Ram) (dst src : Addr) (n : BitVec 32) (hn : 0 ≤ n.toInt)
    (hs : src.toNat + n.toNat < 2 ^ 32) (hd : dst.toNat + n.toNat < 2 ^ 32) :
    memmove m dst src n = moved m dst src n.toNat ∧
    (ulibMemmove m dst src n = memmove m dst src n ↔ (src < dst → ∀ i : BitVec 32,
      i.toNat + (dst - src).toNat < n.toNat → m (src + i + (dst - src)) = m (src + i))) := by
  have hint : n.toInt.toNat = n.toNat := by
    rw [BitVec.toInt_eq_toNat_cond] at hn ⊢
    omega
  have hup : (∀ i < n.toNat, moved m dst src i (src + BitVec.ofNat 32 i) =
      m (src + BitVec.ofNat 32 i)) → copyUp m dst src n.toNat = moved m dst src n.toNat :=
    copyUp_eq n.isLt.le
  have hker : memmove m dst src n = moved m dst src n.toNat := by
    unfold memmove
    split
    · next h =>
      have hdown := copyDown_eq (m := m) h.1 hd
      rw [BitVec.ofNat_toNat, BitVec.setWidth_eq] at hdown
      exact hdown
    · next h =>
      refine hup fun i hi => if_neg fun hlt => h ?_
      constructor <;> bv_omega
  refine ⟨hker, ?_⟩
  rw [hker, ulibMemmove, hint]
  constructor
  · intro h hlt i hi
    have hrep := copyUp_repeats (m := m) (d := dst) (s := src) (a := dst - src)
      (by bv_omega) (by bv_omega) n.isLt.le i hi
    have h₁ : (dst + i + (dst - src) - dst) = i + (dst - src) := by bv_omega
    have h₂ : dst + i - dst = i := by bv_omega
    rw [h, moved, moved, h₁, h₂, if_pos (by bv_omega), if_pos (by omega)] at hrep
    rw [BitVec.add_assoc]
    exact hrep
  · refine fun h => hup fun i hi => ?_
    unfold moved
    split
    · next hlt =>
      have hsd : src < dst := by bv_omega
      have hrep := h hsd (src + BitVec.ofNat 32 i - dst) (by bv_omega)
      rw [← hrep]
      congr 1
      bv_omega
    · rfl

/-- The bytes at 1 and 2 are moved to 0 and 1. -/
theorem memmove_agree_down :
    ulibMemmove (BitVec.setWidth 8) 0 1 2 = memmove (BitVec.setWidth 8) 0 1 2 :=
  (memmove_agree _ 0 1 2 (by decide) (by decide) (by decide)).2.mpr fun h => absurd h (by decide)

/-- **The user library overwrites what it has not read**, when the bytes at 0 and 1 are moved to 1
and 2. -/
theorem ulibMemmove_overwrites :
    ulibMemmove (BitVec.setWidth 8) 1 0 2 ≠ memmove (BitVec.setWidth 8) 1 0 2 := by
  intro h
  have h₂ := congrFun h 2
  revert h₂
  decide

end Xv6.Libc
