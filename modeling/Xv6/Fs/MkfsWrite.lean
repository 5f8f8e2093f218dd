import Xv6.Fs.Mkfs
import Mathlib.Order.Interval.Finset.Nat

/-!
# Fs — MkfsWrite

`iappend` of `mkfs.c` does what `writei` of `fs.c` does.  `mkfs` takes the blocks one after the other
and zeroes none, because the image is zero; the kernel looks for a clear bit and zeroes the block.
With the bits of the blocks below `freeblock` set, and zeros from there on, both take the same block
(`Shows`).

* `Shows.bmap`, `Shows.writeLoop`: each step of the kernel is one of `mkfs`.
* `Shows.iappend`: `iappend` appends to the bytes of the inode, and takes the blocks for them.
-/

namespace Xv6

open Lib Function List Nat

namespace Disk

variable {bitmap : Nat → Bool}

theorem firstFree_min : ∀ {left b₀ b : Nat}, firstFree bitmap left b₀ = some b →
    ∀ c, b₀ ≤ c → c < b → bitmap c = true
  | 0, _, _, h, _, _, _ => by cases h
  | left + 1, b₀, b, h, c, hlo, hhi => by
    rw [firstFree] at h
    split at h
    · next hb =>
      by_cases e : c = b₀
      · rw [e]; exact hb
      · exact firstFree_min h c (by omega) hhi
    · cases h
      omega

end Disk

namespace Mkfs

open Disk

variable {m m' : Mkfs} {d d' : Disk} {ip ip' : Dinode} {n inum bn a b : Nat}

/-- The disk of the kernel shows what `mkfs` has done so far; its next inode is `n`. -/
structure Shows (n : Nat) (m : Mkfs) (d : Disk) : Prop where
  freeinode : m.freeinode = n
  bitmap : ∀ b, d.bitmap b = decide (b < m.freeblock)
  dinode : ∀ i, i < mkfsSuper.ninodes → d.dinode i = m.rinode i
  data : ∀ b, mkfsSuper.nmeta ≤ b → d.data b = m.img b
  clear : ∀ b, m.freeblock ≤ b → m.img b = Block.zero
  low : mkfsSuper.nmeta ≤ m.freeblock
  high : m.freeblock ≤ mkfsSuper.size
  super : m.img 1 = superBlock

theorem iblock_ne_one (i : Nat) : mkfsSuper.iblock i ≠ 1 := by
  have hstart : 32 ≤ mkfsSuper.iblock i := le_add_left 32 (i / IPB)
  exact ne_of_gt (lt_of_lt_of_le (by decide) hstart)

theorem iblock_lt (h : inum < mkfsSuper.ninodes) : mkfsSuper.iblock inum < mkfsSuper.nmeta :=
  lt_trans (mkfsSuper.inode_blocks inum h) (by decide)

theorem winode_img (h : b ≠ mkfsSuper.iblock inum) : (m.winode inum ip).img b = m.img b :=
  update_of_ne h _ _

namespace Shows

/-- The next block of `mkfs` is the first clear bit. -/
theorem balloc (h : Shows n m d) (hb : d.balloc mkfsSuper = .ok (b, d')) :
    b = m.freeblock ∧ Shows n { m with freeblock := m.freeblock + 1 } d' := by
  have hmin : ∀ c, c < b → d.bitmap c = true := by
    unfold Disk.balloc at hb
    split at hb
    · next hf =>
      cases hb
      exact fun c hc => firstFree_min hf c (zero_le _) hc
    · cases hb
  obtain ⟨hlt, hfree, rfl⟩ := balloc_eq_ok hb
  have hle : m.freeblock ≤ b := by
    rw [h.bitmap] at hfree
    simpa using hfree
  have hge : ¬ m.freeblock < b := fun hlt => by
    have := hmin _ hlt
    rw [h.bitmap] at this
    simp at this
  obtain rfl : b = m.freeblock := by omega
  refine ⟨rfl, ⟨h.freeinode, fun c => ?_, h.dinode, fun c hc => ?_, fun c hc => h.clear c ?_, ?_, hlt,
    h.super⟩⟩
  · show update d.bitmap m.freeblock true c = _
    by_cases e : c = m.freeblock
    · subst e; simp
    · rw [update_of_ne e, h.bitmap, Bool.eq_iff_iff]
      simp only [decide_eq_true_eq]
      omega
  · show update d.data m.freeblock Block.zero c = _
    by_cases e : c = m.freeblock
    · subst e
      rw [update_self]
      exact (h.clear _ (le_refl _)).symm
    · rw [update_of_ne e]
      exact h.data c hc
  · exact le_of_succ_le hc
  · exact le_succ_of_le h.low

/-- A sector that has been taken is written. -/
theorem write (h : Shows n m d) (v : Block) (hlo : mkfsSuper.nmeta ≤ b) (hhi : b < m.freeblock) :
    Shows n (m.wsect b v) (d.write b v) := by
  refine ⟨h.freeinode, h.bitmap, fun i hi => ?_, fun c hc => ?_, fun c hc => ?_, h.low, h.high, ?_⟩
  · have hne : mkfsSuper.iblock i ≠ b := fun e => by
      have := iblock_lt hi
      omega
    rw [rinode_wsect hne]
    exact h.dinode i hi
  · show update d.data b v c = update m.img b v c
    by_cases e : c = b
    · subst e; rw [update_self, update_self]
    · rw [update_of_ne e, update_of_ne e]
      exact h.data c hc
  · have hc : m.freeblock ≤ c := hc
    have e : c ≠ b := by omega
    show update m.img b v c = _
    rw [update_of_ne e]
    exact h.clear c hc
  · have hne : 1 ≠ b := Nat.ne_of_lt (Nat.lt_of_lt_of_le (by decide) hlo)
    exact (update_of_ne hne _ _).trans h.super

theorem addr {k : Fin (NDIRECT + 1)} (h : Shows n m d)
    (ha : d.addr mkfsSuper ip k = .ok (a, ip', d')) :
    ∃ m', m.addr ip k = (a, ip', m') ∧ Shows n m' d' ∧ m.freeblock ≤ m'.freeblock := by
  unfold Disk.addr at ha
  unfold Mkfs.addr
  split at ha
  · next h₀ =>
    obtain ⟨⟨b, d₁⟩, hb, ha⟩ := of_bind ha
    cases ha
    obtain ⟨rfl, hs⟩ := h.balloc hb
    rw [if_pos h₀]
    exact ⟨_, rfl, hs, le_succ _⟩
  · next h₀ =>
    cases ha
    rw [if_neg h₀]
    exact ⟨m, rfl, h, le_refl _⟩

/-- The block that a pointer points to is a data block that has been taken. -/
theorem taken {p : BlockPtr} (h : Shows n m d) (ho : (d.put inum ip).Owned mkfsSuper)
    (hi : (d.put inum ip).Alloc mkfsSuper inum) (hp : (d.put inum ip).ptr inum p ≠ 0) :
    mkfsSuper.nmeta ≤ (d.put inum ip).ptr inum p ∧ (d.put inum ip).ptr inum p < m.freeblock := by
  obtain ⟨hlo, hhi⟩ := ho.range hi hp
  have hbit : d.bitmap ((d.put inum ip).ptr inum p) = true :=
    (ho.used_iff hhi).mpr (.inr ⟨(inum, p), held_of_ptr hi hp⟩)
  rw [h.bitmap] at hbit
  exact ⟨hlo, by simpa using hbit⟩

/-- **`bmap` is the first half of the loop of `iappend`.** -/
theorem bmap (h : Shows n m d) (ho : (d.put inum ip).Owned mkfsSuper) (hi : inum < mkfsSuper.ninodes)
    (ht : ip.type ≠ .free) (hb : d.bmap mkfsSuper ip bn = .ok (a, ip', d')) :
    ∃ m', m.sector ip bn = .ok (a, ip', m') ∧ Shows n m' d' := by
  unfold Disk.bmap at hb
  unfold Mkfs.sector
  split at hb
  · next hbn =>
    obtain ⟨m', hm, hs, -⟩ := h.addr hb
    rw [dif_pos hbn, hm]
    exact ⟨m', rfl, hs⟩
  next hbn =>
  rw [dif_neg hbn]
  split at hb
  · next hj =>
    obtain ⟨⟨b, ip₁, d₁⟩, h₁, hb⟩ := of_bind hb
    obtain ⟨m₁, hm₁, hs₁, -⟩ := h.addr h₁
    -- the indirect block is a data block that has been taken
    have hmem := put_alloc_self (d := d) hi ht
    obtain ⟨hg, hb₁, hb₀, -⟩ := addr_grows ho h₁
    have hptr : (d₁.put inum ip₁).ptr inum .indirect = b := by
      simp only [ptr, put_self]
      exact hb₁
    have htaken := hs₁.taken (hg.owned ho hmem) (hg.alloc.mpr hmem) (p := .indirect)
      (by rw [hptr]; exact hb₀)
    rw [hptr] at htaken
    have hdata : d₁.data b = m₁.img b := hs₁.data b htaken.1
    rw [hm₁]
    dsimp only at hb ⊢
    rw [dif_pos hj]
    rw [hdata] at hb
    split at hb
    · next hz =>
      obtain ⟨⟨c, d₂⟩, hc, hb⟩ := of_bind hb
      cases hb
      obtain ⟨rfl, hs₂⟩ := hs₁.balloc hc
      rw [if_pos (show m₁.rsect b ⟨bn - NDIRECT, hj⟩ = 0 from hz)]
      exact ⟨_, rfl, hs₂.write _ htaken.1 (lt_succ_of_lt htaken.2)⟩
    · next hz =>
      cases hb
      rw [if_neg (show ¬ m₁.rsect b ⟨bn - NDIRECT, hj⟩ = 0 from hz)]
      exact ⟨m₁, rfl, hs₁⟩
  · cases hb

/-- **The loop of `writei` is the loop of `iappend`.** -/
theorem writeLoop {fuel off : Nat} {src : List UInt8} (m : Mkfs) (h : Shows n m d)
    (hi : inum < mkfsSuper.ninodes) (hf : src.length ≤ fuel) (ho : (d.put inum ip).Owned mkfsSuper)
    (ht : ip.type ≠ .free) (hmax : off + src.length ≤ (NDIRECT + NINDIRECT) * BSIZE)
    (hl : d.writeLoop mkfsSuper fuel ip off src = .ok (ip', d')) :
    ∃ m', iappendLoop fuel m ip off src = .ok (m', ip', off + src.length) ∧ Shows n m' d' := by
  revert m hmax
  refine writeLoop_induction hi (fun {fuel off} _ m h _ => ⟨m, ?_, h⟩) ?_ hf ho ht hl
  · cases fuel <;> rfl
  intro fuel d ip off src a ip₁ d₁ n1 d₂ hpos ho ht hb _ _ _ ih m h hmax
  have hoff : off / BSIZE * BSIZE + off % BSIZE = off := div_add_mod' off BSIZE
  -- `mkfs` cuts the bytes at the same place
  have hn1 : (off / BSIZE + 1) * BSIZE - off = BSIZE - off % BSIZE := by
    rw [succ_mul]
    omega
  have hin : off - off / BSIZE * BSIZE = off % BSIZE := by omega
  have hfbn : off / BSIZE < MAXFILE := by
    have hlt : off / BSIZE < NDIRECT + NINDIRECT :=
      Nat.div_lt_of_lt_mul (by rw [Nat.mul_comm]; omega)
    unfold MAXFILE
    omega
  rw [iappendLoop, if_neg (ne_nil_of_length_pos hpos)]
  dsimp only
  rw [if_pos hfbn, hn1, hin]
  obtain ⟨m₁, hm₁, hs₁⟩ := h.bmap ho hi ht hb
  rw [hm₁]
  simp only [Res.ok_bind]
  -- the block is a data block that has been taken
  have hmem := put_alloc_self (d := d) hi ht
  obtain ⟨p, -, -, hg, ha, ha₀, -⟩ := bmap_spec ho hi ht hb
  obtain ⟨hlo, hhi⟩ := hs₁.taken (hg.owned ho hmem) (hg.alloc.mpr hmem) (p := p)
    (by rw [ha]; exact ha₀)
  rw [ha] at hlo hhi
  have hend : off + n1 + (src.drop n1).length = off + src.length := by rw [length_drop]; omega
  obtain ⟨m', hm', hs'⟩ := ih _ (hs₁.write _ hlo hhi) (by rw [hend]; exact hmax)
  refine ⟨m', ?_, hs'⟩
  rw [hs₁.data a hlo, hend] at hm'
  exact hm'

/-- An inode goes to the disk. -/
theorem winode (h : Shows n m d) (hi : inum < mkfsSuper.ninodes) (hp : ip.Packable)
    (hdin : d'.dinode = update d.dinode inum ip) (hdata : d'.data = d.data)
    (hbit : d'.bitmap = d.bitmap) : Shows n (m.winode inum ip) d' := by
  have himg : ∀ b, mkfsSuper.nmeta ≤ b → (m.winode inum ip).img b = m.img b := by
    intro b hb
    exact winode_img (ne_of_gt (lt_of_lt_of_le (iblock_lt hi) hb))
  refine ⟨h.freeinode, fun b => ?_, fun i hi' => ?_, fun b hb => ?_, fun b hb => ?_, h.low,
    h.high, ?_⟩
  · rw [hbit]; exact h.bitmap b
  · rw [hdin, rinode_winode hp]
    by_cases e : i = inum
    · subst e; rw [update_self, if_pos rfl]
    · rw [update_of_ne e, if_neg e]
      exact h.dinode i hi'
  · rw [hdata, himg b hb]; exact h.data b hb
  · rw [himg b (le_trans h.low hb)]; exact h.clear b hb
  · rw [← h.super]
    exact winode_img (iblock_ne_one inum).symm

/-- The blocks that are left. -/
theorem free_eq (h : Shows n m d) : d.free mkfsSuper = mkfsSuper.size - m.freeblock := by
  have hfilter : ((Finset.range mkfsSuper.size).filter fun b => d.bitmap b = false) =
      Finset.Ico m.freeblock mkfsSuper.size := by
    ext b
    rw [Finset.mem_filter, Finset.mem_range, Finset.mem_Ico, h.bitmap]
    simp only [decide_eq_false_iff_not]
    omega
  unfold Disk.free
  rw [hfilter, card_Ico]

end Shows

/-! ### Room -/

/-- The blocks that a file of `n` bytes takes, the indirect block among them. -/
def blocksOf (n : Nat) : Nat := (n + (BSIZE - 1)) / BSIZE + if n > NDIRECT * BSIZE then 1 else 0

theorem blocksOf_mono {a b : Nat} (h : a ≤ b) : blocksOf a ≤ blocksOf b := by
  have hcount : (a + (BSIZE - 1)) / BSIZE ≤ (b + (BSIZE - 1)) / BSIZE :=
    Nat.div_le_div_right (by omega)
  have hindirect : (if a > NDIRECT * BSIZE then 1 else 0) ≤
      if b > NDIRECT * BSIZE then 1 else 0 := by
    split
    · rw [if_pos (by omega)]
    · exact zero_le _
  exact Nat.add_le_add hcount hindirect

section

variable (hc : Consistent mkfsSuper d) (hi : d.Alloc mkfsSuper inum)

include hc hi

/-- The blocks below the size of the file are there. -/
theorem absent_touched (len : Nat) : (touched (d.dinode inum).size len).countP (d.absent inum) +
        ((d.dinode inum).size + (BSIZE - 1)) / BSIZE ≤
      ((d.dinode inum).size + len + (BSIZE - 1)) / BSIZE := by
  set size := (d.dinode inum).size with hsize
  by_cases h₀ : len = 0
  · subst h₀
    simp
  rw [touched, if_neg h₀, range'_succ]
  by_cases hfull : size % BSIZE = 0
  · have hlen := countP_le_length (p := d.absent inum)
      (l := size / BSIZE :: range' (size / BSIZE + 1) ((size + len - 1) / BSIZE - size / BSIZE))
    rw [length_cons, length_range'] at hlen
    simp only [BSIZE] at *
    omega
  · -- the first block is there, because the file ends in it
    have hthere : d.absent inum (size / BSIZE) = false := by
      obtain ⟨p, hp, hp₀⟩ := hc.full inum hi (size / BSIZE) (by
        rw [← hsize]
        simp only [BSIZE] at *
        omega)
      unfold absent
      rw [hp, Option.any_some]
      exact decide_eq_false hp₀
    rw [countP_cons_of_neg (by rw [hthere]; exact Bool.false_ne_true)]
    have hlen := countP_le_length (p := d.absent inum)
      (l := range' (size / BSIZE + 1) ((size + len - 1) / BSIZE - size / BSIZE))
    rw [length_range'] at hlen
    simp only [BSIZE] at *
    omega

/-- A file that reaches beyond the direct blocks has its indirect block. -/
theorem indirect_ne_zero
    (hsize : (d.dinode inum).size > NDIRECT * BSIZE) : d.ptr inum .indirect ≠ 0 := by
  obtain ⟨p, hp, hp₀⟩ := hc.full inum hi NDIRECT hsize
  cases p with
  | indirect => exact hp₀
  | direct k => exact absurd (le_refl _) (ptrOf_direct hp)
  | entry j => exact fun h => hp₀ (if_pos h)

/-- **An append takes no more blocks than the longer file has more.** -/
theorem need_append (len : Nat) :
    d.need inum (touched (d.dinode inum).size len) + blocksOf (d.dinode inum).size ≤
      blocksOf ((d.dinode inum).size + len) := by
  have hcount := absent_touched hc hi len
  have hindirect : (if d.ptr inum .indirect = 0 ∧
        (touched (d.dinode inum).size len).any (NDIRECT ≤ ·) then 1 else 0) +
      (if (d.dinode inum).size > NDIRECT * BSIZE then 1 else 0) ≤
        if (d.dinode inum).size + len > NDIRECT * BSIZE then 1 else 0 := by
    by_cases hbig : (d.dinode inum).size > NDIRECT * BSIZE
    · rw [if_neg fun h => indirect_ne_zero hc hi hbig h.1, if_pos hbig, if_pos (by omega)]
    rw [if_neg hbig]
    split
    · next h =>
      obtain ⟨bn, hbn, hle⟩ := any_eq_true.mp h.2
      obtain ⟨-, -, hlast⟩ := mem_touched.mp hbn
      have hle : NDIRECT ≤ bn := of_decide_eq_true hle
      rw [if_pos]
      simp only [NDIRECT, BSIZE] at *
      omega
    · omega
  unfold need blocksOf
  omega

end

/-! ### `iappend` -/

/-- **`iappend` appends.**  The inode gets the bytes, and the image the blocks for them. -/
theorem Shows.iappend (src : List UInt8) (h : Shows n m d) (hc : Consistent mkfsSuper d)
    (hi : d.Alloc mkfsSuper inum) (hp : (d.dinode inum).Packable)
    (hmax : (d.dinode inum).size + src.length ≤ (NDIRECT + NINDIRECT) * BSIZE)
    (hroom : m.freeblock + blocksOf ((d.dinode inum).size + src.length) ≤
      mkfsSuper.size + blocksOf (d.dinode inum).size) :
    ∃ m' d', m.iappend inum src = .ok m' ∧ Shows n m' d' ∧
      Written mkfsSuper inum (d.dinode inum).size src d d' ∧ (d'.dinode inum).Packable ∧
      m'.freeblock + blocksOf (d.dinode inum).size ≤
        m.freeblock + blocksOf ((d.dinode inum).size + src.length) := by
  have hneed := need_append hc hi src.length
  have hfree := h.free_eq
  have ho : (d.put inum (d.dinode inum)).Owned mkfsSuper := by rw [put_dinode]; exact hc.owned
  obtain ⟨ip', d₁, hl, hleft⟩ := writeLoop_ok hi.1 (le_refl _) ho hi.2 hmax
    (by rw [put_dinode]; omega)
  rw [put_dinode] at hleft
  obtain ⟨m₁, hm₁, hs₁⟩ := h.writeLoop _ hi.1 (le_refl _) ho hi.2 hmax hl
  have hwrote := (writeLoop_wrote hi.1 (le_refl _) ho hi.2 hl).1
  have hsize : ip'.size = (d.dinode inum).size := by
    have := congrArg Dinode.size hwrote.fields
    rw [put_self, put_self] at this
    exact this
  set d' := if src.length > 0 ∧ (d.dinode inum).size + src.length > ip'.size then
    d₁.iupdate mkfsSuper inum { ip' with size := (d.dinode inum).size + src.length } else d₁ with hd'
  have hw : Written mkfsSuper inum (d.dinode inum).size src d d' :=
    (written_of_loop hc hi (le_refl _) hl).1
  -- `mkfs` writes the inode also when nothing was appended
  have hdin : d'.dinode = update d₁.dinode inum
        { ip' with size := (d.dinode inum).size + src.length } ∧
      d'.data = d₁.data ∧ d'.bitmap = d₁.bitmap := by
    by_cases h₀ : src = []
    · subst h₀
      cases hl
      rw [hd', if_neg (by simp)]
      refine ⟨?_, rfl, rfl⟩
      exact (update_eq_self inum _).symm
    · have hpos : 0 < src.length := length_pos_iff.mpr h₀
      rw [hd', if_pos ⟨hpos, by omega⟩]
      exact ⟨rfl, rfl, rfl⟩
  have hself : d'.dinode inum = { ip' with size := (d.dinode inum).size + src.length } := by
    rw [hdin.1, update_self]
  have hpack : (d'.dinode inum).Packable := by
    have haddrs : ∀ k, (d'.dinode inum).addrs k < UINT := by
      intro k
      by_cases h₀ : (d'.dinode inum).addrs k = 0
      · rw [h₀]; decide
      have hr := (hw.consistent.owned.range (i := inum) (q := .ofAddr k)
        ⟨hi.1, by rw [hw.fields]; exact hi.2⟩ (by rw [ptr_ofAddr]; exact h₀)).2
      rw [ptr_ofAddr] at hr
      exact lt_trans hr (by decide)
    have hlt : (NDIRECT + NINDIRECT) * BSIZE < UINT := by decide
    refine ⟨?_, ?_, ?_, ?_, haddrs⟩
    · rw [hw.fields]; exact hp.major
    · rw [hw.fields]; exact hp.minor
    · rw [hw.fields]; exact hp.nlink
    · rw [hself]
      exact lt_of_le_of_lt hmax hlt
  refine ⟨_, d', ?_, hs₁.winode hi.1 (hself ▸ hpack) hdin.1 hdin.2.1 hdin.2.2, hw, hpack, ?_⟩
  · unfold Mkfs.iappend
    rw [← h.dinode inum hi.1]
    dsimp only
    rw [hm₁]
    rfl
  · have hfree₁ := hs₁.free_eq
    have hhigh := hs₁.high
    show m₁.freeblock + _ ≤ _
    omega

end Mkfs

end Xv6
