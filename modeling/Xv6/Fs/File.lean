import Xv6.Fs.Space

/-!
# Fs — File

`readi` and `writei` on a consistent file system: an allocated inode that is not a device is the
list of its bytes, `writei` overwrites a part of it or extends it, `readi` returns a part of it, and
neither touches the bytes of another inode.

A file system is consistent if its bitmap is exact and every file has all blocks below its size
(`Consistent`).
-/

namespace Xv6

open Lib Function List Nat

namespace Disk

variable {sb : Super} {devsw : Devsw} {d d' : Disk} {ip ip' : Dinode} {inum i off n : Nat}
  {src : List UInt8}

/-- The bytes of inode `i`. -/
def content (d : Disk) (i : Nat) : List UInt8 := (List.range (d.dinode i).size).map (d.byteAt i)

@[simp] theorem length_content (d : Disk) (i : Nat) :
    (d.content i).length = (d.dinode i).size := by simp [content]

/-- The bitmap is exact, and every file has all blocks below its size. -/
structure Consistent (sb : Super) (d : Disk) : Prop where
  owned : d.Owned sb
  full : ∀ i, d.Alloc sb i → ∀ bn, bn * BSIZE < (d.dinode i).size →
    ∃ p, ptrOf bn = some p ∧ d.ptr i p ≠ 0

namespace Consistent

theorem byte (h : Consistent sb d) (hi : d.Alloc sb i) {k : Nat} (hk : k < (d.dinode i).size) :
    ∃ p, ptrOf (k / BSIZE) = some p ∧ d.ptr i p ≠ 0 :=
  h.full i hi (k / BSIZE) (lt_of_le_of_lt (div_mul_le_self k BSIZE) hk)

/-- A file has no more blocks than its inode can address. -/
theorem size_le (h : Consistent sb d) (hi : d.Alloc sb i) :
    (d.dinode i).size ≤ (NDIRECT + NINDIRECT) * BSIZE := by
  by_contra hlt
  obtain ⟨p, hp, -⟩ := h.full i hi (NDIRECT + NINDIRECT) (not_le.mp hlt)
  have := ptrOf_isSome.mp (Option.isSome_iff_exists.mpr ⟨p, hp⟩)
  omega

end Consistent

/-! ### Lists of bytes -/

/-- Overwriting a part of a list of bytes, given by its bytes. -/
theorem map_range_overwrite {f g : Nat → UInt8} {size : Nat} (hoff : off ≤ size)
    (hf : ∀ k, g k = if off ≤ k ∧ k < off + src.length then src.getD (k - off) 0 else f k) :
    (range (max size (off + src.length))).map g = ((range size).map f).take off ++ src ++
        ((range size).map f).drop (off + src.length) := by
  rw [append_assoc]
  refine ext_getElem ?_ fun k h₁ h₂ => ?_
  · simp only [length_map, length_range, length_append, length_take, length_drop]
    omega
  · simp only [length_map, length_range] at h₁
    rw [getElem_map, getElem_range, hf]
    by_cases hlo : k < off
    · rw [if_neg (by omega), getElem_append_left (by simp; omega)]
      simp
    rw [getElem_append_right (by simp; omega)]
    by_cases hhi : k < off + src.length
    · rw [if_pos ⟨by omega, hhi⟩, getElem_append_left (by simp; omega),
        getD_eq_getElem _ _ (by omega)]
      congr 1
      simp
      omega
    · rw [if_neg (by omega), getElem_append_right (by simp; omega)]
      simp only [getElem_drop, getElem_map, getElem_range]
      congr 1
      simp
      omega

theorem map_range'_eq_take_drop (f : Nat → UInt8) (size : Nat) :
    (range' off (min n (size - off))).map f = (((range size).map f).drop off).take n := by
  refine ext_getElem ?_ fun k h₁ h₂ => ?_
  · simp
  · simp

/-! ### `readi` -/

/-- `readi` of bytes that are in blocks. -/
theorem readi_present (hfull : ∀ k, off ≤ k → k < off + n → k < (d.dinode inum).size →
      ∃ p, ptrOf (k / BSIZE) = some p ∧ d.ptr inum p ≠ 0)
    (ht : (d.dinode inum).type ≠ .dev) (hoff : off < UINT) (hn : n < UINT) :
    d.readi sb devsw (d.dinode inum) off n =
      if off > (d.content inum).length ∨ UINT ≤ off + n then .ok (-1, [], d.dinode inum, d)
      else .ok ((((d.content inum).drop off).take n).length, ((d.content inum).drop off).take n,
        d.dinode inum, d) := by
  have hwrap : (off + n) % UINT < off ↔ UINT ≤ off + n := by
    constructor
    · intro h
      by_contra hlt
      rw [mod_eq_of_lt (not_le.mp hlt)] at h
      omega
    · intro h
      rw [mod_eq_sub_mod h, mod_eq_of_lt (by omega)]
      omega
  unfold readi
  rw [if_neg ht, length_content]
  simp only [hwrap]
  split
  · rfl
  next hgood =>
  rw [not_or] at hgood
  have hmin : (if off + n > (d.dinode inum).size then (d.dinode inum).size - off else n) =
      min n ((d.dinode inum).size - off) := by
    split <;> omega
  rw [hmin]
  have hloop := readLoop_eq sb d inum (d.dinode inum) _ off _
    (le_refl (min n ((d.dinode inum).size - off))) (by
      intro k hlo hhi
      rw [put_dinode]
      exact hfull k hlo (by omega) (by omega))
  rw [hloop, put_dinode, map_range'_eq_take_drop]
  simp only [Res.ok_bind]
  have hlen : ((((d.content inum).drop off).take n).length : Int) =
      (min n ((d.dinode inum).size - off) : Nat) := by simp
  rw [hlen]
  rfl

/-- **`readi`** of an inode on a consistent file system. -/
theorem readi_eq (hc : Consistent sb d) (hi : d.Alloc sb inum)
    (ht : (d.dinode inum).type ≠ .dev) (hoff : off < UINT) (hn : n < UINT) :
    d.readi sb devsw (d.dinode inum) off n =
      if off > (d.content inum).length ∨ UINT ≤ off + n then .ok (-1, [], d.dinode inum, d)
      else .ok ((((d.content inum).drop off).take n).length, ((d.content inum).drop off).take n,
        d.dinode inum, d) :=
  readi_present (fun _ _ _ hk => hc.byte hi hk) ht hoff hn

/-! ### `writei` -/

/-- What a write does to a file system. -/
structure Written (sb : Super) (inum off : Nat) (src : List UInt8) (d d' : Disk) : Prop where
  consistent : Consistent sb d'
  self : d'.content inum =
    (d.content inum).take off ++ src ++ (d.content inum).drop (off + src.length)
  fields : d'.dinode inum = { d.dinode inum with
    size := max (d.dinode inum).size (off + src.length), addrs := (d'.dinode inum).addrs }
  dinode : ∀ i, i ≠ inum → d'.dinode i = d.dinode i
  other : ∀ i, d.Alloc sb i → i ≠ inum → d'.content i = d.content i

/-- The inode that the loop leaves in memory, with its new size, goes to the disk. -/
theorem Wrote.written {e : Disk} (size : Nat) (hc : Consistent sb d) (hi : d.Alloc sb inum)
    (hoff : off ≤ (d.dinode inum).size) (h : Wrote sb inum off src d d')
    (hsize : size = max (d.dinode inum).size (off + src.length))
    (hd : e.dinode = update d'.dinode inum { d'.dinode inum with size := size })
    (hdata : e.data = d'.data) (hbit : e.bitmap = d'.bitmap) : Written sb inum off src d e := by
  have hself : e.dinode inum = { d'.dinode inum with size := size } := by
    rw [hd, update_self]
  have hne : ∀ i, i ≠ inum → e.dinode i = d'.dinode i := fun i h => by
    rw [hd, update_of_ne h]
  have hptr : ∀ i q, e.ptr i q = d'.ptr i q := by
    intro i q
    by_cases e' : i = inum
    · subst e'
      cases q with
      | direct | indirect => simp only [Disk.ptr, hself]
      | entry j => simp only [Disk.ptr, hself, hdata]
    · exact ptr_congr (hne i e') hdata q
  have halloc : ∀ i, e.Alloc sb i ↔ d.Alloc sb i := by
    intro i
    rw [← h.alloc]
    unfold Alloc
    by_cases e' : i = inum
    · rw [e', hself]
    · rw [hne i e']
  have hbyte : ∀ i k, e.byteAt i k = d'.byteAt i k := fun i k =>
    byteAt_congr fun p _ => by unfold block; rw [hptr, hdata]
  have hfields : e.dinode inum = { d.dinode inum with
      size := max (d.dinode inum).size (off + src.length), addrs := (e.dinode inum).addrs } := by
    rw [hself, h.fields, hsize]
  have hcontent : ∀ i, i ≠ inum → d.Alloc sb i → e.content i = d.content i := by
    intro i hne' hi'
    unfold content
    rw [hne i hne', h.dinode i hne']
    exact map_congr_left fun k _ => (hbyte i k).trans (h.other i hi' hne' k)
  refine ⟨⟨?_, fun i hi' bn hbn => ?_⟩, ?_, hfields, fun i hne' => ?_, fun i hi' hne' => ?_⟩
  · exact Ledger.congr h.owned
      (fun x => held_congr ((halloc x.1).trans h.alloc.symm) (hptr x.1 x.2)) fun b => by rw [hbit]
  · have hi₀ := (halloc i).mp hi'
    -- an old block of the file, or one that was written to
    by_cases hold : bn * BSIZE < (d.dinode i).size
    · obtain ⟨p, hp, hp₀⟩ := hc.full i hi₀ bn hold
      refine ⟨p, hp, ?_⟩
      rw [hptr, h.ptr i p hi₀ hp₀]
      exact hp₀
    by_cases e' : i = inum
    · subst e'
      rw [hfields] at hbn
      have hbn : bn * BSIZE < max (d.dinode i).size (off + src.length) := hbn
      obtain ⟨p, hp, hp₀⟩ := h.full (bn * BSIZE) (by omega) (by omega)
      rw [Nat.mul_div_cancel _ (by decide)] at hp
      exact ⟨p, hp, by rw [hptr]; exact hp₀⟩
    · rw [hne i e', h.dinode i e'] at hbn
      exact absurd hbn hold
  · unfold content
    rw [hfields]
    dsimp only
    exact map_range_overwrite hoff fun k => (hbyte inum k).trans (h.self k)
  · rw [hne i hne', h.dinode i hne']
  · exact hcontent i hne' hi'

/-- What `writei` does when it returns the number of bytes. -/
theorem written_of_loop (hc : Consistent sb d) (hi : d.Alloc sb inum)
    (hoff : off ≤ (d.dinode inum).size)
    (hl : d.writeLoop sb src.length (d.dinode inum) off src = .ok (ip', d')) :
    Written sb inum off src d (if src.length > 0 ∧ off + src.length > ip'.size then
        d'.iupdate sb inum { ip' with size := off + src.length } else d') ∧
    (if src.length > 0 ∧ off + src.length > ip'.size then
        { ip' with size := off + src.length } else ip') =
      (if src.length > 0 ∧ off + src.length > ip'.size then
        d'.iupdate sb inum { ip' with size := off + src.length } else d').dinode inum := by
  have ho : (d.put inum (d.dinode inum)).Owned sb := by rw [put_dinode]; exact hc.owned
  obtain ⟨hw, hd⟩ := writeLoop_wrote hi.1 (le_refl _) ho hi.2 hl
  rw [put_dinode] at hw
  have hsize : ip'.size = (d.dinode inum).size := by
    have := congrArg Dinode.size hw.fields
    rw [put_self] at this
    exact this
  split
  · next hgrow =>
    refine ⟨hw.written (off + src.length) hc hi hoff (by omega) ?_ rfl rfl, ?_⟩
    · simp [iupdate, put]
    · simp [iupdate]
  next hgrow =>
  -- nothing beyond the old size was written, so no block was allocated
  have hsame : ip' = d.dinode inum := by
    refine writeLoop_same hi.1 (le_refl _) ho hi.2 ?_ hl
    intro k hlo hhi p hp
    rw [put_dinode]
    obtain ⟨q, hq, hq₀⟩ := hc.byte hi (k := k) (by omega)
    obtain rfl := Option.some.inj (hp.symm.trans hq)
    exact hq₀
  have hput : d'.put inum ip' = d' := by rw [hsame, ← hd, put_dinode]
  rw [hput] at hw
  refine ⟨hw.written (d.dinode inum).size hc hi hoff ?_ ?_ rfl rfl, ?_⟩
  · by_cases h₀ : src.length = 0
    · omega
    · omega
  · rw [hd, ← congrFun hd inum]
    have : ({ d'.dinode inum with size := (d'.dinode inum).size } : Dinode) =
      d'.dinode inum := rfl
    rw [this, hd, update_eq_self]
  · rw [hd, hsame]

/-- A write that fits into the blocks of an inode, and for which there are free blocks. -/
theorem writei_ok (devsw : Devsw) (hc : Consistent sb d) (hi : d.Alloc sb inum)
    (hdev : (d.dinode inum).type ≠ .dev) (hoff : off ≤ (d.dinode inum).size)
    (hmax : off + src.length ≤ (NDIRECT + NINDIRECT) * BSIZE)
    (hneed : d.need inum (touched off src.length) ≤ d.free sb) :
    ∃ d', d.writei sb devsw inum (d.dinode inum) off src =
        .ok (src.length, d'.dinode inum, d') ∧ Written sb inum off src d d' := by
  have ho : (d.put inum (d.dinode inum)).Owned sb := by rw [put_dinode]; exact hc.owned
  obtain ⟨ip', d', hl, -⟩ := writeLoop_ok hi.1 (le_refl _) ho hi.2 hmax (by
    rw [put_dinode]; exact hneed)
  obtain ⟨hw, hip⟩ := written_of_loop hc hi hoff hl
  refine ⟨_, ?_, hw⟩
  have hU : off + src.length < UINT := by
    simp only [NDIRECT, NINDIRECT, BWORDS, BSIZE, UINT] at *
    omega
  unfold writei
  rw [if_neg hdev, if_neg, if_neg, hl]
  · simp only [Res.ok_bind]
    rw [← hip]
    split <;> rfl
  · simp only [MAXFILE, NDIRECT, NINDIRECT, BWORDS, BSIZE] at *
    omega
  · rw [mod_eq_of_lt hU]
    omega

/-- A disk with one file, inode `i`, which is empty. -/
def blank (sb : Super) (i : Nat) : Disk where
  bitmap b := b < sb.nmeta
  dinode := update (fun _ => Dinode.zero) i { Dinode.zero with type := .file, nlink := 1 }
  data _ := Block.zero
  logged := []

theorem blank_dinode (sb : Super) (i j : Nat) :
    ((blank sb i).dinode j).addrs = (fun _ => 0) ∧ ((blank sb i).dinode j).size = 0 := by
  by_cases e : j = i
  · subst e
    simp [blank, Dinode.zero]
  · simp [blank, e, Dinode.zero]

theorem blank_consistent (sb : Super) (i : Nat) : Consistent sb (blank sb i) := by
  have hno : ∀ x, (blank sb i).held sb x = none := fun ⟨j, q⟩ => by
    unfold held
    rw [if_neg fun e => e.2 (ptr_of_addrs_zero (blank_dinode sb i j).1 q)]
  refine ⟨⟨fun h => ?_, fun h => ?_, fun h => ?_, fun {b} hb => ?_⟩, fun j _ bn hbn => ?_⟩
  · rw [hno] at h; cases h
  · rw [hno] at h; cases h
  · rw [hno] at h; cases h
  · have hbit : (blank sb i).bitmap b = true ↔ b < sb.nmeta := decide_eq_true_iff
    rw [hbit]
    simp [hno]
  · rw [(blank_dinode sb i j).2] at hbn
    exact absurd hbn (not_lt_zero _)

end Disk

end Xv6
