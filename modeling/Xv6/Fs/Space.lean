import Xv6.Fs.Content
import Mathlib.Data.Finset.Card

/-!
# Fs — Space

When `writei` has the blocks it needs.  `free` counts the clear bits of the bitmap, `touched` lists
the blocks of the file that a write goes through, and `need` counts the blocks that it has to
allocate for them: one for each that is not there, and one for the indirect block.

* `writeLoop_ok`: the loop of `writei` runs to its end if `need` is at most `free`.
-/

namespace Xv6

open Lib List Nat

/-- The blocks of a file that the bytes from `off` to `off + n` are in. -/
def touched (off n : Nat) : List Nat :=
  if n = 0 then [] else List.range' (off / BSIZE) ((off + n - 1) / BSIZE - off / BSIZE + 1)

variable {off n : Nat}

@[simp] theorem touched_zero (off : Nat) : touched off 0 = [] := rfl

theorem mem_touched {bn : Nat} :
    bn ∈ touched off n ↔ n ≠ 0 ∧ off / BSIZE ≤ bn ∧ bn ≤ (off + n - 1) / BSIZE := by
  have hle : n ≠ 0 → off / BSIZE ≤ (off + n - 1) / BSIZE :=
    fun h => Nat.div_le_div_right (by omega)
  unfold touched
  split
  · next h => simp [h]
  next h =>
  have := hle h
  rw [mem_range'_1]
  omega

/-- The first block, and the blocks of the next pass. -/
theorem touched_cons (h : n ≠ 0) : touched off n = off / BSIZE ::
      touched (off + min n (BSIZE - off % BSIZE)) (n - min n (BSIZE - off % BSIZE)) := by
  have hB : off % BSIZE < BSIZE := mod_lt _ (by decide)
  have hoff : off / BSIZE * BSIZE + off % BSIZE = off := div_add_mod' off BSIZE
  have hpos : 0 < BSIZE := by decide
  by_cases hle : n ≤ BSIZE - off % BSIZE
  · have hlast : (off + n - 1) / BSIZE = off / BSIZE := by
      refine Nat.div_eq_of_lt_le (by omega) ?_
      rw [Nat.succ_mul]
      omega
    rw [Nat.min_eq_left hle, Nat.sub_self, touched_zero, touched, if_neg h, hlast, Nat.sub_self]
    rfl
  · have hmin : min n (BSIZE - off % BSIZE) = BSIZE - off % BSIZE := by omega
    have hnext : off + (BSIZE - off % BSIZE) = (off / BSIZE + 1) * BSIZE := by
      rw [succ_mul]
      omega
    have hdiv : (off + (BSIZE - off % BSIZE)) / BSIZE = off / BSIZE + 1 := by
      rw [hnext, Nat.mul_div_cancel _ hpos]
    have hlast : off / BSIZE + 1 ≤ (off + n - 1) / BSIZE := by
      rw [le_div_iff_mul_le hpos, ← hnext]
      omega
    have hend : off + (BSIZE - off % BSIZE) + (n - (BSIZE - off % BSIZE)) - 1 = off + n - 1 := by
      omega
    rw [hmin, touched, if_neg h, touched, if_neg (by omega), hdiv, hend]
    have hcount : (off + n - 1) / BSIZE - off / BSIZE =
      (off + n - 1) / BSIZE - (off / BSIZE + 1) + 1 := by omega
    rw [hcount, range'_succ]

theorem notMem_touched_next (off n : Nat) : off / BSIZE ∉
    touched (off + min n (BSIZE - off % BSIZE)) (n - min n (BSIZE - off % BSIZE)) := by
  intro hin
  obtain ⟨hne, hle, -⟩ := mem_touched.mp hin
  have hoff : off / BSIZE * BSIZE + off % BSIZE = off := div_add_mod' off BSIZE
  have hB : off % BSIZE < BSIZE := mod_lt _ (by decide)
  have hnext : off / BSIZE + 1 ≤ (off + min n (BSIZE - off % BSIZE)) / BSIZE := by
    rw [le_div_iff_mul_le (by decide), succ_mul]
    omega
  omega

namespace Disk

variable {sb : Super} {d d' : Disk} {ip ip' : Dinode} {inum i bn a b off : Nat} {p q : BlockPtr}
  {ps : List BlockPtr} {bns : List Nat}

/-! ### Free blocks -/

/-- The number of clear bits. -/
def free (sb : Super) (d : Disk) : Nat :=
  ((Finset.range sb.size).filter fun b => d.bitmap b = false).card

theorem firstFree_none : ∀ {left b₀ : Nat}, firstFree d.bitmap left b₀ = none →
    ∀ b, b₀ ≤ b → b < b₀ + left → d.bitmap b = true
  | 0, b₀, _, b, h₁, h₂ => absurd h₂ (by omega)
  | left + 1, b₀, h, b, h₁, h₂ => by
    rw [firstFree] at h
    split at h
    · next hb =>
      by_cases e : b = b₀
      · rw [e]; exact hb
      · exact firstFree_none h b (by omega) (by omega)
    · cases h

theorem balloc_ok (d : Disk) (h : 0 < d.free sb) : ∃ b d', d.balloc sb = .ok (b, d') := by
  unfold balloc
  cases hf : firstFree d.bitmap sb.size 0 with
  | some b => exact ⟨b, _, rfl⟩
  | none =>
    obtain ⟨b, hb⟩ := Finset.card_pos.mp h
    obtain ⟨hlt, hb⟩ := Finset.mem_filter.mp hb
    rw [firstFree_none hf b (zero_le _) (by simpa using hlt)] at hb
    cases hb

/-- Marking a free block. -/
theorem free_of_update (hlt : b < sb.size) (hf : d.bitmap b = false)
    (h : d'.bitmap = Function.update d.bitmap b true) : d'.free sb + 1 = d.free sb := by
  have hmem : b ∈ (Finset.range sb.size).filter fun b => d.bitmap b = false := by
    simp [hlt, hf]
  have herase : ((Finset.range sb.size).filter fun b => d'.bitmap b = false) =
      ((Finset.range sb.size).filter fun b => d.bitmap b = false).erase b := by
    ext c
    rw [Finset.mem_erase, Finset.mem_filter, Finset.mem_filter, h]
    by_cases e : c = b
    · subst e; simp
    · simp [e]
  unfold free
  rw [herase, Finset.card_erase_add_one hmem]

theorem Takes.free_eq (h : Takes sb inum p b d d') : d'.free sb + 1 = d.free sb :=
  free_of_update h.lt h.free h.bitmap

theorem Grows.free (h : Grows sb inum ps d d') : d'.free sb + ps.length = d.free sb := by
  induction h with
  | refl => rfl
  | more h _ ih =>
    have := h.free_eq
    rw [length_cons]
    omega

theorem balloc_free (h : d.balloc sb = .ok (b, d')) : d'.free sb + 1 = d.free sb := by
  obtain ⟨hlt, hf, rfl⟩ := balloc_eq_ok h
  exact free_of_update hlt hf rfl

theorem addr_ok (d : Disk) (ip : Dinode) (k : Fin (NDIRECT + 1))
    (h : ip.addrs k = 0 → 0 < d.free sb) : ∃ a ip' d', d.addr sb ip k = .ok (a, ip', d') ∧
      d'.free sb + (if ip.addrs k = 0 then 1 else 0) = d.free sb := by
  unfold addr
  split
  · next h₀ =>
    obtain ⟨b, d', hb⟩ := balloc_ok d (h h₀)
    rw [hb]
    exact ⟨b, _, d', rfl, balloc_free hb⟩
  · exact ⟨_, _, _, rfl, rfl⟩

/-- **`bmap`** runs to its end if there are blocks for the missing pointers. -/
theorem bmap_ok (hp : ptrOf bn = some p) (h : ((d.put inum ip).missing inum p).length ≤ d.free sb) :
    ∃ a ip' d', d.bmap sb ip bn = .ok (a, ip', d') := by
  unfold ptrOf at hp
  unfold bmap
  split at hp
  · next hbn =>
    cases hp
    simp only [missing, ptr, put_self] at h
    rw [dif_pos hbn]
    obtain ⟨a, ip', d', ha, -⟩ := addr_ok d ip ⟨bn, lt_succ_of_lt hbn⟩ fun h₀ => by
        rw [if_pos (show ip.addrs (Fin.castSucc ⟨bn, hbn⟩) = 0 from h₀)] at h
        exact h
    exact ⟨a, ip', d', ha⟩
  · next hbn =>
    split at hp
    · next hj =>
      cases hp
      rw [dif_neg hbn, dif_pos hj]
      have hind : (d.put inum ip).ptr inum .indirect = ip.addrs INDIRECT := by
        simp only [ptr, put_self]
      rw [missing, hind] at h
      by_cases h₀ : ip.addrs INDIRECT = 0
      · rw [if_pos h₀] at h
        have h2 : 2 ≤ d.free sb := h
        obtain ⟨a, ip₁, d₁, ha, hfree⟩ := addr_ok d ip INDIRECT fun _ => lt_of_lt_of_le two_pos h2
        rw [if_pos h₀] at hfree
        rw [ha]
        simp only [Res.ok_bind]
        split
        · obtain ⟨c, d₂, hc⟩ := balloc_ok d₁ (show 0 < d₁.free sb by omega)
          rw [hc]
          exact ⟨_, _, _, rfl⟩
        · exact ⟨_, _, _, rfl⟩
      · rw [if_neg h₀] at h
        have ha : d.addr sb ip INDIRECT = .ok (ip.addrs INDIRECT, ip, d) := if_neg h₀
        rw [ha]
        simp only [Res.ok_bind]
        split
        · next hz =>
          have hptr : (d.put inum ip).ptr inum (.entry ⟨bn - NDIRECT, hj⟩) = 0 := by
            simp only [ptr, put_self]
            rw [if_neg h₀]
            exact UInt32.toNat_inj.mpr hz
          rw [if_pos hptr] at h
          obtain ⟨c, d₂, hc⟩ := balloc_ok d h
          rw [hc]
          exact ⟨_, _, _, rfl⟩
        · exact ⟨_, _, _, rfl⟩
    · cases hp

/-! ### What a write needs -/

/-- Is block `bn` of the file missing? -/
def absent (d : Disk) (inum bn : Nat) : Bool := (ptrOf bn).any fun p => d.ptr inum p = 0

/-- The number of blocks to allocate for the blocks `bns` of the file. -/
def need (d : Disk) (inum : Nat) (bns : List Nat) : Nat :=
  bns.countP (d.absent inum) +
    if d.ptr inum .indirect = 0 ∧ bns.any (NDIRECT ≤ ·) then 1 else 0

theorem need_congr {e : Disk} (h : ∀ q, e.ptr inum q = d.ptr inum q) :
    e.need inum bns = d.need inum bns := by
  unfold need absent
  simp only [h]

/-- A pointer that is not missing for `p` stays as it is when `bmap` fills the others. -/
theorem Grows.ptr_ne (h : Grows sb inum ps d d') (hi : d.Alloc sb inum) (hq : q ∉ ps) :
    d'.ptr inum q = d.ptr inum q := by
  induction h with
  | refl => rfl
  | @more p b ps d d₁ d' h _ ih =>
    rw [mem_cons, not_or] at hq
    exact (ih (h.alloc.mpr hi) hq.2).trans (h.ne inum q hi fun e => hq.1 (Prod.mk.inj e).2)

theorem ptrOf_entry {j : Fin NINDIRECT} (h : ptrOf bn = some (.entry j)) : NDIRECT ≤ bn := by
  unfold ptrOf at h
  split at h
  · cases h
  · omega

theorem ptrOf_direct {k : Fin NDIRECT} (h : ptrOf bn = some (.direct k)) : ¬ NDIRECT ≤ bn := by
  unfold ptrOf at h
  split at h
  · omega
  · split at h <;> cases h

/-- What `bmap` allocates: the block, and the indirect block before it. -/
theorem length_missing (hp : ptrOf bn = some p) : (d.missing inum p).length =
    (if d.absent inum bn then 1 else 0) +
      if d.ptr inum .indirect = 0 ∧ NDIRECT ≤ bn then 1 else 0 := by
  have habs : d.absent inum bn = decide (d.ptr inum p = 0) := by
    unfold absent
    rw [hp, Option.any_some]
  rw [habs]
  cases p with
  | indirect => exact absurd rfl (ptrOf_ne_indirect hp)
  | direct k =>
    have hlo := ptrOf_direct hp
    by_cases h₀ : d.ptr inum (.direct k) = 0 <;> simp [missing, h₀, hlo]
  | entry j =>
    have hhi := ptrOf_entry hp
    by_cases hi₀ : d.ptr inum .indirect = 0
    · have h₀ : d.ptr inum (.entry j) = 0 := if_pos hi₀
      simp [missing, h₀, hi₀, hhi]
    · by_cases h₀ : d.ptr inum (.entry j) = 0 <;> simp [missing, h₀, hi₀]

theorem missing_le_need (hp : ptrOf bn = some p) :
    (d.missing inum p).length ≤ d.need inum (bn :: bns) := by
  rw [length_missing hp, need, countP_cons]
  refine Nat.add_le_add (Nat.le_add_left _ _) ?_
  by_cases h : d.ptr inum .indirect = 0 ∧ NDIRECT ≤ bn
  · rw [if_pos h, if_pos ⟨h.1, by simp [h.2]⟩]
  · rw [if_neg h]
    exact zero_le _

/-- The pointers that `bmap` fills. -/
theorem of_mem_missing (hp : ptrOf bn = some p) (hq : q ∈ d.missing inum p) :
    q = .indirect ∧ NDIRECT ≤ bn ∨ q = p := by
  unfold missing at hq
  split at hq
  · split at hq
    · rcases mem_pair.mp hq with rfl | rfl
      · exact .inl ⟨rfl, ptrOf_entry hp⟩
      · exact .inr rfl
    · split at hq
      · exact .inr (mem_singleton.mp hq)
      · cases hq
  · split at hq
    · exact .inr (mem_singleton.mp hq)
    · cases hq

/-- Afterwards the block is there, and the others are as before. -/
theorem Grows.absent (hg : Grows sb inum (d.missing inum p) d d') (hi : d.Alloc sb inum)
    (hp : ptrOf bn = some p) (hself : d'.ptr inum p ≠ 0) (n : Nat) :
    d'.absent inum n = (d.absent inum n && decide (n ≠ bn)) := by
  unfold Disk.absent
  cases hq : ptrOf n with
  | none => rfl
  | some q =>
    by_cases e : n = bn
    · subst e
      obtain rfl := Option.some.inj (hp.symm.trans hq)
      simp [hself]
    have hnot : q ∉ d.missing inum p := fun hin => by
      rcases of_mem_missing hp hin with ⟨rfl, -⟩ | rfl
      · exact ptrOf_ne_indirect hq rfl
      · exact e (ptrOf_inj hq hp)
    simp [hg.ptr_ne hi hnot, e]

/-- What `bmap` allocates for the first block is not needed for the rest. -/
theorem need_cons (hi : d.Alloc sb inum) (hp : ptrOf bn = some p) (hbn : bn ∉ bns)
    (hg : Grows sb inum (d.missing inum p) d d') (hself : d'.ptr inum p ≠ 0) :
    d'.need inum bns + (d.missing inum p).length = d.need inum (bn :: bns) := by
  have hcount : bns.countP (d'.absent inum) = bns.countP (d.absent inum) := by
    refine countP_congr fun n hn => ?_
    have hne : n ≠ bn := fun e => hbn (e ▸ hn)
    rw [hg.absent hi hp hself, decide_eq_true hne, Bool.and_true]
  -- the indirect block is there for the rest, if `bn` had need of it
  have hind : (if d'.ptr inum .indirect = 0 ∧ bns.any (NDIRECT ≤ ·) then 1 else 0) +
      (if d.ptr inum .indirect = 0 ∧ NDIRECT ≤ bn then 1 else 0) =
        if d.ptr inum .indirect = 0 ∧ (bn :: bns).any (NDIRECT ≤ ·) then 1 else 0 := by
    by_cases hhi : NDIRECT ≤ bn
    · have hind' : d'.ptr inum .indirect ≠ 0 := by
        cases p with
        | entry j => exact fun e => hself (if_pos e)
        | direct k => exact absurd hhi (ptrOf_direct hp)
        | indirect => exact hself
      simp [hind', hhi]
    · have hkeep : d'.ptr inum .indirect = d.ptr inum .indirect :=
        hg.ptr_ne hi fun hin => by
          rcases of_mem_missing hp hin with ⟨-, h⟩ | h
          · exact hhi h
          · exact ptrOf_ne_indirect hp h.symm
      simp [hkeep, hhi]
  rw [length_missing hp, need, need, hcount, countP_cons, ← hind]
  omega

/-- **The loop of `writei` runs to its end**, and takes the blocks that it needs. -/
theorem writeLoop_ok (hi : inum < sb.ninodes) :
    ∀ {fuel : Nat} {d : Disk} {ip : Dinode} {off : Nat} {src : List UInt8},
    src.length ≤ fuel → (d.put inum ip).Owned sb → ip.type ≠ .free →
    off + src.length ≤ (NDIRECT + NINDIRECT) * BSIZE →
    (d.put inum ip).need inum (touched off src.length) ≤ d.free sb →
    ∃ ip' d', d.writeLoop sb fuel ip off src = .ok (ip', d') ∧
      d'.free sb + (d.put inum ip).need inum (touched off src.length) = d.free sb
  | 0, d, ip, off, src, hf, _, _, _, _ => by
    obtain rfl := length_eq_zero_iff.mp (le_zero.mp hf)
    exact ⟨_, _, rfl, by simp [need]⟩
  | fuel + 1, d, ip, off, src, hf, ho, ht, hmax, hneed => by
    rw [writeLoop]
    split
    · next h₀ =>
      subst h₀
      exact ⟨_, _, rfl, by simp [need]⟩
    next h₀ =>
    have hpos : 0 < src.length := length_pos_iff.mpr h₀
    have hB : off % BSIZE < BSIZE := mod_lt _ (by decide)
    have hmem := put_alloc_self (d := d) hi ht
    have hlt : off / BSIZE < NDIRECT + NINDIRECT :=
      Nat.div_lt_of_lt_mul (by rw [Nat.mul_comm]; omega)
    obtain ⟨p, hp⟩ := Option.isSome_iff_exists.mp (ptrOf_isSome.mpr hlt)
    rw [touched_cons (ne_of_gt hpos)] at hneed ⊢
    set m := min src.length (BSIZE - off % BSIZE) with hm
    have hnot : off / BSIZE ∉ touched (off + m) (src.length - m) :=
      notMem_touched_next off src.length
    have hlen := le_trans (missing_le_need hp) hneed
    obtain ⟨a, ip₁, d₁, hb⟩ := bmap_ok hp hlen
    rw [hb]
    simp only [Res.ok_bind]
    obtain ⟨p', hp', hpi, hg, ha, ha₀, -⟩ := bmap_spec ho hi ht hb
    obtain rfl : p = p' := Option.some.inj (hp.symm.trans hp')
    have hpass := wrote_pass src ho hi ht hb
    rw [← hm] at hpass
    have ht₁ : ip₁.type ≠ .free := by rw [(bmap_fields hb).2]; exact ht
    have hcons := need_cons hmem hp hnot hg (by rw [ha]; exact ha₀)
    have hsame : ((d₁.write a (Block.patch (d₁.data a) (off % BSIZE) (src.take m))).put inum
        ip₁).need inum (touched (off + m) (src.length - m)) =
          (d₁.put inum ip₁).need inum (touched (off + m) (src.length - m)) :=
      need_congr fun q => write_ptr (hg.owned ho hmem) (hg.alloc.mpr hmem) hpi ha ha₀
        (hg.alloc.mpr hmem) q
    have hfree : (d₁.put inum ip₁).free sb + ((d.put inum ip).missing inum p).length =
      (d.put inum ip).free sb := hg.free
    have hfd : (d.put inum ip).free sb = d.free sb := rfl
    have hfd₁ : (d₁.put inum ip₁).free sb = d₁.free sb := rfl
    -- the rest needs what is left
    have hrest : (src.drop m).length ≤ fuel := by rw [length_drop]; omega
    have hmax' : off + m + (src.drop m).length ≤ (NDIRECT + NINDIRECT) * BSIZE := by
      rw [length_drop]
      omega
    obtain ⟨ip', d', hl, hleft⟩ := writeLoop_ok hi hrest hpass.owned ht₁ hmax' (by
      rw [length_drop, hsame]
      show _ ≤ d₁.free sb
      omega)
    rw [length_drop, hsame] at hleft
    refine ⟨ip', d', hl, ?_⟩
    have hwrite : (d₁.write a (Block.patch (d₁.data a) (off % BSIZE) (src.take m))).free sb =
      d₁.free sb := rfl
    omega

end Disk

end Xv6
