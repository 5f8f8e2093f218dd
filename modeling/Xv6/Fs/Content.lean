import Xv6.Fs.Owner
import Mathlib.Data.List.GetD

/-!
# Fs — Content

A file is an array of bytes.  `byteAt d i k` is byte `k` of inode `i`: the byte of the block that
its pointers lead to, or 0 where there is no block yet.  Giving a pointer a block of zeros changes
no byte of any inode, so what `writei` does to the bytes is what its `memmove`s do.

* `writeLoop_wrote`: the bytes after the loop of `writei`, of this inode and of the others.
* `readLoop_eq`: the bytes that the loop of `readi` copies.
-/

namespace Xv6

open Lib List Nat

/-! ### The bytes of a block -/

namespace Block

theorem byte_ofBytes {i : Nat} (f : Nat → UInt8) (h : i < BSIZE) : byte (ofBytes f) i = f i := by
  have hj : (Fin.ofNat BWORDS (i / 4)).val = i / 4 :=
    mod_eq_of_lt (by simp only [BSIZE, BWORDS] at *; omega)
  unfold byte ofBytes
  rw [hj]
  have h0 := (f (4 * (i / 4))).toNat_lt
  have h1 := (f (4 * (i / 4) + 1)).toNat_lt
  have h2 := (f (4 * (i / 4) + 2)).toNat_lt
  have h3 := (f (4 * (i / 4) + 3)).toNat_lt
  rw [UInt32.toNat_ofNat', mod_eq_of_lt (by omega)]
  apply UInt8.toNat_inj.mp
  rw [UInt8.toNat_ofNat']
  -- which of the four bytes of the word it is
  have hm : i % 4 = 0 ∨ i % 4 = 1 ∨ i % 4 = 2 ∨ i % 4 = 3 := by omega
  rcases hm with hm | hm | hm | hm
  · have hi : i = 4 * (i / 4) := by omega
    rw [hm, congrArg (fun n => (f n).toNat) hi]
    omega
  · have hi : i = 4 * (i / 4) + 1 := by omega
    rw [hm, congrArg (fun n => (f n).toNat) hi]
    omega
  · have hi : i = 4 * (i / 4) + 2 := by omega
    rw [hm, congrArg (fun n => (f n).toNat) hi]
    omega
  · have hi : i = 4 * (i / 4) + 3 := by omega
    rw [hm, congrArg (fun n => (f n).toNat) hi]
    omega

theorem byte_patch {i : Nat} (b : Block) (o : Nat) (src : List UInt8) (h : i < BSIZE) :
    byte (patch b o src) i =
      if o ≤ i ∧ i < o + src.length then src.getD (i - o) 0 else byte b i := by
  unfold patch
  rw [byte_ofBytes _ h]
  by_cases ho : o ≤ i
  · rw [if_pos ho]
    by_cases hl : i < o + src.length
    · have hlt : i - o < src.length := by omega
      rw [if_pos ⟨ho, hl⟩, getD_eq_getElem _ _ hlt, getD_eq_getElem _ _ hlt]
    · rw [if_neg fun e => hl e.2, getD_eq_default _ _ (by omega)]
  · rw [if_neg ho, if_neg fun e => ho e.1]

end Block

theorem ptrOf_inj {m n : Nat} {p : BlockPtr} (hm : ptrOf m = some p) (hn : ptrOf n = some p) :
    m = n := by
  unfold ptrOf at hm hn
  split at hm <;> split at hn
  · cases hm; cases hn; rfl
  · cases hm
    split at hn <;> cases hn
  · cases hn
    split at hm <;> cases hm
  · split at hm
    · split at hn
      · next hm₁ _ hn₁ _ =>
        cases hm
        have he := congrArg Fin.val (BlockPtr.entry.inj (Option.some.inj hn))
        dsimp only at he
        omega
      · cases hn
    · cases hm

theorem ptrOf_ne_indirect {n : Nat} {p : BlockPtr} (h : ptrOf n = some p) : p ≠ .indirect := by
  rintro rfl
  unfold ptrOf at h
  split at h
  · cases h
  · split at h <;> cases h

theorem ptrOf_isSome {n : Nat} : (ptrOf n).isSome ↔ n < NDIRECT + NINDIRECT := by
  unfold ptrOf
  split
  · simp; omega
  · split
    · simp; omega
    · simp; omega

namespace Disk

variable {sb : Super} {d d' : Disk} {ip ip' : Dinode} {inum i bn a b off : Nat} {p q : BlockPtr}

/-- Byte `k` of inode `i`. -/
def byteAt (d : Disk) (i k : Nat) : UInt8 :=
  (ptrOf (k / BSIZE)).elim 0 fun p => (d.block i p).byte (k % BSIZE)

theorem byteAt_congr {e : Disk} {k : Nat}
    (h : ∀ p, ptrOf (k / BSIZE) = some p → e.block i p = d.block i p) :
    e.byteAt i k = d.byteAt i k := by
  unfold byteAt
  cases hp : ptrOf (k / BSIZE) with
  | none => rfl
  | some p => simp only [Option.elim_some, h p hp]

theorem Grows.byteAt {ps : List BlockPtr} (h : Grows sb inum ps d d') (hi : d.Alloc sb i) (k : Nat) :
    d'.byteAt i k = d.byteAt i k :=
  byteAt_congr fun _ hp => h.block hi (ptrOf_ne_indirect hp)

/-! ### Writing a data block -/

section Write

variable {v : Block} (ho : d.Owned sb) (hi : d.Alloc sb inum) (hp : p ≠ .indirect)
  (ha : d.ptr inum p = a) (ha₀ : a ≠ 0)

include ho hi hp ha ha₀

/-- A data block of one inode is the indirect block of none. -/
theorem write_ptr (h : d.Alloc sb i) (q : BlockPtr) : (d.write a v).ptr i q = d.ptr i q := by
  cases q with
  | direct k => rfl
  | indirect => rfl
  | entry j =>
    have hne : (d.dinode i).addrs INDIRECT ≠ a := by
      intro e
      have hind : d.ptr i .indirect = a := e
      obtain ⟨-, h⟩ := ho.ptr_inj h hi (hind ▸ ha₀) (hind.trans ha.symm)
      exact hp h.symm
    have hdata : (d.write a v).data ((d.dinode i).addrs INDIRECT) =
      d.data ((d.dinode i).addrs INDIRECT) := Function.update_of_ne hne _ _
    show (if (d.dinode i).addrs INDIRECT = 0 then 0 else
      ((d.write a v).data ((d.dinode i).addrs INDIRECT) j).toNat) = _
    rw [hdata]
    rfl

theorem write_owned : (d.write a v).Owned sb :=
  Ledger.congr ho (fun ⟨i, q⟩ => by
    by_cases h : d.Alloc sb i
    · exact held_congr Iff.rfl (write_ptr ho hi hp ha ha₀ h q)
    · unfold held
      rw [if_neg fun e => h e.1, if_neg fun e => h e.1]) fun _ => Iff.rfl

theorem write_block_self : (d.write a v).block inum p = v := by
  unfold block
  rw [write_ptr ho hi hp ha ha₀ hi, ha, if_neg ha₀]
  exact Function.update_self _ _ _

theorem write_block_ne (h : d.Alloc sb i) (hne : (i, q) ≠ (inum, p)) :
    (d.write a v).block i q = d.block i q := by
  unfold block
  rw [write_ptr ho hi hp ha ha₀ h]
  split
  · rfl
  next hq =>
  refine Function.update_of_ne (fun e => hne ?_) _ _
  obtain ⟨rfl, rfl⟩ := ho.ptr_inj h hi hq (e.trans ha.symm)
  rfl

/-- **`memmove` into a block** of inode `inum`. -/
theorem write_byteAt {o : Nat} {src : List UInt8} (hbn : ptrOf bn = some p)
    (hv : v = (d.block inum p).patch o src) (hfit : o + src.length ≤ BSIZE) (k : Nat) :
    (d.write a v).byteAt inum k =
      if bn * BSIZE + o ≤ k ∧ k < bn * BSIZE + o + src.length then
        src.getD (k - (bn * BSIZE + o)) 0
      else d.byteAt inum k := by
  have hB : 0 < BSIZE := by decide
  by_cases e : k / BSIZE = bn
  · have hk : (d.write a v).byteAt inum k = v.byte (k % BSIZE) := by
      unfold byteAt
      rw [e, hbn, Option.elim_some, write_block_self ho hi hp ha ha₀]
    have hk' : d.byteAt inum k = (d.block inum p).byte (k % BSIZE) := by
      unfold byteAt
      rw [e, hbn, Option.elim_some]
    have hdm := div_add_mod k BSIZE
    rw [e, mul_comm] at hdm
    rw [hk, hk', hv, Block.byte_patch _ _ _ (mod_lt k hB)]
    have hiff : (o ≤ k % BSIZE ∧ k % BSIZE < o + src.length) ↔
        (bn * BSIZE + o ≤ k ∧ k < bn * BSIZE + o + src.length) := by omega
    have hsub : k % BSIZE - o = k - (bn * BSIZE + o) := by omega
    simp only [hiff, hsub]
  · rw [if_neg]
    · refine byteAt_congr fun q hq => write_block_ne ho hi hp ha ha₀ hi fun h => e ?_
      obtain ⟨-, rfl⟩ := Prod.mk.inj h
      exact ptrOf_inj hq hbn
    · rintro ⟨h₁, h₂⟩
      refine e (Nat.div_eq_of_lt_le (by omega) ?_)
      rw [Nat.succ_mul]
      omega

theorem write_byteAt_ne (h : d.Alloc sb i) (hne : i ≠ inum) (k : Nat) :
    (d.write a v).byteAt i k = d.byteAt i k :=
  byteAt_congr fun _ _ => write_block_ne ho hi hp ha ha₀ h fun e => hne (Prod.mk.inj e).1

end Write

/-! ### The loop of `writei` -/

/-- From `d` to `d'` the bytes `src` are written to inode `inum` at `off`. -/
structure Wrote (sb : Super) (inum off : Nat) (src : List UInt8) (d d' : Disk) : Prop where
  owned : d'.Owned sb
  dinode : ∀ i, i ≠ inum → d'.dinode i = d.dinode i
  fields : d'.dinode inum = { d.dinode inum with addrs := (d'.dinode inum).addrs }
  ptr : ∀ i q, d.Alloc sb i → d.ptr i q ≠ 0 → d'.ptr i q = d.ptr i q
  self : ∀ k, d'.byteAt inum k =
    if off ≤ k ∧ k < off + src.length then src.getD (k - off) 0 else d.byteAt inum k
  other : ∀ i, d.Alloc sb i → i ≠ inum → ∀ k, d'.byteAt i k = d.byteAt i k
  full : ∀ k, off ≤ k → k < off + src.length → ∃ p, ptrOf (k / BSIZE) = some p ∧ d'.ptr inum p ≠ 0

namespace Wrote

theorem type {src : List UInt8} (h : Wrote sb inum off src d d') (i : Nat) :
    (d'.dinode i).type = (d.dinode i).type := by
  by_cases e : i = inum
  · rw [e, h.fields]
  · rw [h.dinode i e]

theorem alloc {src : List UInt8} (h : Wrote sb inum off src d d') :
    d'.Alloc sb i ↔ d.Alloc sb i := by
  unfold Alloc
  rw [h.type i]

theorem nil (ho : d.Owned sb) : Wrote sb inum off [] d d where
  owned := ho
  dinode _ _ := rfl
  fields := rfl
  ptr _ _ _ _ := rfl
  self k := by
    rw [if_neg]
    rintro ⟨h₁, h₂⟩
    exact absurd h₂ (not_lt.mpr h₁)
  other _ _ _ _ := rfl
  full k h₁ h₂ := absurd h₂ (not_lt.mpr h₁)

/-- One write after another. -/
theorem append {s₁ s₂ : List UInt8} {d₁ : Disk} (h₁ : Wrote sb inum off s₁ d d₁)
    (h₂ : Wrote sb inum (off + s₁.length) s₂ d₁ d') (hi : d.Alloc sb inum) :
    Wrote sb inum off (s₁ ++ s₂) d d' where
  owned := h₂.owned
  dinode i hne := (h₂.dinode i hne).trans (h₁.dinode i hne)
  fields := by rw [h₂.fields, h₁.fields]
  ptr i q hi hq := by
    have hp := h₁.ptr i q hi hq
    exact (h₂.ptr i q (h₁.alloc.mpr hi) (by rw [hp]; exact hq)).trans hp
  self k := by
    rw [h₂.self, h₁.self, length_append]
    by_cases ha : off + s₁.length ≤ k ∧ k < off + s₁.length + s₂.length
    · rw [if_pos ha, if_pos (by omega), getD_append_right _ _ _ _ (by omega)]
      congr 1
      omega
    rw [if_neg ha]
    by_cases hb : off ≤ k ∧ k < off + s₁.length
    · rw [if_pos hb, if_pos (by omega), getD_append _ _ _ _ (by omega)]
    · rw [if_neg hb, if_neg (by omega)]
  other i hi hne k := (h₂.other i (h₁.alloc.mpr hi) hne k).trans (h₁.other i hi hne k)
  full k hlo hhi := by
    by_cases hk : k < off + s₁.length
    · obtain ⟨p, hp, hp₀⟩ := h₁.full k hlo hk
      refine ⟨p, hp, ?_⟩
      rw [h₂.ptr inum p (h₁.alloc.mpr hi) hp₀]
      exact hp₀
    · rw [length_append] at hhi
      exact h₂.full k (by omega) (by omega)

end Wrote

/-- What is left of a run of bytes in the block that `off` is in. -/
theorem take_min_length (off : Nat) (src : List UInt8) :
    (src.take (min src.length (BSIZE - off % BSIZE))).length =
      min src.length (BSIZE - off % BSIZE) := by
  rw [length_take]
  omega

/-- **One pass** of the loop of `writei`. -/
theorem wrote_pass (src : List UInt8) (ho : (d.put inum ip).Owned sb) (hi : inum < sb.ninodes)
    (ht : ip.type ≠ .free) (hb : d.bmap sb ip (off / BSIZE) = .ok (a, ip', d')) :
    Wrote sb inum off (src.take (min src.length (BSIZE - off % BSIZE))) (d.put inum ip)
      ((d'.write a (Block.patch (d'.data a) (off % BSIZE)
        (src.take (min src.length (BSIZE - off % BSIZE))))).put inum ip') := by
  obtain ⟨p, hp, hpi, hg, ha, ha₀, -⟩ := bmap_spec ho hi ht hb
  obtain ⟨hd, hip⟩ := bmap_fields hb
  have hmem := put_alloc_self (d := d) hi ht
  have hmem' := hg.alloc.mpr hmem
  have ho' := hg.owned ho hmem
  have hlen := take_min_length off src
  set s := src.take (min src.length (BSIZE - off % BSIZE))
  have hblock : d'.data a = (d'.put inum ip').block inum p := by
    unfold block
    rw [ha, if_neg ha₀]
    rfl
  have hB : off % BSIZE < BSIZE := mod_lt _ (by decide)
  have hoff : off / BSIZE * BSIZE + off % BSIZE = off := div_add_mod' off BSIZE
  -- writing the block commutes with putting the inode in its place
  show Wrote sb inum off s (d.put inum ip)
    ((d'.put inum ip').write a (Block.patch (d'.data a) (off % BSIZE) s))
  refine ⟨write_owned ho' hmem' hpi ha ha₀, fun i hne => ?_, ?_, fun i q hq hq₀ => ?_,
    fun k => ?_, fun i hi hne k => ?_, fun k hlo hhi => ?_⟩
  · show (d'.put inum ip').dinode i = _
    rw [put_ne hne, put_ne hne, hd]
  · show (d'.put inum ip').dinode inum =
      { (d.put inum ip).dinode inum with addrs := ((d'.put inum ip').dinode inum).addrs }
    rw [put_self, put_self]
    exact hip
  · rw [write_ptr ho' hmem' hpi ha ha₀ (hg.alloc.mpr hq)]
    exact hg.ptr hq hq₀
  · rw [write_byteAt ho' hmem' hpi ha ha₀ hp (congrArg (Block.patch · _ s) hblock) (by omega), hoff,
      hg.byteAt hmem]
  · rw [write_byteAt_ne ho' hmem' hpi ha ha₀ (hg.alloc.mpr hi) hne, hg.byteAt hi]
  · have hk : k / BSIZE = off / BSIZE := by
      refine Nat.div_eq_of_lt_le (by omega) ?_
      rw [Nat.succ_mul]
      omega
    refine ⟨p, by rw [hk]; exact hp, ?_⟩
    rw [write_ptr ho' hmem' hpi ha ha₀ hmem', ha]
    exact ha₀

/-- **The loop of `writei`, pass by pass.** -/
@[elab_as_elim]
theorem writeLoop_induction {M : Nat → Disk → Dinode → Nat → List UInt8 → Prop}
    (hi : inum < sb.ninodes) (done : ∀ {fuel off}, (d'.put inum ip').Owned sb → M fuel d' ip' off [])
    (pass : ∀ {fuel d ip off src a ip₁ d₁}, let m := min src.length (BSIZE - off % BSIZE)
      let d₂ := d₁.write a (Block.patch (d₁.data a) (off % BSIZE) (src.take m))
      0 < src.length → (d.put inum ip).Owned sb → ip.type ≠ .free →
      d.bmap sb ip (off / BSIZE) = .ok (a, ip₁, d₁) → (src.drop m).length ≤ fuel →
      ip₁.type ≠ .free → d₂.writeLoop sb fuel ip₁ (off + m) (src.drop m) = .ok (ip', d') →
      M fuel d₂ ip₁ (off + m) (src.drop m) → M (fuel + 1) d ip off src) :
    ∀ {fuel d ip off src}, src.length ≤ fuel → (d.put inum ip).Owned sb → ip.type ≠ .free →
      d.writeLoop sb fuel ip off src = .ok (ip', d') → M fuel d ip off src
  | 0, d, ip, off, src, hf, ho, ht, h => by
    obtain rfl := length_eq_zero_iff.mp (le_zero.mp hf)
    cases h
    exact done ho
  | fuel + 1, d, ip, off, src, hf, ho, ht, h => by
    rw [writeLoop] at h
    split at h
    · next h₀ =>
      subst h₀
      cases h
      exact done ho
    next h₀ =>
    obtain ⟨⟨a, ip₁, d₁⟩, hb, h⟩ := of_bind h
    have hpos : 0 < src.length := length_pos_iff.mpr h₀
    have hB : off % BSIZE < BSIZE := mod_lt _ (by decide)
    have ht₁ : ip₁.type ≠ .free := by rw [(bmap_fields hb).2]; exact ht
    have hrest : (src.drop (min src.length (BSIZE - off % BSIZE))).length ≤ fuel := by
      rw [length_drop]
      omega
    exact pass hpos ho ht hb hrest ht₁ h
      (writeLoop_induction hi done pass hrest (wrote_pass src ho hi ht hb).owned ht₁ h)

variable {fuel : Nat} {src : List UInt8} (hi : inum < sb.ninodes) (hf : src.length ≤ fuel)
  (ho : (d.put inum ip).Owned sb) (ht : ip.type ≠ .free)

include hi hf ho ht

/-- **The loop of `writei`.** -/
theorem writeLoop_wrote (h : d.writeLoop sb fuel ip off src = .ok (ip', d')) :
    Wrote sb inum off src (d.put inum ip) (d'.put inum ip') ∧ d'.dinode = d.dinode := by
  refine writeLoop_induction hi (fun ho => ⟨.nil ho, rfl⟩) ?_ hf ho ht h
  intro fuel d ip off src a ip₁ d₁ m d₂ _ ho ht hb _ _ _ ⟨hrest, hd⟩
  have hlen : (src.take m).length = m := take_min_length off src
  have happ := (wrote_pass src ho hi ht hb).append (by rw [hlen]; exact hrest)
    (put_alloc_self hi ht)
  rw [take_append_drop] at happ
  exact ⟨happ, hd.trans (bmap_fields hb).1⟩

/-- Where every block is there already the inode stays as it is. -/
theorem writeLoop_same (hfull : ∀ k, off ≤ k → k < off + src.length → ∀ p,
      ptrOf (k / BSIZE) = some p → (d.put inum ip).ptr inum p ≠ 0)
    (h : d.writeLoop sb fuel ip off src = .ok (ip', d')) : ip' = ip := by
  revert hfull
  refine writeLoop_induction hi (fun _ _ => rfl) ?_ hf ho ht h
  intro fuel d ip off src a ip₁ d₁ m d₂ hpos ho ht hb _ _ _ ih hfull
  have hpass := wrote_pass src ho hi ht hb
  obtain ⟨p, hp, -, -, -, -, hsame⟩ := bmap_spec ho hi ht hb
  obtain ⟨rfl, rfl⟩ := hsame (hfull off (le_refl _) (by omega) p hp)
  refine ih fun k hlo hhi q hq => ?_
  rw [length_drop] at hhi
  have hq₀ := hfull k (by omega) (by omega) q hq
  rw [hpass.ptr inum q (put_alloc_self hi ht) hq₀]
  exact hq₀

omit hi hf ho ht

/-! ### The loop of `readi` -/

/-- `bmap` of a block that is there. -/
theorem bmap_of_ptr (hp : ptrOf bn = some p) (h₀ : (d.put inum ip).ptr inum p ≠ 0) :
    d.bmap sb ip bn = .ok ((d.put inum ip).ptr inum p, ip, d) := by
  unfold ptrOf at hp
  unfold bmap addr
  split at hp
  · next hbn =>
    cases hp
    simp only [ptr, put_self] at h₀ ⊢
    rw [dif_pos hbn]
    exact if_neg h₀
  · next hbn =>
    split at hp
    · next hj =>
      cases hp
      simp only [ptr, put_self] at h₀ ⊢
      have hi₀ : ip.addrs INDIRECT ≠ 0 := fun e => h₀ (if_pos e)
      rw [if_neg hi₀] at h₀
      have hne : d.data (ip.addrs INDIRECT) ⟨bn - NDIRECT, hj⟩ ≠ 0 := fun e => h₀ (by
        show (d.data (ip.addrs INDIRECT) ⟨bn - NDIRECT, hj⟩).toNat = 0
        rw [e]
        rfl)
      rw [dif_neg hbn, dif_pos hj, if_neg hi₀, if_neg hi₀]
      simp only [Res.ok_bind, if_neg hne]
      rfl
    · cases hp

/-- **The loop of `readi`** over blocks that are there. -/
theorem readLoop_eq (sb : Super) (d : Disk) (inum : Nat) (ip : Dinode) :
    ∀ (fuel off n : Nat), n ≤ fuel → (∀ k, off ≤ k → k < off + n → ∃ p, ptrOf (k / BSIZE) = some p ∧
      (d.put inum ip).ptr inum p ≠ 0) →
    d.readLoop sb fuel ip off n = .ok ((range' off n).map ((d.put inum ip).byteAt inum), ip, d)
  | 0, off, n, hf, _ => by
    obtain rfl := le_zero.mp hf
    rfl
  | fuel + 1, off, n, hf, hfull => by
    rw [readLoop]
    split
    · next h₀ => subst h₀; rfl
    next h₀ =>
    obtain ⟨p, hp, hp₀⟩ := hfull off (le_refl _) (by omega)
    have hB : off % BSIZE < BSIZE := mod_lt _ (by decide)
    have hoff : off / BSIZE * BSIZE + off % BSIZE = off := div_add_mod' off BSIZE
    set m := min n (BSIZE - off % BSIZE) with hm
    rw [bmap_of_ptr hp hp₀]
    simp only [Res.ok_bind]
    rw [readLoop_eq sb d inum ip fuel (off + m) (n - m) (by omega)
      fun k hlo hhi => hfull k (by omega) (by omega)]
    simp only [Res.ok_bind]
    -- the bytes of this block
    have hblock : d.data ((d.put inum ip).ptr inum p) = (d.put inum ip).block inum p := by
      unfold block
      rw [if_neg hp₀]
      rfl
    have hfirst : (range' (off % BSIZE) m).map (Block.byte (d.data ((d.put inum ip).ptr inum p))) =
          (range' off m).map ((d.put inum ip).byteAt inum) := by
      rw [range'_eq_map_range, range'_eq_map_range, map_map, map_map]
      refine map_congr_left fun x hx => ?_
      have hx : x < m := mem_range.mp hx
      have hdiv : (off + x) / BSIZE = off / BSIZE := by
        refine Nat.div_eq_of_lt_le (by omega) ?_
        rw [Nat.succ_mul]
        omega
      have hmod : (off + x) % BSIZE = off % BSIZE + x := by
        have := div_add_mod' (off + x) BSIZE
        rw [hdiv] at this
        omega
      simp only [Function.comp, byteAt, hdiv, hmod, hp, Option.elim_some, hblock]
    have hsplit : range' off n = range' off m ++ range' (off + m) (n - m) := by
      rw [range'_append_1]
      congr 1
      omega
    rw [hfirst, hsplit, map_append]
    rfl

end Disk

end Xv6
