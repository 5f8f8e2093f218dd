import Xv6.Fs.Disk
import Xv6.Lib.Ledger

/-!
# Fs — Owner

Which inode owns which block.  A block in use is a metadata block, or one pointer of one inode
points to it: a direct one, the pointer to the indirect block, or an entry of that block (`Owned`).

`bmap` changes a file in steps that give one pointer a free block (`Takes`); it makes none, one, or
two of them (`bmap_spec`).  During `readi` and `writei` the inode in memory is ahead of the inode on
the disk, so the steps are stated on the disk with the inode in memory put in its place
(`Disk.put`).
-/

namespace Xv6

open Lib Function

/-- A pointer of an inode to a block. -/
inductive BlockPtr where
  | direct (k : Fin NDIRECT)
  | indirect
  | entry (j : Fin NINDIRECT)
  deriving DecidableEq

/-- The pointer to block `bn` of a file. -/
def ptrOf (bn : Nat) : Option BlockPtr :=
  if h : bn < NDIRECT then some (.direct ⟨bn, h⟩)
  else if h : bn - NDIRECT < NINDIRECT then some (.entry ⟨bn - NDIRECT, h⟩)
  else none

/-- The pointer in `addrs[k]`. -/
def BlockPtr.ofAddr (k : Fin (NDIRECT + 1)) : BlockPtr := Fin.lastCases .indirect .direct k

@[simp] theorem BlockPtr.ofAddr_indirect : BlockPtr.ofAddr INDIRECT = .indirect := Fin.lastCases_last

@[simp] theorem BlockPtr.ofAddr_direct (k : Fin NDIRECT) : BlockPtr.ofAddr k.castSucc = .direct k :=
  Fin.lastCases_castSucc _

namespace Disk

variable {sb : Super} {d d' e : Disk} {ip ip' v : Dinode} {inum i bn a b : Nat} {p q : BlockPtr}
  {k : Fin (NDIRECT + 1)}

/-- The block that a pointer of inode `i` points to, or 0. -/
def ptr (d : Disk) (i : Nat) : BlockPtr → Nat
  | .direct k => (d.dinode i).addrs k.castSucc
  | .indirect => (d.dinode i).addrs INDIRECT
  | .entry j =>
    if (d.dinode i).addrs INDIRECT = 0 then 0
    else (d.data ((d.dinode i).addrs INDIRECT) j).toNat

@[simp] theorem ptr_ofAddr (d : Disk) (i : Nat) (k : Fin (NDIRECT + 1)) :
    d.ptr i (BlockPtr.ofAddr k) = (d.dinode i).addrs k := by
  cases k using Fin.lastCases with
  | last => exact congrArg (d.ptr i) BlockPtr.ofAddr_indirect
  | cast k => rw [BlockPtr.ofAddr_direct]; rfl

/-- Inode `i` is allocated. -/
def Alloc (sb : Super) (d : Disk) (i : Nat) : Prop := i < sb.ninodes ∧ (d.dinode i).type ≠ .free

instance : Decidable (d.Alloc sb i) := inferInstanceAs (Decidable (_ ∧ _))

/-- What a pointer of an allocated inode points to. -/
def held (sb : Super) (d : Disk) (x : Nat × BlockPtr) : Option Nat :=
  if d.Alloc sb x.1 ∧ d.ptr x.1 x.2 ≠ 0 then some (d.ptr x.1 x.2) else none

/-- The bitmap is exact. -/
def Owned (sb : Super) (d : Disk) : Prop :=
  Ledger (· < sb.size) (· < sb.nmeta) (fun b => d.bitmap b = true) (d.held sb)

/-- The block that a pointer points to; zeros if there is none. -/
def block (d : Disk) (i : Nat) (q : BlockPtr) : Block :=
  if d.ptr i q = 0 then Block.zero else d.data (d.ptr i q)

/-- The disk with the inode `inum` replaced by `ip`. -/
def put (d : Disk) (inum : Nat) (ip : Dinode) : Disk :=
  { d with dinode := update d.dinode inum ip }

@[simp] theorem put_self (d : Disk) (inum : Nat) (ip : Dinode) :
    (d.put inum ip).dinode inum = ip := update_self _ _ _

theorem put_ne {d : Disk} {ip : Dinode} (h : i ≠ inum) :
    (d.put inum ip).dinode i = d.dinode i := update_of_ne h _ _

@[simp] theorem iupdate_self (sb : Super) (d : Disk) (inum : Nat) (ip : Dinode) :
    (d.iupdate sb inum ip).dinode inum = ip := update_self _ _ _

theorem put_dinode (d : Disk) (inum : Nat) : d.put inum (d.dinode inum) = d := by
  simp [put]

/-! ### What `Owned` says -/

theorem held_eq_some : d.held sb (i, q) = some b ↔ d.Alloc sb i ∧ b ≠ 0 ∧ d.ptr i q = b := by
  unfold held
  split
  · next h =>
    rw [Option.some_inj]
    exact ⟨fun e => ⟨h.1, e ▸ h.2, e⟩, fun e => e.2.2⟩
  next h =>
  refine ⟨fun e => (Option.some_ne_none b e.symm).elim, fun e => absurd ⟨e.1, ?_⟩ h⟩
  show d.ptr i q ≠ 0
  rw [e.2.2]
  exact e.2.1

theorem held_of_ptr (hi : d.Alloc sb i) (h : d.ptr i q ≠ 0) :
    d.held sb (i, q) = some (d.ptr i q) := held_eq_some.mpr ⟨hi, h, rfl⟩

theorem held_congr (ha : e.Alloc sb i ↔ d.Alloc sb i) (hp : e.ptr i q = d.ptr i q) :
    e.held sb (i, q) = d.held sb (i, q) := by
  unfold held
  simp only [ha, hp]

/-- A pointer points into the data blocks. -/
theorem Owned.range (h : d.Owned sb) (hi : d.Alloc sb i) (hp : d.ptr i q ≠ 0) :
    sb.nmeta ≤ d.ptr i q ∧ d.ptr i q < sb.size :=
  ⟨Nat.not_lt.mp (h.not_fixed (held_of_ptr hi hp)), h.mem_dom (held_of_ptr hi hp)⟩

/-- Two pointers to one block are the same pointer of the same inode. -/
theorem Owned.ptr_inj {j : Nat} (h : d.Owned sb) (hi : d.Alloc sb i) (hj : d.Alloc sb j)
    (hp : d.ptr i p ≠ 0) (he : d.ptr i p = d.ptr j q) : i = j ∧ p = q := by
  have hx := held_of_ptr hi hp
  have hy : d.held sb (j, q) = some (d.ptr i p) := held_eq_some.mpr ⟨hj, hp, he.symm⟩
  exact Prod.ext_iff.mp (h.inj hx hy)

/-- A free block is a data block that nothing points to. -/
theorem Owned.free (h : d.Owned sb) (hb : b < sb.size) (hf : d.bitmap b = false) :
    b ≠ 0 ∧ ∀ i q, d.Alloc sb i → d.ptr i q ≠ b := by
  have hu : ¬ (d.bitmap b = true) := by simp [hf]
  have h₀ : b ≠ 0 := by
    rintro rfl
    exact hu ((h.used_iff hb).mpr (.inl (sb.nmeta_pos)))
  refine ⟨h₀, fun i q hi e => h.not_held hb hu (i, q) (held_eq_some.mpr ⟨hi, h₀, e⟩)⟩

/-! ### A pointer gets a block -/

/-- What `log_write` is called on when pointer `p` gets block `b`. -/
def takeLog (sb : Super) (ind : Nat) : BlockPtr → Nat → List Nat
  | .entry _, b => [ind, b, sb.bblock b]
  | _, b => [b, sb.bblock b]

/-- Pointer `p` of inode `inum` gets the free block `b`, with zeros. -/
structure Takes (sb : Super) (inum : Nat) (p : BlockPtr) (b : Nat) (d d' : Disk) : Prop where
  lt : b < sb.size
  free : d.bitmap b = false
  bitmap : d'.bitmap = update d.bitmap b true
  dinode : ∀ i, i ≠ inum → d'.dinode i = d.dinode i
  fields : d'.dinode inum = { d.dinode inum with addrs := (d'.dinode inum).addrs }
  was : d.ptr inum p = 0
  self : d'.ptr inum p = b
  ne : ∀ i q, d.Alloc sb i → (i, q) ≠ (inum, p) → d'.ptr i q = d.ptr i q
  block : ∀ i q, d.Alloc sb i → q ≠ .indirect → d'.block i q = d.block i q
  logged : d'.logged = takeLog sb (d'.ptr inum .indirect) p b ++ d.logged

namespace Takes

theorem type (h : Takes sb inum p b d d') (i : Nat) : (d'.dinode i).type = (d.dinode i).type := by
  by_cases e : i = inum
  · rw [e, h.fields]
  · rw [h.dinode i e]

theorem alloc (h : Takes sb inum p b d d') : d'.Alloc sb i ↔ d.Alloc sb i := by
  unfold Alloc
  rw [h.type i]

/-- A pointer that had a block keeps it. -/
theorem ptr_of_ne_zero (h : Takes sb inum p b d d') (hi : d.Alloc sb i) (hq : d.ptr i q ≠ 0) :
    d'.ptr i q = d.ptr i q := by
  refine h.ne i q hi fun e => hq ?_
  obtain ⟨rfl, rfl⟩ := Prod.mk.inj e
  exact h.was

/-- **The bitmap stays exact.** -/
theorem owned (h : Takes sb inum p b d d') (ho : d.Owned sb) (hi : d.Alloc sb inum) :
    d'.Owned sb := by
  have hb := (ho.free h.lt h.free).1
  refine Ledger.take ho (p := (inum, p)) (o := b) ?_ h.lt (by simp [h.free]) ?_ ?_ ?_
  · show d.held sb (inum, p) = none
    simp [held, h.was]
  · exact held_eq_some.mpr ⟨h.alloc.mpr hi, hb, h.self⟩
  · rintro ⟨i, q⟩ hne
    by_cases ha : d.Alloc sb i
    · exact held_congr h.alloc (h.ne i q ha hne)
    · unfold held
      rw [if_neg fun e => ha (h.alloc.mp e.1), if_neg fun e => ha e.1]
  · intro b'
    rw [h.bitmap]
    by_cases e : b' = b
    · subst e; simp
    · simp [e]

end Takes

theorem firstFree_some : ∀ {left : Nat} {b₀ : Nat}, firstFree d.bitmap left b₀ = some b →
    b < b₀ + left ∧ d.bitmap b = false
  | 0, _, h => by cases h
  | left + 1, b₀, h => by
    rw [firstFree] at h
    split at h
    · obtain ⟨hlt, hf⟩ := firstFree_some h
      exact ⟨by omega, hf⟩
    · next hb =>
      cases h
      exact ⟨by omega, by simpa using hb⟩

theorem balloc_eq_ok (h : d.balloc sb = .ok (b, d')) :
    b < sb.size ∧ d.bitmap b = false ∧ d' = (d.setBit sb b true).bzero b := by
  unfold balloc at h
  split at h
  · next b' hb =>
    cases h
    obtain ⟨hlt, hf⟩ := firstFree_some hb
    exact ⟨by omega, hf, rfl⟩
  · cases h

theorem put_alloc_self (hi : inum < sb.ninodes) (ht : ip.type ≠ .free) :
    (d.put inum ip).Alloc sb inum := ⟨hi, by rw [put_self]; exact ht⟩

/-- An entry of `addrs` gets a block. -/
theorem takes_addr (ho : (d.put inum ip).Owned sb) (h₀ : ip.addrs k = 0)
    (hb : d.balloc sb = .ok (b, d')) :
    Takes sb inum (BlockPtr.ofAddr k) b (d.put inum ip) (d'.put inum (ip.setAddr k b)) := by
  obtain ⟨hlt, hf, rfl⟩ := balloc_eq_ok hb
  obtain ⟨hb₀, hfree⟩ := ho.free hlt hf
  have hdata : ∀ c, c ≠ b → (((d.setBit sb b true).bzero b).data c) = d.data c :=
    fun c hc => update_of_ne hc _ _
  have hself : (((d.setBit sb b true).bzero b).put inum (ip.setAddr k b)).ptr inum
      (BlockPtr.ofAddr k) = b := by
    rw [ptr_ofAddr, put_self]
    exact update_self _ _ _
  have hne : ∀ i q, (d.put inum ip).Alloc sb i → (i, q) ≠ (inum, BlockPtr.ofAddr k) →
      (((d.setBit sb b true).bzero b).put inum (ip.setAddr k b)).ptr i q =
        (d.put inum ip).ptr i q := by
    intro i q hi hne
    by_cases e : i = inum
    · subst e
      -- the other entries of `addrs`, and the entries of an indirect block
      have haddr : ∀ k', BlockPtr.ofAddr k' ≠ BlockPtr.ofAddr k →
          (ip.setAddr k b).addrs k' = ip.addrs k' :=
        fun k' hk => update_of_ne (fun e => hk (congrArg _ e)) _ _
      have hq : q ≠ BlockPtr.ofAddr k := fun e => hne (by rw [e])
      cases q with
      | direct | indirect =>
        simp only [ptr, put_self]
        exact haddr _ (by simpa using hq)
      | entry j =>
        simp only [ptr, put_self]
        by_cases ek : k = INDIRECT
        · -- a new indirect block has no entries
          subst ek
          rw [h₀, if_pos rfl]
          simp [Dinode.setAddr, put, bzero, write, Block.zero]
        have hk : (ip.setAddr k b).addrs INDIRECT = ip.addrs INDIRECT :=
          update_of_ne (Ne.symm ek) _ _
        rw [hk]
        split
        · rfl
        · have hfr := hfree i .indirect hi
          simp only [ptr, put_self] at hfr
          exact congrArg (fun v : Block => (v j).toNat) (hdata _ hfr)
    · have hfr := hfree i .indirect hi
      simp only [ptr, put_ne e] at hfr
      cases q with
      | direct | indirect => simp only [ptr, put_ne e]; rfl
      | entry j =>
        simp only [ptr, put_ne e]
        show (if (d.dinode i).addrs INDIRECT = 0 then 0 else
          (((d.setBit sb b true).bzero b).data ((d.dinode i).addrs INDIRECT) j).toNat) = _
        rw [hdata _ hfr]
        rfl
  refine ⟨hlt, hf, rfl, fun i hi => ?_, ?_, ?_, hself, hne, fun i q hi hq => ?_, ?_⟩
  · rw [put_ne hi, put_ne hi]; rfl
  · rw [put_self, put_self]; rfl
  · rw [ptr_ofAddr, put_self]; exact h₀
  · unfold block
    by_cases e : (i, q) = (inum, BlockPtr.ofAddr k)
    · obtain ⟨rfl, rfl⟩ := Prod.mk.inj e
      have hz : (d.put i ip).ptr i (BlockPtr.ofAddr k) = 0 := by rw [ptr_ofAddr, put_self]; exact h₀
      rw [hself, hz, if_pos rfl, if_neg hb₀]
      exact update_self _ _ _
    rw [hne i q hi e]
    split
    · rfl
    · exact hdata _ (hfree i q hi)
  · cases k using Fin.lastCases with
    | last => exact congrArg (fun p => takeLog sb _ p b ++ d.logged) BlockPtr.ofAddr_indirect.symm
    | cast k => rw [BlockPtr.ofAddr_direct]; rfl

/-- An entry of the indirect block gets a block. -/
theorem takes_entry {j : Fin NINDIRECT} (ho : (d.put inum ip).Owned sb) (hi : inum < sb.ninodes)
    (ht : ip.type ≠ .free) (hind : ip.addrs INDIRECT ≠ 0) (h₀ : d.data (ip.addrs INDIRECT) j = 0)
    (hb : d.balloc sb = .ok (b, d')) : Takes sb inum (.entry j) b (d.put inum ip)
      ((d'.write (ip.addrs INDIRECT)
        (update (d.data (ip.addrs INDIRECT)) j (UInt32.ofNat b))).put inum ip) := by
  obtain ⟨hlt, hf, rfl⟩ := balloc_eq_ok hb
  obtain ⟨hb₀, hfree⟩ := ho.free hlt hf
  have hself := put_alloc_self (d := d) hi ht
  set E := d.put inum ip with hE
  set ind := ip.addrs INDIRECT with hindE
  have hptr : E.ptr inum .indirect = ind := by simp only [hE, ptr, put_self, hindE]
  have hib : ind ≠ b := hptr ▸ hfree inum .indirect hself
  set v := update (d.data ind) j (UInt32.ofNat b)
  set D := ((d.setBit sb b true).bzero b).write ind v with hD
  have hdata : ∀ c, c ≠ b → c ≠ ind → D.data c = d.data c := fun c hcb hci => by
    rw [hD]
    exact (update_of_ne hci _ _).trans (update_of_ne hcb _ _)
  have hDind : D.data ind = v := update_self _ _ _
  have hDb : D.data b = Block.zero :=
    (update_of_ne hib.symm _ _).trans (update_self _ _ _)
  have hbval : (UInt32.ofNat b).toNat = b :=
    UInt32.toNat_ofNat_of_lt (Nat.lt_trans hlt (Nat.lt_trans sb.size_lt (by decide)))
  -- no pointer but the one of `inum` points to its indirect block
  have hothers : ∀ i q, E.Alloc sb i → (i, q) ≠ (inum, BlockPtr.indirect) → E.ptr i q ≠ ind :=
    fun i q hi hne e => hne (Prod.ext_iff.mpr (ho.ptr_inj (p := q) (q := .indirect) hi hself
      (by rw [e]; exact hind) (e.trans hptr.symm)))
  have hval : (D.put inum ip).ptr inum (.entry j) = b := by
    simp only [ptr, put_self]
    rw [if_neg hind]
    show (D.data ind j).toNat = b
    rw [hDind]
    show (update (d.data ind) j (UInt32.ofNat b) j).toNat = b
    rw [update_self]
    exact hbval
  have hne : ∀ i q, E.Alloc sb i → (i, q) ≠ (inum, .entry j) →
      (D.put inum ip).ptr i q = E.ptr i q := by
    intro i q hi hne
    by_cases e : i = inum
    · subst e
      cases q with
      | direct l => rfl
      | indirect => rfl
      | entry l =>
        have hl : l ≠ j := fun e => hne (by rw [e])
        simp only [hE, ptr, put_self]
        rw [if_neg hind, if_neg hind]
        show (D.data ind l).toNat = (d.data ind l).toNat
        rw [hDind]
        exact congrArg UInt32.toNat (update_of_ne hl _ _)
    · cases q with
      | direct | indirect => simp only [hE, ptr, put_ne e]; rfl
      | entry l =>
        have hfr := hfree i .indirect hi
        have hot := hothers i .indirect hi (fun h => e (Prod.mk.inj h).1)
        simp only [hE, ptr, put_ne e] at hfr hot ⊢
        show (if (d.dinode i).addrs INDIRECT = 0 then 0 else
          (D.data ((d.dinode i).addrs INDIRECT) l).toNat) = _
        rw [hdata _ hfr hot]
        rfl
  refine ⟨hlt, hf, rfl, fun i hi => ?_, ?_, ?_, hval, hne, fun i q hi hq => ?_, ?_⟩
  · rw [put_ne hi, hE, put_ne hi]; rfl
  · rw [hE, put_self, put_self]
  · simp only [hE, ptr, put_self]
    rw [if_neg hind]
    show (d.data ind j).toNat = 0
    rw [h₀]
    rfl
  · unfold block
    by_cases e : (i, q) = (inum, .entry j)
    · obtain ⟨rfl, rfl⟩ := Prod.mk.inj e
      have hz : E.ptr i (.entry j) = 0 := by
        simp only [hE, ptr, put_self]
        rw [if_neg hind]
        show (d.data ind j).toNat = 0
        rw [h₀]
        rfl
      rw [hval, hz, if_pos rfl, if_neg hb₀]
      exact hDb
    · rw [hne i q hi e]
      split
      · rfl
      · exact hdata _ (hfree i q hi) (hothers i q hi fun h => hq (Prod.mk.inj h).2)
  · have hind' : (D.put inum ip).ptr inum .indirect = ind := by
      simp only [ptr, put_self, hindE]
    rw [hind']
    rfl

/-! ### `bmap` -/

/-- The pointers `ps` of inode `inum` get blocks, one after the other. -/
inductive Grows (sb : Super) (inum : Nat) : List BlockPtr → Disk → Disk → Prop where
  | refl (d : Disk) : Grows sb inum [] d d
  | more {p : BlockPtr} {b : Nat} {ps : List BlockPtr} {d d₁ d' : Disk}
      (h : Takes sb inum p b d d₁) (r : Grows sb inum ps d₁ d') : Grows sb inum (p :: ps) d d'

namespace Grows

variable {ps : List BlockPtr}

theorem one (h : Takes sb inum p b d d') : Grows sb inum [p] d d' := .more h (.refl _)

theorem alloc (h : Grows sb inum ps d d') : d'.Alloc sb i ↔ d.Alloc sb i := by
  induction h with
  | refl => exact Iff.rfl
  | more h _ ih => exact ih.trans h.alloc

theorem owned (h : Grows sb inum ps d d') (ho : d.Owned sb) (hi : d.Alloc sb inum) :
    d'.Owned sb := by
  induction h with
  | refl => exact ho
  | more h _ ih => exact ih (h.owned ho hi) (h.alloc.mpr hi)

theorem ptr (h : Grows sb inum ps d d') (hi : d.Alloc sb i) (hq : d.ptr i q ≠ 0) :
    d'.ptr i q = d.ptr i q := by
  induction h with
  | refl => rfl
  | more h _ ih =>
    have h₁ := h.ptr_of_ne_zero hi hq
    exact (ih (h.alloc.mpr hi) (by rw [h₁]; exact hq)).trans h₁

theorem block (h : Grows sb inum ps d d') (hi : d.Alloc sb i) (hq : q ≠ .indirect) :
    d'.block i q = d.block i q := by
  induction h with
  | refl => rfl
  | more h _ ih => exact (ih (h.alloc.mpr hi)).trans (h.block i q hi hq)

end Grows

/-- The pointers that `bmap` has to fill to reach the block behind `p`. -/
def missing (d : Disk) (inum : Nat) : BlockPtr → List BlockPtr
  | .entry j =>
    if d.ptr inum .indirect = 0 then [.indirect, .entry j]
    else if d.ptr inum (.entry j) = 0 then [.entry j] else []
  | p => if d.ptr inum p = 0 then [p] else []

theorem missing_of_ne_zero (h : d.ptr inum p ≠ 0) : d.missing inum p = [] := by
  cases p with
  | direct k => exact if_neg h
  | indirect => exact if_neg h
  | entry j =>
    have hind : d.ptr inum .indirect ≠ 0 := fun e => h (if_pos e)
    rw [missing, if_neg hind, if_neg h]

/-- What is left of the disk's inodes, and of the fields of the inode, by `addr` and `bmap`. -/
theorem addr_fields (h : d.addr sb ip k = .ok (a, ip', d')) :
    d'.dinode = d.dinode ∧ ip' = { ip with addrs := ip'.addrs } := by
  unfold addr at h
  split at h
  · obtain ⟨⟨b, d₁⟩, hb, h⟩ := of_bind h
    cases h
    obtain ⟨-, -, rfl⟩ := balloc_eq_ok hb
    exact ⟨rfl, rfl⟩
  · cases h
    exact ⟨rfl, rfl⟩

theorem bmap_fields (h : d.bmap sb ip bn = .ok (a, ip', d')) :
    d'.dinode = d.dinode ∧ ip' = { ip with addrs := ip'.addrs } := by
  unfold bmap at h
  split at h
  · exact addr_fields h
  split at h
  · obtain ⟨⟨b, ip₁, d₁⟩, h₁, h⟩ := of_bind h
    obtain ⟨hd, hip⟩ := addr_fields h₁
    dsimp only at h
    split at h
    · obtain ⟨⟨c, d₂⟩, hb, h⟩ := of_bind h
      cases h
      obtain ⟨-, -, rfl⟩ := balloc_eq_ok hb
      exact ⟨hd, hip⟩
    · cases h
      exact ⟨hd, hip⟩
  · cases h

theorem addr_grows (ho : (d.put inum ip).Owned sb) (h : d.addr sb ip k = .ok (a, ip', d')) :
    Grows sb inum (if ip.addrs k = 0 then [BlockPtr.ofAddr k] else []) (d.put inum ip)
      (d'.put inum ip') ∧ ip'.addrs k = a ∧ a ≠ 0 ∧ (ip.addrs k ≠ 0 → ip' = ip ∧ d' = d) := by
  unfold addr at h
  split at h
  · next h₀ =>
    obtain ⟨⟨b, d₁⟩, hb, h⟩ := of_bind h
    cases h
    have hT := takes_addr ho h₀ hb
    rw [if_pos h₀]
    exact ⟨.one hT, update_self _ _ _, (ho.free hT.lt hT.free).1, fun e => absurd h₀ e⟩
  · next h₀ =>
    cases h
    rw [if_neg h₀]
    exact ⟨.refl _, rfl, h₀, fun _ => ⟨rfl, rfl⟩⟩

/-- **`bmap`** fills the missing pointers to block `bn`. -/
theorem bmap_spec (ho : (d.put inum ip).Owned sb) (hi : inum < sb.ninodes)
    (ht : ip.type ≠ .free) (h : d.bmap sb ip bn = .ok (a, ip', d')) :
    ∃ p, ptrOf bn = some p ∧ p ≠ .indirect ∧
      Grows sb inum ((d.put inum ip).missing inum p) (d.put inum ip) (d'.put inum ip') ∧
      (d'.put inum ip').ptr inum p = a ∧ a ≠ 0 ∧
      ((d.put inum ip).ptr inum p ≠ 0 → ip' = ip ∧ d' = d) := by
  unfold bmap at h
  split at h
  · next hbn =>
    obtain ⟨hg, ha, ha₀, hsame⟩ := addr_grows ho h
    have hk : (⟨bn, Nat.lt_succ_of_lt hbn⟩ : Fin (NDIRECT + 1)) = Fin.castSucc ⟨bn, hbn⟩ := rfl
    rw [hk] at hg ha hsame
    rw [BlockPtr.ofAddr_direct] at hg
    refine ⟨.direct ⟨bn, hbn⟩, by simp [ptrOf, hbn], by simp, ?_, ?_, ha₀, ?_⟩
    · simp only [missing, ptr, put_self]
      exact hg
    · simp only [ptr, put_self]
      exact ha
    · simp only [ptr, put_self]
      exact hsame
  · next hbn =>
    split at h
    · next hj =>
      obtain ⟨⟨b, ip₁, d₁⟩, h₁, h⟩ := of_bind h
      obtain ⟨hg, hb, hb₀, hsame⟩ := addr_grows ho h₁
      obtain ⟨-, hfields⟩ := addr_fields h₁
      have ht₁ : ip₁.type ≠ .free := by rw [hfields]; exact ht
      have ho₁ := hg.owned ho (put_alloc_self hi ht)
      refine ⟨.entry ⟨bn - NDIRECT, hj⟩, by simp [ptrOf, hbn, hj], by simp, ?_⟩
      subst hb
      dsimp only at h
      set j : Fin NINDIRECT := ⟨bn - NDIRECT, hj⟩
      -- the entry as the indirect block has it after the first step
      have hentry : (d₁.put inum ip₁).ptr inum (.entry j) =
          (d₁.data (ip₁.addrs INDIRECT) j).toNat := by
        simp only [ptr, put_self]
        exact if_neg hb₀
      have hzero : ip.addrs INDIRECT = 0 → d₁.data (ip₁.addrs INDIRECT) j = 0 := by
        intro h₀
        rw [if_pos h₀, BlockPtr.ofAddr_indirect] at hg
        cases hg with
        | more hT r =>
          cases r
          have hne := hT.ne inum (.entry j) (put_alloc_self hi ht) (by simp)
          rw [hentry] at hne
          have hz : (d.put inum ip).ptr inum (.entry j) = 0 := by
            simp only [ptr, put_self]
            exact if_pos h₀
          rw [hz] at hne
          exact UInt32.toNat_inj.mp hne
      have hkept : ip.addrs INDIRECT ≠ 0 → (d.put inum ip).ptr inum (.entry j) =
          (d₁.data (ip₁.addrs INDIRECT) j).toNat := by
        intro h₀
        obtain ⟨rfl, rfl⟩ := hsame h₀
        exact hentry
      have hind : (d.put inum ip).ptr inum .indirect = ip.addrs INDIRECT := by
        simp only [ptr, put_self]
      have hp₀ : (d.put inum ip).ptr inum (.entry j) ≠ 0 → ip.addrs INDIRECT ≠ 0 := by
        intro hp e
        simp only [ptr, put_self] at hp
        exact hp (if_pos e)
      split at h
      · next h₀ =>
        obtain ⟨⟨c, d₂⟩, hc, h⟩ := of_bind h
        cases h
        have hT := takes_entry ho₁ hi ht₁ hb₀ h₀ hc
        refine ⟨?_, hT.self, (ho₁.free hT.lt hT.free).1, fun hp => ?_⟩
        · rw [missing, hind]
          split
          · next hi₀ =>
            rw [if_pos hi₀, BlockPtr.ofAddr_indirect] at hg
            cases hg with
            | more hT₁ r => cases r; exact .more hT₁ (.one hT)
          next hi₀ =>
          rw [hkept hi₀, h₀, UInt32.toNat_zero, if_pos rfl]
          obtain ⟨rfl, rfl⟩ := hsame hi₀
          exact .one hT
        · rw [hkept (hp₀ hp), h₀] at hp
          exact absurd rfl hp
      · next h₀ =>
        have hi₀ : ip.addrs INDIRECT ≠ 0 := fun e => h₀ (hzero e)
        have hn₀ : (d₁.data (ip₁.addrs INDIRECT) j).toNat ≠ 0 :=
          fun e => h₀ (UInt32.toNat_inj.mp e)
        cases h
        obtain ⟨rfl, rfl⟩ := hsame hi₀
        refine ⟨?_, hentry, hn₀, fun _ => ⟨rfl, rfl⟩⟩
        rw [missing_of_ne_zero (by rw [hentry]; exact hn₀)]
        exact .refl _
    · cases h

/-! ### `itrunc` -/

theorem freeAll_spec : ∀ {as : List Nat} {d d' : Disk}, d.freeAll sb as = .ok d' →
    d'.dinode = d.dinode ∧ d'.data = d.data ∧
      ∀ b, d'.bitmap b = true ↔ d.bitmap b = true ∧ ¬ (b ≠ 0 ∧ b ∈ as)
  | [], d, d', h => by cases h; exact ⟨rfl, rfl, by simp⟩
  | a :: as, d, d', h => by
    rw [freeAll] at h
    split at h
    · next h₀ =>
      obtain ⟨hd, hdata, hbit⟩ := freeAll_spec h
      refine ⟨hd, hdata, fun b => (hbit b).trans (and_congr_right' (not_congr ?_))⟩
      rw [List.mem_cons]
      exact and_congr_right fun hb => ⟨.inr, fun e => e.resolve_left fun e => hb (e.trans h₀)⟩
    · next h₀ =>
      obtain ⟨d₁, h₁, h⟩ := of_bind h
      unfold bfree at h₁
      split at h₁
      · cases h₁
        obtain ⟨hd, hdata, hbit⟩ := freeAll_spec h
        refine ⟨hd, hdata, fun b => (hbit b).trans ?_⟩
        by_cases e : b = a
        · subst e
          simp [setBit, h₀]
        · simp [setBit, e]
      · cases h₁

/-- The blocks that `itrunc` frees are those of the inode. -/
theorem itrunc_bitmap (h : d.itrunc sb inum ip = .ok (v, d')) :
    v = { ip with size := 0, addrs := fun _ => 0 } ∧
      d'.dinode = update d.dinode inum v ∧ d'.data = d.data ∧ ∀ b, d'.bitmap b = true ↔
        d.bitmap b = true ∧ ¬ (b ≠ 0 ∧ ∃ q, (d.put inum ip).ptr inum q = b) := by
  obtain ⟨d₁, h₁, h⟩ := of_bind h
  obtain ⟨hd₁, hdata₁, hbit₁⟩ := freeAll_spec h₁
  have hdirect : ∀ b, b ∈ (List.ofFn fun i : Fin NDIRECT => ip.addrs i.castSucc) ↔
      ∃ k, (d.put inum ip).ptr inum (.direct k) = b := by
    intro b
    simp only [List.mem_ofFn, ptr, put_self]
  have hptrs : ∀ b, (∃ q, (d.put inum ip).ptr inum q = b) ↔
      (∃ k, (d.put inum ip).ptr inum (.direct k) = b) ∨ ip.addrs INDIRECT = b ∨
        ∃ j, (d.put inum ip).ptr inum (.entry j) = b := by
    intro b
    constructor
    · rintro ⟨q, hq⟩
      cases q with
      | direct k => exact .inl ⟨k, hq⟩
      | indirect => simp only [ptr, put_self] at hq; exact .inr (.inl hq)
      | entry j => exact .inr (.inr ⟨j, hq⟩)
    · rintro (⟨k, hk⟩ | hk | ⟨j, hj⟩)
      · exact ⟨_, hk⟩
      · exact ⟨.indirect, by simp only [ptr, put_self]; exact hk⟩
      · exact ⟨_, hj⟩
  split at h
  · next h₀ =>
    cases h
    refine ⟨rfl, congrArg (update · inum _) hd₁, hdata₁, fun b => ?_⟩
    refine (hbit₁ b).trans (and_congr_right' (not_congr (and_congr_right fun hb => ?_)))
    rw [hdirect, hptrs]
    have hentry : ∀ j, (d.put inum ip).ptr inum (.entry j) = 0 := by
      intro j
      simp only [ptr, put_self]
      exact if_pos h₀
    simp [hentry, h₀, Ne.symm hb]
  · next h₀ =>
    obtain ⟨d₃, h₃, h⟩ := of_bind h
    obtain ⟨d₂, h₂, h⟩ := of_bind h
    obtain ⟨hd₃, hdata₃, hbit₃⟩ := freeAll_spec h₃
    unfold bfree at h₂
    split at h₂
    · cases h₂
      cases h
      refine ⟨rfl, congrArg (update · inum _) (hd₃.trans hd₁), hdata₃.trans hdata₁, fun b => ?_⟩
      have hentry : ∀ b, b ∈ (List.ofFn fun j => (d₁.data (ip.addrs INDIRECT) j).toNat) ↔
          ∃ j, (d.put inum ip).ptr inum (.entry j) = b := by
        intro b
        simp only [List.mem_ofFn, ptr, put_self, if_neg h₀, hdata₁]
        rfl
      have hset : (((d₃.setBit sb (ip.addrs INDIRECT) false).iupdate sb inum
          { ip with size := 0, addrs := fun _ => 0 }).bitmap b = true) ↔
          b ≠ ip.addrs INDIRECT ∧ d₃.bitmap b = true := by
        show update d₃.bitmap _ false b = true ↔ _
        by_cases e : b = ip.addrs INDIRECT
        · subst e; simp
        · simp [e]
      rw [hset, hbit₃, hbit₁, hdirect, hentry, hptrs]
      constructor
      · rintro ⟨hne, ⟨hb, hk⟩, hj⟩
        refine ⟨hb, ?_⟩
        rintro ⟨hb₀, hd | rfl | he⟩
        · exact hk ⟨hb₀, hd⟩
        · exact hne rfl
        · exact hj ⟨hb₀, he⟩
      · rintro ⟨hb, hno⟩
        exact ⟨fun e => hno ⟨e ▸ h₀, .inr (.inl e.symm)⟩,
          ⟨hb, fun e => hno ⟨e.1, .inl e.2⟩⟩, fun e => hno ⟨e.1, .inr (.inr e.2)⟩⟩
    · cases h₂

/-- The pointers of an inode depend on the inode and the data blocks. -/
theorem ptr_congr (hd : e.dinode i = d.dinode i) (hdata : e.data = d.data) (q : BlockPtr) :
    e.ptr i q = d.ptr i q := by
  cases q with
  | direct k => simp only [ptr, hd]
  | indirect => simp only [ptr, hd]
  | entry j => simp only [ptr, hd, hdata]

/-- An inode without pointers holds nothing. -/
theorem ptr_of_addrs_zero (h : (d.dinode i).addrs = fun _ => 0) (q : BlockPtr) : d.ptr i q = 0 := by
  cases q with
  | direct k => simp only [ptr, h]
  | indirect => simp only [ptr, h]
  | entry j => simp only [ptr, h, if_true]

/-- **`itrunc`** gives the blocks of the inode back and leaves those of the others. -/
theorem itrunc_owned (ho : (d.put inum ip).Owned sb) (hi : inum < sb.ninodes) (ht : ip.type ≠ .free)
    (h : d.itrunc sb inum ip = .ok (v, d')) : d'.Owned sb := by
  obtain ⟨rfl, hd, hdata, hbit⟩ := itrunc_bitmap h
  have hself : d'.dinode inum = { ip with size := 0, addrs := fun _ => 0 } := by
    rw [hd, update_self]
  refine Ledger.drop ho {x | x.1 = inum} ?_ ?_ fun b => ?_
  · rintro ⟨i, q⟩ (rfl : i = inum)
    unfold held
    rw [if_neg]
    exact fun e => e.2 (ptr_of_addrs_zero (by rw [hself]) q)
  · rintro ⟨i, q⟩ (hne : i ≠ inum)
    have hdi : d'.dinode i = (d.put inum ip).dinode i := by
      rw [hd, update_of_ne hne, put_ne hne]
    refine held_congr ?_ (ptr_congr hdi hdata q)
    unfold Alloc
    rw [hdi]
  · rw [hbit]
    refine and_congr_right' ⟨fun hno x hx hb => ?_, fun hno hb => ?_⟩
    · obtain ⟨i, q⟩ := x
      obtain rfl : i = inum := hx
      obtain ⟨-, hb₀, hq⟩ := held_eq_some.mp hb
      exact hno ⟨hb₀, q, hq⟩
    · obtain ⟨hb₀, q, hq⟩ := hb
      exact hno (inum, q) rfl (held_eq_some.mpr ⟨put_alloc_self hi ht, hb₀, hq⟩)

end Disk

end Xv6
