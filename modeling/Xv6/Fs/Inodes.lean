import Xv6.Fs.File
import Xv6.Lib.Run

/-!
# Fs — Inodes

The inode cache of `fs.c`: `iget`, `idup`, `ilock`, `iput` and `ialloc`, and `readi`, `writei` and
`iupdate` on a cached inode whose lock is held.  An entry with `ref` 0 is free and is recycled by
`iget`, which clears `valid`; the next `ilock` reads the inode from the disk again.

* `inv_step`: a valid copy is the inode on the disk, and the file system stays consistent.
* `ownership_run`: in every state of every run, a bit of the bitmap is set iff its block is a
  metadata block or exactly one pointer of one inode points to it.
-/

namespace Xv6

open Lib Function List

def NINODE : Nat := 50

instance : NeZero NINODE := ⟨Nat.succ_ne_zero 49⟩

/-- `struct inode`. -/
structure CInode where
  inum : Nat
  ref : Int
  valid : Bool
  ip : Dinode

/-- The disk and `icache`. -/
structure Inodes where
  disk : Disk
  cache : Fin NINODE → CInode

namespace Inodes

/-- Change an entry of the cache. -/
def upd (s : Inodes) (e : Fin NINODE) (f : CInode → CInode) : Inodes :=
  { s with cache := update s.cache e (f (s.cache e)) }

/-- `iget`. -/
def iget (s : Inodes) (inum : Nat) : Res (Fin NINODE × Inodes) :=
  match (List.finRange NINODE).find? fun e =>
      (s.cache e).ref > 0 ∧ (s.cache e).inum = inum with
  | some e => .ok (e, s.upd e fun c => { c with ref := c.ref + 1 })
  | none =>
    match (List.finRange NINODE).find? fun e => (s.cache e).ref = 0 with
    | none => .error (.panic "iget: no inodes")
    | some e => .ok (e, s.upd e fun c => { c with inum := inum, ref := 1, valid := false })

/-- `idup`. -/
def idup (s : Inodes) (e : Fin NINODE) : Inodes := s.upd e fun c => { c with ref := c.ref + 1 }

/-- `ilock`. -/
def ilock (s : Inodes) (e : Fin NINODE) : Res Inodes :=
  if (s.cache e).ref < 1 then .error (.panic "ilock")
  else if (s.cache e).valid then .ok s
  else
    let s := s.upd e fun c => { c with valid := true, ip := s.disk.dinode c.inum }
    if (s.cache e).ip.type = .free then .error (.panic "ilock: no type") else .ok s

/-- `iput`. -/
def iput (sb : Super) (s : Inodes) (e : Fin NINODE) : Res Inodes := do
  let c := s.cache e
  if c.valid ∧ c.ip.nlink = 0 ∧ c.ref = 1 then
    -- no links and no other references: truncate and free
    let (ip, d) ← s.disk.itrunc sb c.inum c.ip
    let ip := { ip with type := .free }
    let s : Inodes := { s with disk := d.iupdate sb c.inum ip }
    return s.upd e fun c => { c with ip := ip, valid := false, ref := c.ref - 1 }
  return s.upd e fun c => { c with ref := c.ref - 1 }

/-- `ialloc`. -/
def ialloc (sb : Super) (s : Inodes) (type : FileType) : Res (Fin NINODE × Inodes) :=
  match (List.range' 1 (sb.ninodes - 1)).find? fun i => (s.disk.dinode i).type = .free with
  | none => .error (.panic "ialloc: no inodes")
  | some i =>
    let s := { s with disk := s.disk.iupdate sb i { Dinode.zero with type := type } }
    s.iget i

/-- `readi` of a locked inode. -/
def readi (sb : Super) (devsw : Devsw) (s : Inodes) (e : Fin NINODE) (off n : Nat) :
    Res (Int × List UInt8 × Inodes) := do
  let (r, out, ip, d) ← s.disk.readi sb devsw (s.cache e).ip off n
  return (r, out, { s with disk := d }.upd e fun c => { c with ip := ip })

/-- `writei` to a locked inode. -/
def writei (sb : Super) (devsw : Devsw) (s : Inodes) (e : Fin NINODE) (off : Nat)
    (src : List UInt8) : Res (Int × Inodes) := do
  let (r, ip, d) ← s.disk.writei sb devsw (s.cache e).inum (s.cache e).ip off src
  return (r, { s with disk := d }.upd e fun c => { c with ip := ip })

/-- The fields that the system calls set before they call `iupdate`. -/
def iupdate (sb : Super) (s : Inodes) (e : Fin NINODE) (major minor nlink : Int) : Inodes :=
  let ip := { (s.cache e).ip with major := major, minor := minor, nlink := nlink }
  { s with disk := s.disk.iupdate sb (s.cache e).inum ip }.upd e fun c => { c with ip := ip }

end Inodes

/-! ### Runs -/

/-- A call into the inode layer. -/
inductive InodeOp where
  | iget (inum : Nat)
  | idup (e : Fin NINODE)
  | ilock (e : Fin NINODE)
  | iput (e : Fin NINODE)
  | ialloc (type : FileType)
  | readi (e : Fin NINODE) (off n : Nat)
  | writei (e : Fin NINODE) (off : Nat) (src : List UInt8)
  | iupdate (e : Fin NINODE) (major minor nlink : Int)

namespace Inodes

variable {sb : Super} {devsw : Devsw} {s s' : Inodes} {op : InodeOp} {e : Fin NINODE}

/-- When a call is made: of an inode number of the file system, on an entry that the caller has a
reference to, and with the inode read in where its lock has to be held. -/
def Enabled (sb : Super) (s : Inodes) : InodeOp → Prop
  | .iget inum => inum < sb.ninodes
  | .idup e | .iput e => 0 < (s.cache e).ref
  | .ilock _ => True
  | .ialloc type => type ≠ .free
  | .readi e off n => 0 < (s.cache e).ref ∧ (s.cache e).valid = true ∧ off < UINT ∧ n < UINT
  | .writei e _ _ => 0 < (s.cache e).ref ∧ (s.cache e).valid = true
  | .iupdate e _ _ _ => 0 < (s.cache e).ref ∧ (s.cache e).valid = true

/-- The state after a call. -/
def step (sb : Super) (devsw : Devsw) (s : Inodes) : InodeOp → Res Inodes
  | .iget inum => do return (← s.iget inum).2
  | .idup e => .ok (s.idup e)
  | .ilock e => s.ilock e
  | .iput e => s.iput sb e
  | .ialloc type => do return (← s.ialloc sb type).2
  | .readi e off n => do return (← s.readi sb devsw e off n).2.2
  | .writei e off src => do return (← s.writei sb devsw e off src).2
  | .iupdate e major minor nlink => .ok (s.iupdate sb e major minor nlink)

def Step (sb : Super) (devsw : Devsw) (s : Inodes) (op : InodeOp) (s' : Inodes) : Prop :=
  s.Enabled sb op ∧ s.step sb devsw op = .ok s'

instance (sb : Super) (s : Inodes) : ∀ op, Decidable (s.Enabled sb op) := fun op => by
  rcases op <;> dsimp only [Enabled] <;> infer_instance

/-- The state after a call that can be made. -/
def exec? (sb : Super) (devsw : Devsw) (s : Inodes) (op : InodeOp) : Option Inodes :=
  if s.Enabled sb op then
    match s.step sb devsw op with
    | .ok s' => some s'
    | .error _ => none
  else none

theorem step_of_exec? (s : Inodes) (op : InodeOp) (s' : Inodes)
    (h : s.exec? sb devsw op = some s') : Step sb devsw s op s' := by
  unfold exec? at h
  split at h
  · next he =>
    split at h
    · next s₁ hs => cases h; exact ⟨he, hs⟩
    · cases h
  · cases h

/-- The file system is consistent, an entry in use that is valid is a copy of its inode, and no two
entries in use are for one inode. -/
structure Inv (sb : Super) (s : Inodes) : Prop where
  disk : s.disk.Consistent sb
  ref : ∀ e, 0 ≤ (s.cache e).ref
  inum : ∀ e, 0 < (s.cache e).ref → (s.cache e).inum < sb.ninodes
  copy : ∀ e, 0 < (s.cache e).ref → (s.cache e).valid = true →
    (s.cache e).ip = s.disk.dinode (s.cache e).inum ∧ (s.cache e).ip.type ≠ .free
  uniq : ∀ e e', 0 < (s.cache e).ref → 0 < (s.cache e').ref →
    (s.cache e).inum = (s.cache e').inum → e = e'

@[simp] theorem upd_self (s : Inodes) (e : Fin NINODE) (f : CInode → CInode) :
    (s.upd e f).cache e = f (s.cache e) := update_self _ _ _

theorem upd_ne {e' : Fin NINODE} {s : Inodes} {f : CInode → CInode} (h : e' ≠ e) :
    (s.upd e f).cache e' = s.cache e' := update_of_ne h _ _

namespace Inv

theorem alloc (h : Inv sb s) (hr : 0 < (s.cache e).ref) (hv : (s.cache e).valid = true) :
    s.disk.Alloc sb (s.cache e).inum := by
  obtain ⟨hc, ht⟩ := h.copy e hr hv
  exact ⟨h.inum e hr, hc ▸ ht⟩

/-- An entry changes, and so does the disk, but only at the entry's own inode. -/
theorem upd {d : Disk} {f : CInode → CInode} (h : Inv sb s) (hd : d.Consistent sb)
    (href : 0 ≤ (f (s.cache e)).ref)
    (hinum : 0 < (f (s.cache e)).ref → (f (s.cache e)).inum < sb.ninodes)
    (hcopy : 0 < (f (s.cache e)).ref → (f (s.cache e)).valid = true →
      (f (s.cache e)).ip = d.dinode (f (s.cache e)).inum ∧ (f (s.cache e)).ip.type ≠ .free)
    (huniq : 0 < (f (s.cache e)).ref → ∀ e', e' ≠ e → 0 < (s.cache e').ref →
      (s.cache e').inum ≠ (f (s.cache e)).inum)
    (hother : ∀ e', e' ≠ e → 0 < (s.cache e').ref → (s.cache e').valid = true →
      d.dinode (s.cache e').inum = s.disk.dinode (s.cache e').inum) :
    Inv sb ({ s with disk := d }.upd e f) := by
  have hs : ({ s with disk := d } : Inodes).cache = s.cache := rfl
  refine ⟨hd, fun e' => ?_, fun e' hr => ?_, fun e' hr hv => ?_, fun e₁ e₂ h₁ h₂ hi => ?_⟩
  · by_cases he : e' = e
    · subst he; rw [upd_self, hs]; exact href
    · rw [upd_ne he]; exact h.ref e'
  · by_cases he : e' = e
    · subst he; rw [upd_self, hs] at hr ⊢; exact hinum hr
    · rw [upd_ne he] at hr ⊢; exact h.inum e' hr
  · by_cases he : e' = e
    · subst he; rw [upd_self, hs] at hr hv ⊢; exact hcopy hr hv
    · rw [upd_ne he] at hr hv ⊢
      obtain ⟨hc, ht⟩ := h.copy e' hr hv
      exact ⟨hc.trans (hother e' he hr hv).symm, ht⟩
  · by_cases he₁ : e₁ = e <;> by_cases he₂ : e₂ = e
    · rw [he₁, he₂]
    · subst he₁
      rw [upd_self, upd_ne he₂] at hi
      rw [upd_self] at h₁
      rw [upd_ne he₂] at h₂
      exact absurd hi.symm (huniq h₁ e₂ he₂ h₂)
    · subst he₂
      rw [upd_self, upd_ne he₁] at hi
      rw [upd_self] at h₂
      rw [upd_ne he₁] at h₁
      exact absurd hi (huniq h₂ e₁ he₁ h₁)
    · rw [upd_ne he₁] at h₁ hi
      rw [upd_ne he₂] at h₂ hi
      exact h.uniq e₁ e₂ h₁ h₂ hi

/-- The other entries in use are for other inodes. -/
theorem inum_ne {e' : Fin NINODE} (h : Inv sb s) (hr : 0 < (s.cache e).ref) (he : e' ≠ e)
    (hr' : 0 < (s.cache e').ref) : (s.cache e').inum ≠ (s.cache e).inum :=
  fun hi => he (h.uniq e' e hr' hr hi)

/-- The count of an entry in use changes. -/
theorem setRef {n : Int} (h : Inv sb s) (hr : 0 < (s.cache e).ref) (hn : 0 ≤ n) :
    Inv sb (s.upd e fun c => { c with ref := n }) :=
  h.upd (d := s.disk) h.disk hn (fun _ => h.inum e hr) (fun _ hv => h.copy e hr hv)
    (fun _ _ he hr' => h.inum_ne hr he hr') fun _ _ _ _ => rfl

end Inv

/-- `iget` finds the entry of the inode, or takes one that is not in use. -/
theorem iget_cases {inum : Nat} (h : s.iget inum = .ok (e, s')) :
    (0 < (s.cache e).ref ∧ (s.cache e).inum = inum ∧ s' = s.idup e) ∨
    ((s.cache e).ref = 0 ∧ (∀ e', 0 < (s.cache e').ref → (s.cache e').inum ≠ inum) ∧
      s' = s.upd e fun c => { c with inum := inum, ref := 1, valid := false }) := by
  unfold iget at h
  split at h
  · next hf =>
    cases h
    have hb := find?_some hf
    obtain ⟨hr, hi⟩ := of_decide_eq_true hb
    exact .inl ⟨hr, hi, rfl⟩
  · next hno =>
    split at h
    · cases h
    next hf =>
    cases h
    refine .inr ⟨by simpa using find?_some hf, fun e' hr' hi' => ?_, rfl⟩
    have := find?_eq_none.mp hno e' (mem_finRange e')
    simp only [decide_eq_true_eq, not_and] at this
    exact this hr' hi'

theorem inv_iget {inum : Nat} (h : Inv sb s) (hi : inum < sb.ninodes)
    (hg : s.iget inum = .ok (e, s')) : Inv sb s' := by
  obtain ⟨hr, -, rfl⟩ | ⟨-, hno, rfl⟩ := iget_cases hg
  · exact h.setRef hr (by omega)
  · exact h.upd (d := s.disk) h.disk Int.one_nonneg (fun _ => hi) (fun _ hv => by cases hv)
      (fun _ e' _ hr' hi' => hno e' hr' hi') fun _ _ _ _ => rfl

theorem inv_ilock (h : Inv sb s) (hl : s.ilock e = .ok s') : Inv sb s' := by
  unfold ilock at hl
  split at hl
  · cases hl
  next hr =>
  have hr : 0 < (s.cache e).ref := by omega
  split at hl
  · cases hl; exact h
  dsimp only at hl
  split at hl
  · cases hl
  next ht =>
  cases hl
  rw [upd_self] at ht
  exact h.upd (d := s.disk) h.disk (h.ref e) (fun _ => h.inum e hr)
    (fun _ _ => ⟨rfl, ht⟩) (fun _ e' he hr' => h.inum_ne hr he hr') fun _ _ _ _ => rfl

end Inodes

/-! ### The disk under the cache -/

namespace Disk

variable {sb : Super} {d d' : Disk} {i inum : Nat} {v : Dinode}

/-- An inode without blocks takes the place of one without blocks, or of a free one. -/
theorem consistent_update (hc : Consistent sb d)
    (hd : d'.dinode = update d.dinode inum v) (hdata : d'.data = d.data)
    (hbit : d'.bitmap = d.bitmap) (hv : v.addrs = fun _ => 0) (hsize : v.size = 0)
    (hold : ¬ d.Alloc sb inum ∨ (d.dinode inum).addrs = fun _ => 0) : Consistent sb d' := by
  have hself : d'.dinode inum = v := by rw [hd, update_self]
  have hne : ∀ i, i ≠ inum → d'.dinode i = d.dinode i := fun i h => by
    rw [hd, update_of_ne h]
  have halloc : ∀ i, i ≠ inum → (d'.Alloc sb i ↔ d.Alloc sb i) := fun i h => by
    unfold Alloc
    rw [hne i h]
  refine ⟨Ledger.congr hc.owned (fun ⟨i, q⟩ => ?_) fun b => by rw [hbit], fun i hi bn hbn => ?_⟩
  · by_cases e : i = inum
    · subst e
      have h₁ : d'.held sb (i, q) = none :=
        if_neg fun h => h.2 (ptr_of_addrs_zero (by rw [hself]; exact hv) q)
      have h₂ : d.held sb (i, q) = none := by
        rcases hold with hold | hold
        · exact if_neg fun h => hold h.1
        · exact if_neg fun h => h.2 (ptr_of_addrs_zero hold q)
      rw [h₁, h₂]
    · exact held_congr (halloc i e) (ptr_congr (hne i e) hdata q)
  · by_cases e : i = inum
    · subst e
      rw [hself, hsize] at hbn
      exact absurd hbn (Nat.not_lt_zero _)
    · obtain ⟨p, hp, hp₀⟩ := hc.full i ((halloc i e).mp hi) bn (hne i e ▸ hbn)
      exact ⟨p, hp, by rw [ptr_congr (hne i e) hdata]; exact hp₀⟩

/-- Fields that no block hangs on. -/
theorem consistent_fields (hc : Consistent sb d) (hd : d'.dinode = update d.dinode inum v)
    (hdata : d'.data = d.data) (hbit : d'.bitmap = d.bitmap) (ht : v.type = (d.dinode inum).type)
    (ha : v.addrs = (d.dinode inum).addrs) (hsize : v.size = (d.dinode inum).size) :
    Consistent sb d' := by
  have hcases : ∀ i, (d'.dinode i).type = (d.dinode i).type ∧
      (d'.dinode i).addrs = (d.dinode i).addrs ∧ (d'.dinode i).size = (d.dinode i).size := by
    intro i
    rw [hd]
    by_cases e : i = inum
    · subst e; rw [update_self]; exact ⟨ht, ha, hsize⟩
    · rw [update_of_ne e]; exact ⟨rfl, rfl, rfl⟩
  have hptr : ∀ i q, d'.ptr i q = d.ptr i q := by
    intro i q
    cases q with
    | direct k => simp only [ptr, hcases]
    | indirect => simp only [ptr, hcases]
    | entry j => simp only [ptr, hcases, hdata]
  have halloc : ∀ i, d'.Alloc sb i ↔ d.Alloc sb i := fun i => by
    unfold Alloc
    rw [(hcases i).1]
  refine ⟨Ledger.congr hc.owned (fun x => held_congr (halloc x.1) (hptr x.1 x.2))
    fun b => by rw [hbit], fun i hi bn hbn => ?_⟩
  obtain ⟨p, hp, hp₀⟩ := hc.full i ((halloc i).mp hi) bn ((hcases i).2.2 ▸ hbn)
  exact ⟨p, hp, by rw [hptr]; exact hp₀⟩

/-- `itrunc` keeps a file system consistent. -/
theorem itrunc_consistent (hc : Consistent sb d) (hi : d.Alloc sb inum)
    (h : d.itrunc sb inum (d.dinode inum) = .ok (v, d')) : Consistent sb d' := by
  obtain ⟨rfl, hd, hdata, -⟩ := itrunc_bitmap h
  refine ⟨itrunc_owned (by rw [put_dinode]; exact hc.owned) hi.1 hi.2 h, fun i hi' bn hbn => ?_⟩
  by_cases e : i = inum
  · subst e
    rw [hd, update_self] at hbn
    exact absurd hbn (Nat.not_lt_zero _)
  have hdi : d'.dinode i = d.dinode i := by rw [hd, update_of_ne e]
  have hi₀ : d.Alloc sb i := by unfold Alloc at hi' ⊢; rw [← hdi]; exact hi'
  obtain ⟨p, hp, hp₀⟩ := hc.full i hi₀ bn (hdi ▸ hbn)
  exact ⟨p, hp, by rw [ptr_congr hdi hdata]; exact hp₀⟩

/-- What `writei` does when it returns: nothing, or a write. -/
theorem writei_cases {devsw : Devsw} {off : Nat} {src : List UInt8} {r : Int} (hc : Consistent sb d)
    (hi : d.Alloc sb inum) (h : d.writei sb devsw inum (d.dinode inum) off src = .ok (r, v, d')) :
    v = d'.dinode inum ∧ (d' = d ∨ Written sb inum off src d d') := by
  unfold writei at h
  dsimp only at h
  split at h
  · split at h <;> cases h <;> exact ⟨rfl, .inl rfl⟩
  split at h
  · cases h; exact ⟨rfl, .inl rfl⟩
  next hoff =>
  split at h
  · cases h; exact ⟨rfl, .inl rfl⟩
  obtain ⟨⟨ip', d₁⟩, hl, h⟩ := of_bind h
  obtain ⟨hw, hip⟩ := written_of_loop hc hi (by omega) hl
  dsimp only at h
  split at h
  · next hgrow =>
    cases h
    rw [if_pos hgrow] at hw
    rw [if_pos hgrow, if_pos hgrow] at hip
    exact ⟨hip, .inr hw⟩
  · next hgrow =>
    cases h
    rw [if_neg hgrow] at hw
    rw [if_neg hgrow, if_neg hgrow] at hip
    exact ⟨hip, .inr hw⟩

end Disk

namespace Inodes

variable {sb : Super} {devsw : Devsw} {s s' : Inodes} {op : InodeOp} {e : Fin NINODE}

theorem inv_iput (h : Inv sb s) (hr : 0 < (s.cache e).ref) (hp : s.iput sb e = .ok s') :
    Inv sb s' := by
  unfold iput at hp
  dsimp only at hp
  split at hp
  · next hlast =>
    obtain ⟨hv, -, hone⟩ := hlast
    obtain ⟨hcopy, -⟩ := h.copy e hr hv
    have halloc := h.alloc hr hv
    obtain ⟨⟨v, d⟩, ht, hp⟩ := of_bind hp
    cases hp
    rw [hcopy] at ht
    have hd := Disk.itrunc_consistent h.disk halloc ht
    obtain ⟨rfl, hdin, -, -⟩ := Disk.itrunc_bitmap ht
    have hzero : (d.dinode (s.cache e).inum).addrs = fun _ => 0 := by
      rw [hdin, update_self]
    refine h.upd (Disk.consistent_update hd rfl rfl rfl rfl rfl (.inr hzero)) ?_ ?_ ?_ ?_ ?_
    · simp [hone]
    · intro hpos
      simp [hone] at hpos
    · intro hpos
      simp [hone] at hpos
    · intro hpos
      simp [hone] at hpos
    · intro e' he hr' _
      have hne := h.inum_ne hr he hr'
      show update d.dinode _ _ _ = _
      rw [update_of_ne hne, hdin, update_of_ne hne]
  · cases hp
    exact h.setRef hr (by have := h.ref e; omega)

theorem inv_ialloc {type : FileType} (h : Inv sb s)
    (ha : s.ialloc sb type = .ok (e, s')) : Inv sb s' := by
  unfold ialloc at ha
  split at ha
  · cases ha
  next i hf =>
  have hfree : (s.disk.dinode i).type = .free := by simpa using find?_some hf
  have hi : i < sb.ninodes := by
    have := mem_range'_1.mp (mem_of_find?_eq_some hf)
    omega
  have hno : ¬ s.disk.Alloc sb i := fun ha => ha.2 hfree
  refine inv_iget (s := { s with disk := s.disk.iupdate sb i { Dinode.zero with type := type } })
    ⟨Disk.consistent_update h.disk rfl rfl rfl rfl rfl (.inl hno), h.ref, h.inum, ?_, h.uniq⟩ hi ha
  intro e' hr hv
  obtain ⟨hcopy, hnf⟩ := h.copy e' hr hv
  refine ⟨hcopy.trans ?_, hnf⟩
  -- a valid entry is for an allocated inode
  have hne : (s.cache e').inum ≠ i := fun he => hno (he ▸ h.alloc hr hv)
  exact (update_of_ne hne _ _).symm

section

variable (h : Inv sb s) (hr : 0 < (s.cache e).ref) (hv : (s.cache e).valid = true)

include h hr hv

theorem inv_readi {off n : Nat} {r : Int} {out : List UInt8} (hoff : off < UINT) (hn : n < UINT)
    (hs : s.readi sb devsw e off n = .ok (r, out, s')) : Inv sb s' := by
  obtain ⟨⟨r', out', ip, d⟩, h₁, hs⟩ := of_bind hs
  cases hs
  obtain ⟨hcopy, ht⟩ := h.copy e hr hv
  -- the copy and the disk are as before
  have hsame : ip = (s.cache e).ip ∧ d = s.disk := by
    by_cases hdev : (s.cache e).ip.type = .dev
    · unfold Disk.readi at h₁
      rw [if_pos hdev] at h₁
      split at h₁ <;> cases h₁ <;> exact ⟨rfl, rfl⟩
    · rw [hcopy] at hdev h₁
      rw [Disk.readi_eq h.disk (h.alloc hr hv) hdev hoff hn] at h₁
      split at h₁ <;> cases h₁ <;> exact ⟨hcopy.symm, rfl⟩
  obtain ⟨rfl, rfl⟩ := hsame
  exact h.upd (d := s.disk) h.disk (h.ref e) (fun _ => h.inum e hr) (fun _ _ => ⟨hcopy, ht⟩)
    (fun _ e' he hr' => h.inum_ne hr he hr') fun _ _ _ _ => rfl

theorem inv_writei {off : Nat} {src : List UInt8} {r : Int}
    (hs : s.writei sb devsw e off src = .ok (r, s')) : Inv sb s' := by
  obtain ⟨⟨r', ip, d⟩, h₁, hs⟩ := of_bind hs
  cases hs
  obtain ⟨hcopy, ht⟩ := h.copy e hr hv
  rw [hcopy] at h₁
  obtain ⟨rfl, hw⟩ := Disk.writei_cases h.disk (h.alloc hr hv) h₁
  have hd : d.Consistent sb := by
    rcases hw with rfl | hw
    · exact h.disk
    · exact hw.consistent
  have htype : (d.dinode (s.cache e).inum).type ≠ .free := by
    rcases hw with rfl | hw
    · exact hcopy ▸ ht
    · rw [hw.fields]; exact hcopy ▸ ht
  refine h.upd hd (h.ref e) (fun _ => h.inum e hr) (fun _ _ => ⟨rfl, htype⟩)
    (fun _ e' he hr' => h.inum_ne hr he hr') fun e' he hr' _ => ?_
  rcases hw with rfl | hw
  · rfl
  · exact hw.dinode _ (h.inum_ne hr he hr')

theorem inv_iupdate (major minor nlink : Int) : Inv sb (s.iupdate sb e major minor nlink) := by
  obtain ⟨hcopy, ht⟩ := h.copy e hr hv
  unfold iupdate
  dsimp only
  refine h.upd (Disk.consistent_fields h.disk rfl rfl rfl ?_ ?_ ?_) (h.ref e)
    (fun _ => h.inum e hr) (fun _ _ => ⟨(Disk.iupdate_self _ _ _ _).symm, ht⟩)
    (fun _ e' he hr' => h.inum_ne hr he hr') fun e' he hr' _ => ?_
  · rw [← hcopy]
  · rw [← hcopy]
  · rw [← hcopy]
  · exact update_of_ne (h.inum_ne hr he hr') _ _

end

/-- **One call.** -/
theorem inv_step (h : Inv sb s) (hs : Step sb devsw s op s') : Inv sb s' := by
  obtain ⟨he, hs⟩ := hs
  cases op with
  | iget inum =>
    obtain ⟨⟨e, s₁⟩, h₁, hs⟩ := of_bind hs
    cases hs
    exact inv_iget h he h₁
  | idup e => cases hs; exact h.setRef he (by have := h.ref e; omega)
  | ilock e => exact inv_ilock h hs
  | iput e => exact inv_iput h he hs
  | ialloc type =>
    obtain ⟨⟨e, s₁⟩, h₁, hs⟩ := of_bind hs
    cases hs
    exact inv_ialloc h h₁
  | readi e off n =>
    obtain ⟨⟨r, out, s₁⟩, h₁, hs⟩ := of_bind hs
    cases hs
    exact inv_readi h he.1 he.2.1 he.2.2.1 he.2.2.2 h₁
  | writei e off src =>
    obtain ⟨⟨r, s₁⟩, h₁, hs⟩ := of_bind hs
    cases hs
    exact inv_writei h he.1 he.2 h₁
  | iupdate e major minor nlink => cases hs; exact inv_iupdate h he.1 he.2 major minor nlink

/-- **Block ownership is exact.**  From any consistent disk and an empty cache, in every state
reached: a bit is set iff its block is a metadata block or exactly one pointer of one allocated
inode points to it; two pointers to one block are the same pointer, and none points to a metadata
block. -/
theorem ownership_run {d : Disk} {cache : Fin NINODE → CInode} {t : List (Inodes × InodeOp)}
    (hc : d.Consistent sb) (hempty : ∀ e, (cache e).ref = 0)
    (hr : Run (Step sb devsw) ⟨d, cache⟩ t s) : (∀ b < sb.size, s.disk.bitmap b = true ↔
      b < sb.nmeta ∨ ∃! x : Nat × BlockPtr, s.disk.Alloc sb x.1 ∧ s.disk.ptr x.1 x.2 = b) ∧
    ∀ i p, s.disk.Alloc sb i → s.disk.ptr i p ≠ 0 →
      (sb.nmeta ≤ s.disk.ptr i p ∧ s.disk.ptr i p < sb.size) ∧
        ∀ j q, s.disk.Alloc sb j → s.disk.ptr i p = s.disk.ptr j q → i = j ∧ p = q := by
  have h₀ : Inv sb ⟨d, cache⟩ := by
    refine ⟨hc, fun e => ?_, fun e h => ?_, fun e h => ?_, fun e _ h => ?_⟩
    · exact (hempty e).ge
    · exact absurd h (by simp [hempty e])
    · exact absurd h (by simp [hempty e])
    · exact absurd h (by simp [hempty e])
  obtain ⟨-, h⟩ := hr.inv_all (I := Inv sb) (fun s op s' hi hs => inv_step hi hs) h₀
  have ho := h.disk.owned
  refine ⟨fun b hb => ?_, fun i p hi hp => ⟨ho.range hi hp, fun j q hj => ho.ptr_inj hi hj hp⟩⟩
  refine (ho.existsUnique hb).trans (or_congr_right' fun hmeta => ?_)
  have hb₀ : b ≠ 0 := fun e => hmeta (e ▸ sb.nmeta_pos)
  refine existsUnique_congr fun ⟨i, q⟩ => Disk.held_eq_some.trans ?_
  exact ⟨fun h => ⟨h.1, h.2.2⟩, fun h => ⟨h.1, hb₀, h.2⟩⟩

/-- A file is made and a byte written to it: its block has one owner. -/
theorem ownership_write : ∃ t s, Run (Step mkfsSuper ⟨fun _ => none, fun _ => none⟩)
      ⟨Disk.blank mkfsSuper 2, fun _ => ⟨0, 0, false, Dinode.zero⟩⟩ t s ∧
    s.disk.bitmap 59 = true ∧
    ∃! x : Nat × BlockPtr, s.disk.Alloc mkfsSuper x.1 ∧ s.disk.ptr x.1 x.2 = 59 := by
  obtain ⟨s, hr, hs⟩ := exists_run (R := Step mkfsSuper ⟨fun _ => none, fun _ => none⟩)
    step_of_exec? ⟨Disk.blank mkfsSuper 2, fun _ => ⟨0, 0, false, Dinode.zero⟩⟩
    [.ialloc .file, .ilock 0, .writei 0 0 [7]] (fun s => s.disk.bitmap 59 = true)
    (by decide +kernel)
  have h := (ownership_run (Disk.blank_consistent mkfsSuper 2) (fun _ => rfl) hr).1 59 (by decide)
  exact ⟨_, s, hr, hs, (h.mp hs).resolve_left (by decide)⟩

end Inodes

end Xv6
