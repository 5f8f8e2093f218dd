import Xv6.Fs.Calls
import Xv6.Fs.MkfsImage

/-!
# Fs — MkfsBoot

The kernel on the image that `mkfs` builds.  `namei` of a file's name walks from the root directory,
whose entries are those that `mkfs` appended, to the inode of the file, and `readi` returns the bytes
that `mkfs` was given.

The size of the root directory is rounded up to the next block, so that the last entries may be in a
block that the directory does not have.  A name that is there is found before them.

* `Inodes.dirFind_found`: the loop over the entries stops at the first one with the test.
* `OnDisk.dirSearch`: `dirlookup` finds the entry of each file.
* `OnDisk.namei`, `OnDisk.readi`: what the kernel returns.
* `mkfs_image_read_back`: the files come back from the image as they went in.
-/

namespace Xv6

open Lib Function List Nat

/-! ### Entries of a directory -/

/-- The bytes of entry `k`. -/
theorem slice_toBytes : ∀ {l : List Dirent} {k : Nat} {de : Dirent}, l[k]? = some de →
    ((l.flatMap Dirent.toBytes).drop (DESIZ * k)).take DESIZ = de.toBytes
  | [], _, _, h => by cases h
  | x :: l, 0, de, h => by
    cases h
    rw [mul_zero, drop_zero, flatMap_cons, ← Mkfs.length_toBytes x, take_left]
  | x :: l, k + 1, de, h => by
    rw [flatMap_cons, mul_succ, add_comm, ← drop_drop,
      ← Mkfs.length_toBytes x, drop_left, Mkfs.length_toBytes]
    exact slice_toBytes h

/-- The element of a path with one name. -/
theorem skipelem_name {name : Str} (h₀ : name ≠ []) (hs : slash ∉ name) :
    skipelem (slash :: name) = some (name.take DIRSIZ, []) := by
  have hne : ∀ c ∈ name, c ≠ slash := fun c hc e => hs (e ▸ hc)
  have hdrop : name.dropWhile (· = slash) = name := by
    cases name with
    | nil => rfl
    | cons a name => simp [hne a mem_cons_self]
  have hfirst : (slash :: name).dropWhile (· = slash) = name := by
    rw [dropWhile_cons_of_pos (by simp), hdrop]
  have htake : name.takeWhile (· ≠ slash) = name :=
    takeWhile_eq_self_iff.mpr fun c hc => by simpa using hne c hc
  have hrest : name.dropWhile (· ≠ slash) = [] :=
    dropWhile_eq_nil_iff.mpr fun c hc => by simpa using hne c hc
  unfold skipelem
  rw [hfirst]
  dsimp only
  rw [if_neg h₀, htake, hrest, dropWhile_nil]

namespace Inodes

variable {sb : Super} {s s' : Inodes} {c : Fin NINODE} {d : Disk}

/-- **The loop over the entries** stops at the first one with the test. -/
theorem dirFind_found {msg : String} {P : Dirent → Bool} {f : Nat → Dirent} {k n : Nat}
    (hread : ∀ j ≤ k, s.readDirent sb msg c (DESIZ * j) = .ok (f j, s))
    (hP : P (f k) = true) (hmin : ∀ j < k, P (f j) = false) (hk : k < n) :
    dirFind sb msg P (range n) s c = .ok (some (f k, DESIZ * k), s) := by
  -- the loop from entry `a` on, which is not after `k`
  have hfrom : ∀ left a, a + left = n → a ≤ k →
      dirFind sb msg P (range' a left) s c = .ok (some (f k, DESIZ * k), s) := by
    intro left
    induction left with
    | zero => intro a ha hak; omega
    | succ left ih =>
      intro a ha hak
      rw [range'_succ, dirFind, hread a hak]
      simp only [Res.ok_bind]
      by_cases e : a = k
      · subst e
        rw [if_pos hP]
      · rw [if_neg (by rw [hmin a (by omega)]; exact Bool.false_ne_true)]
        exact ih (a + 1) (by omega) (by omega)
  rw [range_eq_range']
  exact hfrom n 0 (zero_add n) (zero_le k)

/-- The disk is `d`, and what the cache holds of it is true. -/
structure Clean (d : Disk) (s : Inodes) : Prop where
  disk : s.disk = d
  copy : ∀ c, 0 < (s.cache c).ref → (s.cache c).valid = true →
    (s.cache c).ip = d.dinode (s.cache c).inum

theorem iget_ok {a : Fin NINODE} (h : (s.cache a).ref = 0) (inum : Nat) :
    ∃ c s', s.iget inum = .ok (c, s') := by
  unfold iget
  split
  · exact ⟨_, _, rfl⟩
  split
  · next hno =>
    have := find?_eq_none.mp hno a (mem_finRange a)
    exact absurd h (by simpa using this)
  · exact ⟨_, _, rfl⟩

namespace Clean

/-- An entry changes. -/
theorem upd {f : CInode → CInode} (h : Clean d s)
    (hf : 0 < (f (s.cache c)).ref → (f (s.cache c)).valid = true →
      (f (s.cache c)).ip = d.dinode (f (s.cache c)).inum) : Clean d (s.upd c f) := by
  refine ⟨h.disk, fun c' hr hv => ?_⟩
  by_cases e : c' = c
  · subst e
    rw [upd_self] at hr hv ⊢
    exact hf hr hv
  · rw [upd_ne e] at hr hv ⊢
    exact h.copy c' hr hv

theorem iget {inum : Nat} (h : Clean d s) (hg : s.iget inum = .ok (c, s')) :
    Clean d s' ∧ 0 < (s'.cache c).ref ∧ (s'.cache c).inum = inum ∧
      ∀ c' ≠ c, s'.cache c' = s.cache c' := by
  obtain ⟨hr, hi, rfl⟩ | ⟨-, -, rfl⟩ := iget_cases hg
  · refine ⟨h.upd fun _ hv => h.copy c hr hv, ?_, ?_, fun c' hc' => upd_ne hc'⟩
    · unfold idup
      rw [upd_self]
      exact Int.lt_add_one_of_le (Int.le_of_lt hr)
    · unfold idup
      rw [upd_self]
      exact hi
  · refine ⟨h.upd fun _ hv => (by cases hv), ?_, ?_, fun c' hc' => upd_ne hc'⟩
    · rw [upd_self]
      exact Int.one_pos
    · rw [upd_self]

theorem load (h : Clean d s) (hr : 0 < (s.cache c).ref)
    (ht : (d.dinode (s.cache c).inum).type ≠ .free) :
    ∃ s', s.load c = .ok s' ∧ Clean d s' ∧ (∀ c' ≠ c, s'.cache c' = s.cache c') ∧
      s'.cache c = { s.cache c with valid := true, ip := d.dinode (s.cache c).inum } := by
  unfold Inodes.load
  by_cases hv : (s.cache c).valid = true
  · rw [if_pos hv]
    refine ⟨s, rfl, h, fun _ _ => rfl, ?_⟩
    rw [← h.copy c hr hv, ← hv]
  rw [if_neg hv, h.disk]
  dsimp only
  rw [if_neg (by rw [upd_self]; exact ht)]
  exact ⟨_, rfl, h.upd fun _ _ => rfl, fun c' hc' => upd_ne hc', upd_self _ _ _⟩

end Clean

end Inodes

/-! ### The walk -/

namespace Kern

variable {s : FsState} {i : Inodes} {p : Fin NPROC} {c : Fin NINODE}

theorem run_onInodes {α : Type} {f : Inodes → Res (α × Inodes)} {a : α}
    (h : f s.inodes = .ok (a, i)) : (onInodes f).run s = .ok (a, { s with inodes := i }) := by
  unfold onInodes
  rw [Routine.run_lift, h]
  rfl

theorem run_acquiresleep (h : s.lock c = none) :
    (acquiresleep p c).run s = .ok ((), s.setLock c (some p)) := by
  unfold acquiresleep
  rw [Routine.run_lift, if_pos h]

/-- `ilock` of an inode that nobody has locked. -/
theorem run_ilock (hr : 0 < (s.inodes.cache c).ref) (hl : s.lock c = none)
    (h : s.inodes.load c = .ok i) :
    (ilock p c).run s = .ok ((), { s.setLock c (some p) with inodes := i }) := by
  refine Routine.run_bind_eq_ok.mpr ⟨s.inodes.cache c, s, rfl, ?_⟩
  rw [if_neg (by omega)]
  refine Routine.run_bind_eq_ok.mpr ⟨(), _, run_acquiresleep hl, ?_⟩
  refine run_onInodes ?_
  show (do return ((), ← s.inodes.load c) : Res (Unit × Inodes)) = _
  rw [h]
  rfl

/-- `iunlockput` of an inode that has links. -/
theorem run_iunlockput (sb : Super) (p : Fin NPROC) (hl : s.lock c ≠ none) (hr : 0 < s.ref c)
    (hlink : (s.inodes.cache c).ip.nlink ≠ 0) :
    ∃ s', (iunlockput sb p c).run s = .ok ((), s') ∧ s'.inodes = s.inodes.deref c ∧
      s'.lock = update s.lock c none := by
  have hunlock : (iunlock c).run s = .ok ((), s.setLock c none) := by
    unfold iunlock
    rw [Routine.run_lift, if_neg (not_or.mpr ⟨hl, by omega⟩)]
  set s₁ := s.setLock c none with hs₁
  have hfree : s₁.lock c = none := update_self _ _ _
  set s₂ := s₁.setLock c (some p) with hs₂
  have hkeep : s₂.inodes.iputFree sb c = .ok s₂.inodes := if_neg fun h => hlink h.2.1
  refine ⟨{ s₂.setLock c none with inodes := s.inodes.deref c }, ?_, rfl, ?_⟩
  · refine Routine.run_bind_eq_ok.mpr ⟨(), s₁, hunlock, ?_⟩
    refine Routine.run_bind_eq_ok.mpr ⟨(), s₂, run_acquiresleep hfree, ?_⟩
    refine Routine.run_bind_eq_ok.mpr ⟨(), s₂, run_onInodes ?_, ?_⟩
    · show (do return ((), ← s₂.inodes.iputFree sb c) : Res (Unit × Inodes)) = _
      rw [hkeep]
      rfl
    · rfl
  · show update (update (update s.lock c none) c (some p)) c none = _
    rw [update_idem, update_idem]

end Kern

namespace Mkfs

open Disk

/-- The kernel on the disk `d`, when nothing has changed on it and nobody is using an inode. -/
structure Mounted (d : Disk) (s : FsState) : Prop where
  clean : Inodes.Clean d s.inodes
  unlocked : ∀ c, s.lock c = none

namespace OnDisk

variable {files : List SrcFile} {f : SrcFile} {d : Disk} {s : FsState} {i : Inodes} {k : Nat}
  {p : Fin NPROC} {c : Fin NINODE}

/-- Entry `k` of the root directory, as the kernel reads it. -/
theorem readDirent (h : OnDisk files d) (hn : files.length + 2 ≤ mkfsSuper.ninodes) {de : Dirent}
    (hd : i.disk = d) (hip : (i.cache c).ip = d.dinode ROOTINO)
    (hk : (Mkfs.entries files)[k]? = some de) (hde : de.inum < 65536) (msg : String) :
    i.readDirent mkfsSuper msg c (DESIZ * k) = .ok (⟨de.inum, de.name.take DIRSIZ⟩, i) := by
  have hlt : k < files.length + 2 := by
    rw [← length_entries]
    exact (List.getElem?_eq_some_iff.mp hk).1
  have hbound : mkfsSuper.ninodes = 200 := rfl
  have hend : DESIZ * k + DESIZ ≤ DESIZ * (files.length + 2) := by
    rw [← mul_succ]
    exact mul_le_mul_left _ hlt
  have hsmall : DESIZ * (files.length + 2) < UINT :=
    lt_of_le_of_lt (mul_le_mul_left _ hn) (by decide)
  have hsize := h.size
  have hpos : 0 < DESIZ := by decide
  -- the bytes of the entry
  have hbytes : ((d.content ROOTINO).drop (DESIZ * k)).take DESIZ = de.toBytes := by
    have hfront : (d.content ROOTINO).take (DESIZ * (files.length + 2)) =
        (Mkfs.entries files).flatMap Dirent.toBytes := by
      rw [← h.entries]
      unfold content
      rw [← map_take, take_range, min_eq_left hsize]
    rw [← slice_toBytes hk, ← hfront, take_drop, take_drop, take_take, min_eq_left hend]
  have hread : d.readi mkfsSuper Inodes.noDev (d.dinode ROOTINO) (DESIZ * k) DESIZ = _ :=
    readi_present (fun j _ hj _ => h.present j (by omega)) (by rw [h.root.1]; decide) (by omega)
      (by decide)
  rw [hbytes, if_neg (by rw [length_content]; omega), length_toBytes] at hread
  have hsame : ({ i with disk := d } : Inodes).upd c (fun e => { e with ip := d.dinode ROOTINO }) =
      i := by
    rw [← hip, ← hd]
    unfold Inodes.upd
    dsimp only
    rw [update_eq_self]
  unfold Inodes.readDirent Inodes.readi
  rw [hip, hd, hread]
  simp only [Res.ok_bind, Res.pure_eq_ok]
  rw [if_neg fun hne => hne rfl, hsame, Dirent.ofBytes_toBytes hde]

/-- The names of the entries before that of file `k` are other names. -/
theorem name_ne (hdots : ∀ f ∈ files, stored f.1 ≠ dot ∧ stored f.1 ≠ dotdot)
    (hdistinct : (files.map fun f => (stored f.1).take DIRSIZ).Nodup) (hk : files[k]? = some f)
    {j : Nat} {de : Dirent} (hj : j < k + 2) (hde : (Mkfs.entries files)[j]? = some de) :
    (stored f.1).take DIRSIZ ≠ de.name.take DIRSIZ := by
  obtain ⟨hdot, hdotdot⟩ := hdots f (mem_of_getElem? hk)
  -- a name of two bytes or less is cut off nowhere
  have hshort : ∀ s : Str, s.length ≤ 2 → (stored f.1).take DIRSIZ = s.take DIRSIZ →
      stored f.1 = s := by
    intro s hs he
    have hlen := congrArg length he
    rw [take_of_length_le (le_trans hs (by decide))] at he hlen
    rw [length_take] at hlen
    have hfull : (stored f.1).length ≤ DIRSIZ := by
      simp only [DIRSIZ] at *
      omega
    rw [take_of_length_le hfull] at he
    exact he
  intro he
  match j, hde with
  | 0, hde =>
    cases hde
    exact hdot (hshort dot (by decide) he)
  | 1, hde =>
    cases hde
    exact hdotdot (hshort dotdot (by decide) he)
  | j + 2, hde =>
    have hde : (files.mapIdx fun k f => (⟨k + 2, stored f.1⟩ : Dirent))[j]? = some de := hde
    rw [getElem?_mapIdx, Option.map_eq_some_iff] at hde
    obtain ⟨g, hg, rfl⟩ := hde
    have hg' : (files.map fun f => (stored f.1).take DIRSIZ)[j]? =
        some ((stored g.1).take DIRSIZ) := by rw [getElem?_map, hg]; rfl
    have hk' : (files.map fun f => (stored f.1).take DIRSIZ)[k]? =
        some ((stored g.1).take DIRSIZ) := by
      rw [getElem?_map, hk]
      exact congrArg some he
    have hlt := (List.getElem?_eq_some_iff.mp hg').1
    have := (getElem?_inj hlt hdistinct).mp (hg'.trans hk'.symm)
    omega

/-- **`dirlookup` finds the entry of a file.** -/
theorem dirSearch (h : OnDisk files d) (hn : files.length + 2 ≤ mkfsSuper.ninodes)
    (hdots : ∀ f ∈ files, stored f.1 ≠ dot ∧ stored f.1 ≠ dotdot)
    (hdistinct : (files.map fun f => (stored f.1).take DIRSIZ).Nodup) (hk : files[k]? = some f)
    (hd : i.disk = d) (hip : (i.cache c).ip = d.dinode ROOTINO) :
    i.dirSearch mkfsSuper c ((stored f.1).take DIRSIZ) =
      .ok (some (⟨k + 2, (stored f.1).take DIRSIZ⟩, DESIZ * (k + 2)), i) := by
  have hbound : mkfsSuper.ninodes = 200 := rfl
  have hlt := (List.getElem?_eq_some_iff.mp hk).1
  have hlen := length_entries files
  -- entry `j`, as it is read
  have hentry : ∀ j ≤ k + 2, ∃ de, (Mkfs.entries files)[j]? = some de ∧ de.inum < 65536 := by
    intro j hj
    have hin : j < (Mkfs.entries files).length := by omega
    refine ⟨_, getElem?_eq_getElem hin, ?_⟩
    match j with
    | 0 => exact (by decide : ROOTINO < 65536)
    | 1 => exact (by decide : ROOTINO < 65536)
    | j + 2 =>
      simp only [Mkfs.entries, getElem_cons_succ, getElem_mapIdx]
      omega
  have hlast : (Mkfs.entries files)[k + 2]? = some ⟨k + 2, stored f.1⟩ := by
    simp [Mkfs.entries, getElem?_mapIdx, hk]
  set entry : Nat → Dirent := fun j =>
    let de := (Mkfs.entries files).getD j ⟨0, []⟩
    ⟨de.inum, de.name.take DIRSIZ⟩ with hdef
  have hget : ∀ {j : Nat} {de : Dirent}, (Mkfs.entries files)[j]? = some de →
      entry j = ⟨de.inum, de.name.take DIRSIZ⟩ := by
    intro j de hj
    simp only [hdef, getD_eq_getElem?_getD, hj, Option.getD_some]
  have htake : ∀ s : Str, (s.take DIRSIZ).take DIRSIZ = s.take DIRSIZ := fun s => by
    rw [take_take, min_self]
  have hcount : k + 2 < i.entryCount c := by
    have hsize := h.size
    unfold Inodes.entryCount
    rw [hip]
    simp only [DESIZ, DIRSIZ] at *
    omega
  unfold Inodes.dirSearch
  rw [hip, h.root.1, if_neg fun hne => hne rfl]
  have hkey : (⟨k + 2, (stored f.1).take DIRSIZ⟩ : Dirent) = entry (k + 2) := (hget hlast).symm
  rw [hkey]
  refine Inodes.dirFind_found (fun j hj => ?_) ?_ (fun j hj => ?_) hcount
  · obtain ⟨de, hde, hinum⟩ := hentry j hj
    rw [hget hde]
    exact h.readDirent hn hd hip hde hinum _
  · rw [hget hlast]
    refine decide_eq_true ⟨succ_ne_zero _, (strncmp_eq_zero DIRSIZ).mpr ?_⟩
    rw [htake]
  · obtain ⟨de, hde, -⟩ := hentry j (le_of_lt hj)
    rw [hget hde]
    refine decide_eq_false fun hm => name_ne hdots hdistinct hk hj hde ?_
    have := (strncmp_eq_zero DIRSIZ).mp hm.2
    rw [htake, htake] at this
    exact this

/-- **`namei` finds the inode of a file.** -/
theorem namei (h : OnDisk files d) (hn : files.length + 2 ≤ mkfsSuper.ninodes)
    (hslash : ∀ f ∈ files, slash ∉ f.1 ∧ stored f.1 ≠ [])
    (hdots : ∀ f ∈ files, stored f.1 ≠ dot ∧ stored f.1 ≠ dotdot)
    (hdistinct : (files.map fun f => (stored f.1).take DIRSIZ).Nodup) (hk : files[k]? = some f)
    (hs : Mounted d s) {a b : Fin NINODE} (hab : a ≠ b) (ha : s.ref a = 0) (hb : s.ref b = 0) :
    ∃ c s', (Kern.namei mkfsSuper p (slash :: stored f.1)).run s = .ok (some c, s') ∧
      Mounted d s' ∧ 0 < s'.ref c ∧ (s'.inodes.cache c).inum = k + 2 := by
  obtain ⟨hfs, hne⟩ := hslash f (mem_of_getElem? hk)
  have hns : slash ∉ stored f.1 := fun hmem => hfs (by
    unfold stored at hmem
    split at hmem
    · exact mem_of_mem_tail hmem
    · exact hmem)
  -- the root directory is taken, and locked
  obtain ⟨c₁, i₁, h₁⟩ := Inodes.iget_ok ha ROOTINO
  obtain ⟨hc₁, hr₁, hi₁, ho₁⟩ := hs.clean.iget h₁
  have htype₁ : (d.dinode (i₁.cache c₁).inum).type ≠ .free := by
    rw [hi₁, h.root.1]
    decide
  obtain ⟨i₂, h₂, hc₂, ho₂, he₂⟩ := hc₁.load hr₁ htype₁
  rw [hi₁] at he₂
  set s₂ : FsState := { ({ s with inodes := i₁ } : FsState).setLock c₁ (some p) with inodes := i₂ }
    with hs₂
  have hip₂ : (i₂.cache c₁).ip = d.dinode ROOTINO := by rw [he₂]
  have hr₂ : 0 < (i₂.cache c₁).ref := by rw [he₂]; exact hr₁
  -- its entry for the file
  have hfind := h.dirSearch hn hdots hdistinct hk hc₂.disk hip₂
  obtain ⟨x, hx⟩ : ∃ x, (i₂.cache x).ref = 0 := by
    have hkeep : ∀ x, x ≠ c₁ → (i₂.cache x).ref = s.ref x := fun x hx => by
      rw [ho₂ x hx, ho₁ x hx]
      rfl
    by_cases e : a = c₁
    · exact ⟨b, (hkeep b fun e' => hab (e.trans e'.symm)).trans hb⟩
    · exact ⟨a, (hkeep a e).trans ha⟩
  obtain ⟨c₂, i₃, h₃⟩ := Inodes.iget_ok hx (k + 2)
  obtain ⟨hc₃, hr₃, hi₃, ho₃⟩ := hc₂.iget h₃
  have hne₂ : c₁ ≠ c₂ := by
    intro e
    subst e
    obtain ⟨-, hinum, -⟩ | ⟨hzero, -, -⟩ := Inodes.iget_cases h₃
    · rw [he₂] at hinum
      have : (i₁.cache c₁).inum = k + 2 := hinum
      rw [hi₁, ROOTINO] at this
      omega
    · omega
  -- the root directory is given back
  have hroot₃ : i₃.cache c₁ = i₂.cache c₁ := ho₃ c₁ hne₂
  obtain ⟨s', hput, hinodes, hlock⟩ := Kern.run_iunlockput mkfsSuper p
    (s := { s₂ with inodes := i₃ }) (c := c₁) (by
      show update s.lock c₁ (some p) c₁ ≠ none
      rw [update_self]
      exact Option.some_ne_none p)
    (by
      show 0 < (i₃.cache c₁).ref
      rw [hroot₃]
      exact hr₂)
    (by
      show (i₃.cache c₁).ip.nlink ≠ 0
      rw [hroot₃, hip₂, h.root.2]
      decide)
  have hself : s'.inodes.cache c₂ = i₃.cache c₂ := by
    rw [hinodes]
    exact Inodes.upd_ne hne₂.symm
  refine ⟨c₂, s', ?_, ⟨?_, fun x => ?_⟩, ?_, ?_⟩
  · have hloop : (Kern.namexLoop mkfsSuper p false ((slash :: stored f.1).length + 1) c₁
        (slash :: stored f.1) []).run { s with inodes := i₁ } =
        .ok (some (c₂, (stored f.1).take DIRSIZ), s') := by
      rw [Kern.namexLoop, skipelem_name hne hns]
      refine Routine.run_bind_eq_ok.mpr ⟨(), s₂, Kern.run_ilock hr₁ (hs.unlocked c₁) h₂, ?_⟩
      refine Routine.run_bind_eq_ok.mpr ⟨i₂.cache c₁, s₂, rfl, ?_⟩
      rw [hip₂, h.root.1, if_neg fun hne => hne rfl, if_neg fun hand => Bool.noConfusion hand.1]
      refine Routine.run_bind_eq_ok.mpr
        ⟨some (c₂, DESIZ * (k + 2)), { s₂ with inodes := i₃ }, ?_, ?_⟩
      · refine Routine.run_bind_eq_ok.mpr ⟨_, s₂, Kern.run_onInodes hfind, ?_⟩
        exact Routine.run_bind_eq_ok.mpr ⟨c₂, _, Kern.run_onInodes h₃, rfl⟩
      · refine Routine.run_bind_eq_ok.mpr ⟨(), s', hput, ?_⟩
        rfl
    refine Routine.run_bind_eq_ok.mpr ⟨some (c₂, (stored f.1).take DIRSIZ), s', ?_, rfl⟩
    refine Routine.run_bind_eq_ok.mpr ⟨c₁, { s with inodes := i₁ }, ?_, hloop⟩
    unfold Kern.namexStart
    rw [if_pos (show (slash :: stored f.1).head? = some slash from rfl)]
    exact Kern.run_onInodes h₁
  · rw [hinodes]
    refine hc₃.upd fun _ hv => ?_
    rw [hroot₃] at hv ⊢
    exact hc₂.copy c₁ hr₂ hv
  · rw [hlock]
    show update (update s.lock c₁ (some p)) c₁ none x = none
    rw [update_idem]
    by_cases e : x = c₁
    · rw [e, update_self]
    · rw [update_of_ne e]
      exact hs.unlocked x
  · show 0 < (s'.inodes.cache c₂).ref
    rw [hself]
    exact hr₃
  · rw [hself]
    exact hi₃

/-- `ilock` of the inode of a file. -/
theorem ilock (h : OnDisk files d) (hk : files[k]? = some f) (hs : Mounted d s)
    (hr : 0 < s.ref c) (hi : (s.inodes.cache c).inum = k + 2) :
    ∃ s', (Kern.ilock p c).run s = .ok ((), s') ∧ s'.inodes.disk = d ∧
      (s'.inodes.cache c).ip = d.dinode (k + 2) := by
  obtain ⟨htype, -, -⟩ := h.file k f hk
  obtain ⟨i', hl, hc', -, he⟩ := hs.clean.load hr (by rw [hi, htype]; decide)
  refine ⟨_, Kern.run_ilock hr (hs.unlocked c) hl, hc'.disk, ?_⟩
  show (i'.cache c).ip = _
  rw [he, hi]

/-- **`readi` of a file.** -/
theorem readi (h : OnDisk files d) (hk : files[k]? = some f) (hd : s.inodes.disk = d)
    (hip : (s.inodes.cache c).ip = d.dinode (k + 2)) {off n : Nat} (hoff : off ≤ f.bytes.length)
    (hmax : off + n < UINT) (reply : Int × List UInt8) :
    (Kern.readi mkfsSuper p c off n reply).run s =
      .ok ((((f.bytes.drop off).take n).length, (f.bytes.drop off).take n), s) := by
  obtain ⟨htype, hcont, hpres⟩ := h.file k f hk
  have hread : d.readi mkfsSuper Inodes.noDev (d.dinode (k + 2)) off n = _ :=
    readi_present (fun j _ _ hj => hpres j hj) (by rw [htype]; decide) (by omega) (by omega)
  rw [hcont, if_neg (by omega)] at hread
  have hsame : ({ s.inodes with disk := d } : Inodes).upd c
      (fun e => { e with ip := d.dinode (k + 2) }) = s.inodes := by
    rw [← hip, ← hd]
    unfold Inodes.upd
    dsimp only
    rw [update_eq_self]
  refine Routine.run_bind_eq_ok.mpr ⟨s.inodes.cache c, s, rfl, ?_⟩
  rw [hip, htype, if_neg FileType.noConfusion]
  refine Kern.run_onInodes ?_
  unfold Inodes.readi
  rw [hip, hd, hread]
  simp only [Res.ok_bind, Res.pure_eq_ok]
  rw [hsame]

end OnDisk

/-! ### The image -/

/-- **The files come back.**  If the files fit, `mkfs` builds an image with the super block of the
kernel, on which the kernel finds each file by its name and reads its bytes, and every block that is
reached is marked in the bitmap and is reached once. -/
theorem mkfs_image_read_back (files : List SrcFile) (hcount : files.length ≤ 198)
    (hname : ∀ f ∈ files, slash ∉ f.1 ∧ stored f.1 ≠ [] ∧ stored f.1 ≠ dot ∧ stored f.1 ≠ dotdot)
    (hdistinct : (files.map fun f => (stored f.1).take DIRSIZ).Nodup)
    (hsize : ∀ f ∈ files, f.bytes.length ≤ (NDIRECT + NINDIRECT) * BSIZE)
    (hfit : mkfsSuper.nmeta + blocksOf (DESIZ * (files.length + 2)) + fileBlocks files ≤ FSSIZE) :
    ∃ m, main files = .ok m ∧ m.img 1 = superBlock ∧
      (∀ f ∈ files, ∀ (s : FsState) (p : Fin NPROC) (a b : Fin NINODE),
        Mounted (Disk.ofImage mkfsSuper m.img) s → a ≠ b → s.ref a = 0 → s.ref b = 0 →
        ∃ c s₁ s₂, (Kern.namei mkfsSuper p (slash :: stored f.1)).run s = .ok (some c, s₁) ∧
          (Kern.ilock p c).run s₁ = .ok ((), s₂) ∧ (s₂.inodes.cache c).ip.type = .file ∧
          (s₂.inodes.cache c).ip.size = f.bytes.length ∧
          ∀ off n reply, off ≤ f.bytes.length → off + n < UINT →
            (Kern.readi mkfsSuper p c off n reply).run s₂ =
              .ok ((((f.bytes.drop off).take n).length, (f.bytes.drop off).take n), s₂)) ∧
      ∀ i q, (Disk.ofImage mkfsSuper m.img).Alloc mkfsSuper i →
        (Disk.ofImage mkfsSuper m.img).ptr i q ≠ 0 →
        m.img.bit mkfsSuper ((Disk.ofImage mkfsSuper m.img).ptr i q) = true ∧
        ∀ j r, (Disk.ofImage mkfsSuper m.img).Alloc mkfsSuper j →
          (Disk.ofImage mkfsSuper m.img).ptr i q = (Disk.ofImage mkfsSuper m.img).ptr j r →
          i = j ∧ q = r := by
  have hn : files.length + 2 ≤ mkfsSuper.ninodes := by
    have : mkfsSuper.ninodes = 200 := rfl
    omega
  obtain ⟨m, hm, hsuper, h⟩ := main_ok hn (fun f hf => ⟨(hname f hf).1, hsize f hf⟩) hfit
  refine ⟨m, hm, hsuper, fun f hf s p a b hs hab ha hb => ?_, fun i q hi hq => ?_⟩
  · obtain ⟨k, hk⟩ := mem_iff_getElem?.mp hf
    obtain ⟨c, s₁, h₁, hs₁, hr, hi⟩ := h.namei (p := p) hn
      (fun g hg => ⟨(hname g hg).1, (hname g hg).2.1⟩) (fun g hg => (hname g hg).2.2) hdistinct hk
      hs hab ha hb
    obtain ⟨s₂, h₂, hd, hip⟩ := h.ilock (p := p) hk hs₁ hr hi
    obtain ⟨htype, hcont, -⟩ := h.file k f hk
    refine ⟨c, s₁, s₂, h₁, h₂, ?_, ?_, fun off n reply hoff hmax => ?_⟩
    · rw [hip]
      exact htype
    · rw [hip, ← length_content, hcont]
    · exact h.readi hk hd hip hoff hmax reply
  · exact ⟨h.used i q hi hq, fun j r hj he => h.once i j q r hi hj hq he⟩

/-- The state in which the kernel starts, on the disk `d`. -/
def boot (d : Disk) : FsState where
  inodes := ⟨d, fun _ => ⟨0, 0, false, Dinode.zero⟩⟩
  lock _ := none
  files _ := ⟨.none, 0, false, false, 0⟩
  procs _ := ⟨.unused, fun _ => none, none, []⟩

theorem mounted_boot (d : Disk) : Mounted d (boot d) :=
  ⟨⟨rfl, fun _ _ hv => (by cases hv)⟩, fun _ => rfl⟩

/-- A file `_a` of two bytes, in two reads. -/
def smallFile : SrcFile := ([underscore, chrA], [[1], [2]])

theorem mkfs_image_read_back_small : ∃ m, main [smallFile] = .ok m ∧
    ∃ c s₁ s₂, (Kern.namei mkfsSuper 0 (slash :: stored smallFile.1)).run
        (boot (Disk.ofImage mkfsSuper m.img)) = .ok (some c, s₁) ∧
      (Kern.ilock 0 c).run s₁ = .ok ((), s₂) ∧
      (Kern.readi mkfsSuper 0 c 0 100 (0, [])).run s₂ = .ok ((2, [1, 2]), s₂) := by
  obtain ⟨m, hm, -, hfile, -⟩ := mkfs_image_read_back [smallFile] (by decide) (by decide)
    (by decide) (by decide) (by decide)
  obtain ⟨c, s₁, s₂, h₁, h₂, -, -, h₃⟩ := hfile smallFile mem_cons_self
    (boot (Disk.ofImage mkfsSuper m.img)) 0 0 1 (mounted_boot _) (by decide) rfl rfl
  exact ⟨m, hm, c, s₁, s₂, h₁, h₂, h₃ 0 100 (0, []) (by decide) (by decide)⟩

end Mkfs

end Xv6
