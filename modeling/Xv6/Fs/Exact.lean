import Xv6.Fs.Balance

/-!
# Fs — Exact

Reference counts are exact between calls.  Every call starts with the account of a process at rest
and, whatever it returns, ends with such an account (`keeps_call`); so in any interleaving of calls
of any number of processes, when no call is in progress, `f->ref` is the number of descriptors of
`f`, `ip->ref` is the number of open files and current directories on `ip`, and no sleep lock of an
inode is held (`refs_exact`).
-/

namespace Xv6

open Lib Function List Multiset Option

namespace Kern

open FsState

variable {α : Type} {sb : Super} {p c : Fin NPROC} {h : Hold} {e ip dp : Fin NINODE} {f : Fin NFILE}
  {r : FProc} {fd : Fin NOFILE} {m l : Multiset (Fin NINODE)}

/-! ### Slots -/

theorem slots_set (r : FProc) (fd : Fin NOFILE) (v : Option (Fin NFILE)) :
    slots { r with ofile := update r.ofile fd v } + one (r.ofile fd) = slots r + one v :=
  tally_update (fun _ (x : Option (Fin NFILE)) => one x) r.ofile fd v

/-- A descriptor is given out. -/
theorem slots_put (hfd : r.ofile fd = none) (f : Fin NFILE) :
    slots { r with ofile := update r.ofile fd (some f) } = f ::ₘ slots r := by
  have := slots_set r fd (some f)
  rw [hfd] at this
  simpa [one, add_comm] using this

/-- A descriptor is taken back. -/
theorem slots_take (hfd : r.ofile fd = some f) :
    slots r = f ::ₘ slots { r with ofile := update r.ofile fd none } := by
  have := slots_set r fd none
  rw [hfd] at this
  simpa [one, add_comm] using this.symm

theorem mem_slots (hfd : r.ofile fd = some f) : f ∈ slots r := by
  rw [slots_take hfd]
  exact mem_cons_self _ _

theorem slots_eq_zero (hr : ∀ fd, r.ofile fd = none) : slots r = 0 := by
  unfold slots
  refine Finset.sum_eq_zero fun fd _ => ?_
  rw [hr fd]
  rfl

/-! ### Files -/

theorem not_fresh {s : FsState} {G : Accounts} (hI : s.Inv G) (hp : G p = some h)
    (hf : f ∈ h.files) : ∀ q k, q ≠ p → G q = some k → f ∉ k.fresh := by
  intro q k hne hq hfresh
  have := hI.fresh_excl hq hfresh hne hp
  exact count_eq_zero.mp this hf

theorem keeps_filealloc : Keeps p filealloc h fun r h' => match r with
    | none => h' = h
    | some f => f ∉ h.files ∧
        h' = { h with files := f ::ₘ h.files, fresh := insert f h.fresh } :=
  .lift fun s G a s' hI hp hr => by
    split at hr
    · cases hr
      exact ⟨h, by rwa [update_eq_self_iff.mpr hp.symm], rfl⟩
    next f hf =>
    cases hr
    have hzero : (s.files f).ref = 0 := by simpa using find?_some hf
    have hcount : h.files.count f = 0 := by
      have := hI.count_files (f := f) hp
      omega
    refine ⟨_, ?_, count_eq_zero.mp hcount, rfl⟩
    refine hI.setFile hp rfl rfl rfl ?_ ?_ rfl (by simp) ?_ ?_
    · simp [hzero, Int.add_comm]
    · intro f' hne
      simp [hne]
    · intro f' hf'
      by_cases e' : f' = f
      · exact .inl ⟨e', hI.closed f hzero, rfl, by simp [hcount]⟩
      · exact .inr ⟨e', Finset.mem_of_mem_insert_of_ne hf' e'⟩
    · intro q k _ hq hfresh
      have := ((hI.acct q k hq).fresh f hfresh).ref
      omega

theorem keeps_filedup (hf : f ∈ h.files) (hfresh : h.fresh = ∅) :
    Keeps p (filedup f) h fun _ h' => h' = { h with files := f ::ₘ h.files } :=
  .lift fun s G a s' hI hp hr => by
    split at hr
    · cases hr
    next href =>
    cases hr
    refine ⟨_, ?_, rfl⟩
    refine hI.setFile hp rfl rfl rfl ?_ ?_ rfl ?_ (by simp [hfresh]) (not_fresh hI hp hf)
    · simp
      omega
    · intro f' hne
      simp [hne]
    · intro hz
      dsimp only at hz
      omega

/-- A reference to a file is given back; the last one hands over the reference to the inode. -/
theorem keeps_closeFile {m : Multiset (Fin NFILE)} (F : Finset (Fin NFILE))
    (hm : h.files = f ::ₘ m) (hF : F ⊆ h.fresh) (hf : f ∉ F) : Keeps p (closeFile f) h fun r h' =>
      h' = { h with
        files := m, fresh := F, inodes := (r.elim 0 fun ff => ff.type.refs) + h.inodes } :=
  .lift fun s G a s' hI hp hr => by
    have hmem : f ∈ h.files := by simp [hm]
    have hne : ∀ f', f' ≠ f → m.count f' = h.files.count f' := fun f' hne => by simp [hm, hne]
    have hF' : ∀ f' ∈ F, f' ≠ f ∧ f' ∈ h.fresh := fun f' hf' => ⟨fun e' => hf (e' ▸ hf'), hF hf'⟩
    dsimp only at hr
    split at hr
    · cases hr
    split at hr
    · next hmore =>
      cases hr
      refine ⟨_, ?_, rfl⟩
      refine hI.setFile hp rfl rfl rfl ?_ hne ?_ (fun hz => ?_)
        (fun f' hf' => .inr (hF' f' hf')) (not_fresh hI hp hmem)
      · simp [hm]
      · simp
      · dsimp only at hz
        omega
    · next hlow hlast =>
      cases hr
      refine ⟨_, ?_, rfl⟩
      refine hI.setFile hp rfl rfl rfl ?_ hne ?_ (fun _ => rfl)
        (fun f' hf' => .inr (hF' f' hf')) (not_fresh hI hp hmem)
      · simp [hm]
        omega
      · simp [FdType.refs]

theorem keeps_fileclose {m : Multiset (Fin NFILE)} (F : Finset (Fin NFILE))
    (hm : h.files = f ::ₘ m) (hF : F ⊆ h.fresh) (hf : f ∉ F) :
    Keeps p (fileclose sb p f) h fun _ h' => h' = { h with files := m, fresh := F } := by
  unfold fileclose
  refine (keeps_closeFile F hm hF hf).seq fun r => ?_
  split
  · exact .ret (by simp)
  next ff =>
  split
  · next ip hip => exact keeps_iput (by simp [hip, FdType.refs])
  next hno =>
  refine .ret ?_
  cases ht : ff.type with
  | inode ip => exact absurd ht (hno ip)
  | none => simp [ht, FdType.refs]
  | pipe => simp [ht, FdType.refs]

/-- A file is closed when no file is new, or the only one. -/
theorem keeps_close {m : Multiset (Fin NFILE)} (hm : h.files = f ::ₘ m) :
    Keeps p (fileclose sb p f) h fun _ h' => h' = { h with files := m, fresh := ∅ } :=
  keeps_fileclose ∅ hm (Finset.empty_subset _) (Finset.notMem_empty f)

/-- A file that has just been allocated gets its fields, and with them the reference `t.refs`. -/
theorem keeps_initFile (F : Finset (Fin NFILE)) (t : FdType) (readable writable : Bool) (off : Nat)
    (hfresh : f ∈ h.fresh) (hm : h.inodes = t.refs + m) (hF : F ⊆ h.fresh) (hf : f ∉ F) :
    Keeps p (initFile f t readable writable off) h
      fun _ h' => h' = { h with inodes := m, fresh := F } :=
  .lift fun s G a s' hI hp hr => by
    cases hr
    obtain ⟨htype, href, hheld⟩ := (hI.acct p h hp).fresh f hfresh
    refine ⟨_, ?_, rfl⟩
    refine hI.setFile hp rfl rfl rfl rfl (fun _ _ => rfl) ?_ (fun hz => ?_)
      (fun f' hf' => .inr ⟨fun e' => hf (e' ▸ hf'), hF hf'⟩) (not_fresh hI hp ?_)
    · simp [htype, FdType.refs, hm]
    · dsimp only at hz
      omega
    · exact count_pos.mp (by omega)

/-- The offset of a file is advanced. -/
theorem keeps_setOff (hf : f ∈ h.files) (hfresh : h.fresh = ∅) (off : Nat) :
    Keeps p (set fun s => s.setFile f { s.files f with off := off }) h fun _ h' => h' = h :=
  .lift fun s G a s' hI hp hr => by
    cases hr
    exact ⟨h, hI.setFile hp rfl rfl rfl rfl (fun _ _ => rfl) rfl (hI.closed f) (by simp [hfresh])
      (not_fresh hI hp hf), rfl⟩

/-- The caller changes its own record. -/
theorem keeps_setProc (v : FProc → FProc) (hlive : (v h.proc).state = h.proc.state) :
    Keeps p (set fun s => s.setProc p (v (s.procs p))) h
      fun _ h' => h' = { h with proc := v h.proc } :=
  .lift fun s G a s' hI hp hr => by
    cases hr
    have ha := hI.acct p h hp
    refine ⟨_, ?_, rfl⟩
    change (s.setProc p (v (s.procs p))).Inv _
    rw [ha.proc]
    exact hI.setProc hp (hlive.trans ha.live)

theorem keeps_setOfile (fd : Fin NOFILE) (v : Option (Fin NFILE)) :
    Keeps p (setOfile p fd v) h fun _ h' =>
      h' = { h with proc := { h.proc with ofile := update h.proc.ofile fd v } } :=
  keeps_setProc (fun r => { r with ofile := update r.ofile fd v }) rfl

theorem keeps_setCwd (v : Option (Fin NINODE)) :
    Keeps p (setCwd p v) h fun _ h' => h' = { h with proc := { h.proc with cwd := v } } :=
  keeps_setProc (fun r => { r with cwd := v }) rfl

theorem keeps_fdalloc (f : Fin NFILE) : Keeps p (fdalloc p f) h fun r h' => match r with
      | none => h' = h
      | some fd => h.proc.ofile fd = none ∧
          h' = { h with proc :=
            { h.proc with ofile := update h.proc.ofile fd (some f) } } := by
  unfold fdalloc
  refine (keeps_own id).andThen ?_
  intro r x hx
  obtain ⟨rfl, hx⟩ := hx
  rw [hx]
  split
  · exact .ret rfl
  next fd hfd =>
  have hnone : h.proc.ofile fd = none := by simpa using find?_some hfd
  refine (keeps_setOfile fd (some f)).seq fun _ => ?_
  exact .ret ⟨hnone, rfl⟩

theorem keeps_argfd (fd : Int) : Keeps p (argfd p fd) h fun r h' => h' = h ∧
      ∀ x, r = some x → h.proc.ofile x.1 = some x.2 := by
  refine keeps_get_proc (f := fun r : FProc => (if h : 0 ≤ fd ∧ fd.toNat < NOFILE then
    (r.ofile ⟨fd.toNat, h.2⟩).map fun f => (⟨fd.toNat, h.2⟩, f) else none :
      Option (Fin NOFILE × Fin NFILE))) ⟨rfl, fun x hx => ?_⟩
  split at hx
  · obtain ⟨f, hf, rfl⟩ := map_eq_some_iff.mp hx
    exact hf
  · cases hx

theorem keeps_fileread (hf : f ∈ h.files) (hfresh : h.fresh = ∅) (n : Nat)
    (reply : Int × List UInt8) : Keeps p (fileread sb p f n reply) h fun _ h' => h' = h := by
  unfold fileread
  refine (keeps_read _).andThen ?_
  rintro ff h rfl
  split
  · exact .ret rfl
  split
  · exact keeps_panic _
  · exact .ret rfl
  next ip _ =>
  refine (keeps_ilock ip).seq fun _ => ?_
  refine (keeps_read _).seq fun ff => ?_
  refine (keeps_readi rfl ff.off n reply).andThen ?_
  rintro ⟨r, out⟩ _ rfl
  refine (keeps_onlyIf (c := r > 0) fun _ =>
    keeps_setOff (h := { h with locks := ip ::ₘ h.locks }) hf hfresh _).seq fun _ => ?_
  refine (keeps_iunlock rfl).seq fun _ => ?_
  exact .ret rfl

theorem keeps_writeLoop (ip : Fin NINODE) (src : List UInt8) (active : Int) (hf : f ∈ h.files)
    (hfresh : h.fresh = ∅) : ∀ n i : Nat,
    Keeps p (writeLoop sb p f ip src active n i) h fun _ h' => h' = h := by
  intro n
  induction n with
  | zero => intro i; exact .ret rfl
  | succ n ih =>
    intro i
    unfold writeLoop
    split
    · refine (keeps_ilock ip).seq fun _ => ?_
      refine (keeps_read _).seq fun ff => ?_
      refine (keeps_writei rfl ff.off _ active).seq fun r => ?_
      refine (keeps_onlyIf (c := r > 0) fun _ =>
        keeps_setOff (h := { h with locks := ip ::ₘ h.locks }) hf hfresh _).seq fun _ => ?_
      refine (keeps_iunlock rfl).seq fun _ => ?_
      split
      · exact .ret rfl
      · split
        · exact keeps_panic _
        · exact ih _
    · exact .ret rfl

theorem keeps_filewrite (hf : f ∈ h.files) (hfresh : h.fresh = ∅) (src : List UInt8)
    (active reply : Int) : Keeps p (filewrite sb p f src active reply) h fun _ h' => h' = h := by
  unfold filewrite
  refine (keeps_read _).andThen ?_
  rintro ff h rfl
  split
  · exact .ret rfl
  split
  · exact keeps_panic _
  · exact .ret rfl
  · exact keeps_writeLoop _ src active hf hfresh _ _

/-! ### Calls that only walk paths -/

theorem keeps_linkBad (hm : h.inodes = ip ::ₘ m) :
    Keeps p (linkBad sb p ip) h fun _ h' => h' = { h with inodes := m } := by
  unfold linkBad
  refine (keeps_ilock ip).seq fun _ => ?_
  refine (keeps_addLink ip (-1)).seq fun _ => ?_
  refine (keeps_iunlockput (h := { h with locks := ip ::ₘ h.locks }) rfl hm).seq fun _ => ?_
  exact .ret rfl

theorem keeps_sysLink (old new : Str) : Keeps p (sysLink sb p old new) h fun _ h' => h' = h := by
  unfold sysLink
  refine (keeps_namei old).seq fun r => ?_
  split
  · exact .ret (by simp)
  next ip =>
  rw [found_some]
  refine (keeps_ilock ip).seq fun _ => ?_
  refine (keeps_look ip).seq fun c => ?_
  split
  · refine (keeps_iunlockput rfl rfl).seq fun _ => ?_
    exact .ret rfl
  refine (keeps_addLink ip 1).seq fun _ => ?_
  refine (keeps_iunlock rfl).seq fun _ => ?_
  refine (keeps_nameiparent new).seq fun r => ?_
  split
  · rw [map_none, found_none]
    exact keeps_linkBad rfl
  next dp name =>
  rw [map_some, found_some]
  refine (keeps_ilock dp).seq fun _ => ?_
  refine (keeps_dirlink dp name c.inum).seq fun r => ?_
  split
  · refine (keeps_iunlockput rfl rfl).seq fun _ => ?_
    exact keeps_linkBad rfl
  · refine (keeps_iunlockput rfl rfl).seq fun _ => ?_
    refine (keeps_iput rfl).seq fun _ => ?_
    exact .ret rfl

theorem keeps_unlinkEntry (hl : h.locks = ip ::ₘ dp ::ₘ l) (hm : h.inodes = ip ::ₘ dp ::ₘ m)
    (off : Nat) (type : FileType) : Keeps p (unlinkEntry sb p dp ip off type) h
      fun _ h' => h' = { h with locks := l, inodes := m } := by
  rw [cons_swap] at hl hm
  unfold unlinkEntry
  refine (keeps_onInodes fun i a i' hi => Inodes.sameRefs_dirClear hi).andThen ?_
  rintro _ h rfl
  refine (keeps_onlyIf (c := type = .dir) fun _ => keeps_addLink dp (-1)).andThen ?_
  rintro _ h rfl
  refine (keeps_iunlockput hl hm).seq fun _ => ?_
  refine (keeps_addLink ip (-1)).seq fun _ => ?_
  refine (keeps_iunlockput rfl rfl).seq fun _ => ?_
  exact .ret rfl

theorem keeps_maybeEmpty (ip : Fin NINODE) (type : FileType) :
    Keeps p (maybeEmpty sb ip type) h fun _ h' => h' = h := by
  unfold maybeEmpty
  split
  · exact keeps_onInodes fun i a i' hi => Inodes.sameRefs_isdirempty hi
  · exact .ret rfl

theorem keeps_sysUnlink (path : Str) : Keeps p (sysUnlink sb p path) h fun _ h' => h' = h := by
  unfold sysUnlink
  refine (keeps_nameiparent path).seq fun r => ?_
  split
  · exact .ret (by simp)
  next dp name =>
  rw [map_some, found_some]
  refine (keeps_ilock dp).seq fun _ => ?_
  split
  · refine (keeps_iunlockput rfl rfl).seq fun _ => ?_
    exact .ret rfl
  refine (keeps_dirlookup dp name).seq fun r => ?_
  split
  · rw [map_none, found_none]
    refine (keeps_iunlockput rfl rfl).seq fun _ => ?_
    exact .ret rfl
  next ip off =>
  rw [map_some, found_some]
  refine (keeps_ilock ip).seq fun _ => ?_
  refine (keeps_look ip).seq fun c => ?_
  split
  · exact keeps_panic _
  refine (keeps_maybeEmpty ip c.ip.type).seq fun empty => ?_
  split
  · exact keeps_unlinkEntry rfl rfl off c.ip.type
  · refine (keeps_iunlockput rfl rfl).seq fun _ => ?_
    refine (keeps_iunlockput rfl rfl).seq fun _ => ?_
    exact .ret rfl

/-- The account with an inode that is returned locked. -/
def foundLocked (h : Hold) (r : Option (Fin NINODE)) : Hold :=
  { h with inodes := one r + h.inodes, locks := one r + h.locks }

@[simp] theorem foundLocked_none (h : Hold) : foundLocked h none = h := by simp [foundLocked, one]

@[simp] theorem foundLocked_some (h : Hold) (e : Fin NINODE) : foundLocked h (some e) =
    { h with inodes := e ::ₘ h.inodes, locks := e ::ₘ h.locks } := by simp [foundLocked, one]

theorem keeps_createDots (dp ip : Fin NINODE) :
    Keeps p (createDots sb p dp ip) h fun _ h' => h' = h := by
  unfold createDots
  refine (keeps_addLink dp 1).seq fun _ => ?_
  refine (keeps_look ip).seq fun c => ?_
  refine (keeps_dirlink ip dot c.inum).seq fun r => ?_
  split
  · exact keeps_panic _
  refine (keeps_look dp).seq fun d => ?_
  refine (keeps_dirlink ip dotdot d.inum).seq fun r => ?_
  split
  · exact keeps_panic _
  · exact .ret rfl

theorem keeps_createNew (hl : h.locks = dp ::ₘ l) (hm : h.inodes = dp ::ₘ m) (name : Str)
    (type : FileType) (major minor : Int) : Keeps p (createNew sb p dp name type major minor) h
      fun r h' => h' = foundLocked { h with locks := l, inodes := m } r := by
  unfold createNew
  refine (keeps_ialloc type).seq fun ip => ?_
  refine (keeps_ilock ip).seq fun _ => ?_
  refine (keeps_iupdate ip _ _ _).seq fun _ => ?_
  refine (keeps_onlyIf (c := type = .dir) fun _ => keeps_createDots dp ip).seq fun _ => ?_
  refine (keeps_look ip).seq fun c => ?_
  refine (keeps_dirlink dp name c.inum).seq fun r => ?_
  split
  · exact keeps_panic _
  -- both inodes are held and locked until `dp` is given back
  refine (keeps_iunlockput (e := dp) (l := ip ::ₘ l) (m := ip ::ₘ m) ?_ ?_).andThen ?_
  · rw [hl, cons_swap]
  · rw [hm, cons_swap]
  · rintro _ _ rfl
    exact .ret (by simp)

theorem keeps_create (path : Str) (type : FileType) (major minor : Int) :
    Keeps p (create sb p path type major minor) h fun r h' => h' = foundLocked h r := by
  unfold create
  refine (keeps_nameiparent path).seq fun r => ?_
  split
  · exact .ret (by simp)
  next dp name =>
  rw [map_some, found_some]
  refine (keeps_ilock dp).seq fun _ => ?_
  refine (keeps_dirlookup dp name).seq fun r => ?_
  split
  · next ip off =>
    rw [map_some, found_some, cons_swap]
    refine (keeps_iunlockput rfl rfl).seq fun _ => ?_
    refine (keeps_ilock ip).seq fun _ => ?_
    refine (keeps_look ip).seq fun c => ?_
    split
    · exact .ret (by simp)
    · refine (keeps_iunlockput rfl rfl).seq fun _ => ?_
      exact .ret (by simp)
  · rw [map_none, found_none]
    exact keeps_createNew rfl rfl name type major minor

theorem keeps_openInode (path : Str) (omode : UInt32) :
    Keeps p (openInode sb p path omode) h fun r h' => h' = foundLocked h r := by
  unfold openInode
  split
  · exact keeps_create path .file 0 0
  refine (keeps_namei path).seq fun r => ?_
  split
  · exact .ret (by simp)
  next ip =>
  rw [found_some]
  refine (keeps_ilock ip).seq fun _ => ?_
  refine (keeps_look ip).seq fun c => ?_
  split
  · refine (keeps_iunlockput rfl rfl).seq fun _ => ?_
    exact .ret (by simp)
  · exact .ret (by simp)

theorem keeps_sysMake (path : Str) (type : FileType) (major minor : Int) :
    Keeps p (sysMake sb p path type major minor) h fun _ h' => h' = h := by
  unfold sysMake
  refine (keeps_create path type major minor).seq fun r => ?_
  split
  · exact .ret (by simp)
  · rw [foundLocked_some]
    refine (keeps_iunlockput rfl rfl).seq fun _ => ?_
    exact .ret rfl

/-! ### Calls that change descriptors or the current directory -/

/-- A process at rest. -/
def AtRest (_ : α) (h : Hold) : Prop := ∃ r, h = Hold.idle r

theorem keeps_sysDup (fd : Int) : Keeps p (sysDup p fd) (Hold.idle r) AtRest := by
  unfold sysDup
  refine (keeps_argfd fd).andThen ?_
  rintro x _ ⟨rfl, hx⟩
  split
  · exact .ret ⟨r, rfl⟩
  next fd₀ f =>
  have hmem : f ∈ slots r := mem_slots (hx _ rfl)
  refine (keeps_fdalloc f).andThen ?_
  intro y h hy
  split
  · subst hy; exact .ret ⟨r, rfl⟩
  · obtain ⟨hfd, rfl⟩ := hy
    refine (keeps_filedup hmem rfl).seq fun _ => ?_
    exact .ret ⟨_, congrArg (Hold.mk _ _ · _ _ _) (slots_put hfd f).symm⟩

theorem keeps_sysRead (fd : Int) (n : Nat) (reply : Int × List UInt8) :
    Keeps p (sysRead sb p fd n reply) (Hold.idle r) AtRest := by
  unfold sysRead
  refine (keeps_argfd fd).andThen ?_
  rintro x _ ⟨rfl, hx⟩
  split
  · exact .ret ⟨r, rfl⟩
  · exact (keeps_fileread (mem_slots (hx _ rfl)) rfl n reply).mono fun _ h' hh => ⟨r, hh⟩

theorem keeps_sysWrite (fd : Int) (src : List UInt8) (active reply : Int) :
    Keeps p (sysWrite sb p fd src active reply) (Hold.idle r) AtRest := by
  unfold sysWrite
  refine (keeps_argfd fd).andThen ?_
  rintro x _ ⟨rfl, hx⟩
  split
  · exact .ret ⟨r, rfl⟩
  · exact (keeps_filewrite (mem_slots (hx _ rfl)) rfl src active reply).mono fun _ h' hh => ⟨r, hh⟩

theorem keeps_sysClose (fd : Int) : Keeps p (sysClose sb p fd) (Hold.idle r) AtRest := by
  unfold sysClose
  refine (keeps_argfd fd).andThen ?_
  rintro x _ ⟨rfl, hx⟩
  split
  · exact .ret ⟨r, rfl⟩
  next fd f =>
  refine (keeps_setOfile fd none).seq fun _ => ?_
  refine (keeps_close (slots_take (hx _ rfl))).seq fun _ => ?_
  exact .ret ⟨_, rfl⟩

theorem keeps_sysOpen (path : Str) (omode : UInt32) :
    Keeps p (sysOpen sb p path omode) (Hold.idle r) AtRest := by
  unfold sysOpen
  refine (keeps_openInode path omode).seq fun x => ?_
  split
  · exact .ret ⟨r, by simp⟩
  next ip =>
  rw [foundLocked_some]
  refine keeps_filealloc.andThen ?_
  intro y h hy
  split
  · subst hy
    refine (keeps_iunlockput (l := 0) (m := one r.cwd) rfl rfl).seq fun _ => ?_
    exact .ret ⟨r, rfl⟩
  next f =>
  obtain ⟨-, rfl⟩ := hy
  refine (keeps_fdalloc f).andThen ?_
  intro z h hz
  split
  · subst hz
    refine (keeps_close rfl).seq fun _ => ?_
    refine (keeps_iunlockput (l := 0) (m := one r.cwd) rfl rfl).seq fun _ => ?_
    exact .ret ⟨r, rfl⟩
  obtain ⟨hfd, rfl⟩ := hz
  refine (keeps_iunlock (l := 0) rfl).seq fun _ => ?_
  -- the reference that the path walk returned is now the file's
  refine (keeps_initFile ∅ (.inode ip) _ _ 0 (Finset.mem_insert_self f _) rfl
    (Finset.empty_subset _) (Finset.notMem_empty f)).seq fun _ => ?_
  exact .ret ⟨_, congrArg (Hold.mk _ _ · _ _ _) (slots_put hfd f).symm⟩

theorem keeps_callSetpath (root arg : Str) (update : Int) :
    Keeps p (callSetpath p root arg update) (Hold.idle r)
      fun _ h' => ∃ path, h' = Hold.idle { r with path := path } :=
  .lift fun s G a s' hI hp hr => by
    obtain ⟨o, -, hr⟩ := of_bind hr
    cases hr
    have ha := hI.acct p _ hp
    refine ⟨_, ?_, a.procPath, rfl⟩
    rw [ha.proc]
    exact hI.setProc hp ha.live

theorem keeps_sysChdir (root arg : Str) :
    Keeps p (sysChdir sb p root arg) (Hold.idle r) AtRest := by
  unfold sysChdir
  refine (keeps_callSetpath root arg 1).andThen ?_
  rintro o _ ⟨path, rfl⟩
  split
  · exact .ret ⟨_, rfl⟩
  refine (keeps_namei o.pathAddr).seq fun x => ?_
  split
  · exact .ret ⟨_, by rw [found_none]⟩
  next ip =>
  rw [found_some]
  refine (keeps_ilock ip).seq fun _ => ?_
  refine (keeps_look ip).seq fun c => ?_
  split
  · refine (keeps_iunlockput (l := 0) (m := one r.cwd) rfl rfl).seq fun _ => ?_
    exact .ret ⟨_, rfl⟩
  refine (keeps_iunlock (l := 0) rfl).seq fun _ => ?_
  refine (keeps_own FProc.cwd).andThen ?_
  rintro cwd _ ⟨hcwd, rfl⟩
  split
  · exact keeps_stop _
  next old =>
  have hm : ip ::ₘ one r.cwd = old ::ₘ {ip} := by
    rw [← show some old = r.cwd from hcwd]
    exact cons_swap ip old 0
  refine (keeps_iput hm).seq fun _ => ?_
  refine (keeps_setCwd (some ip)).seq fun _ => ?_
  exact .ret ⟨_, rfl⟩

theorem keeps_execReads (hl : h.locks = ip ::ₘ l) (reads : List (Nat × Nat × Int × List UInt8)) :
    Keeps p (execReads sb p ip reads) h fun _ h' => h' = h := by
  induction reads with
  | nil => exact .ret rfl
  | cons x reads ih =>
    obtain ⟨off, n, reply⟩ := x
    unfold execReads
    refine (keeps_readi hl off n reply).andThen ?_
    rintro ⟨r, out⟩ h rfl
    dsimp only
    split
    · exact .ret rfl
    · exact ih

theorem keeps_sysExec (root arg : Str) (reads : List (Nat × Nat × Int × List UInt8)) (ok : Bool) :
    Keeps p (sysExec sb p root arg reads ok) (Hold.idle r) AtRest := by
  unfold sysExec
  refine (keeps_callSetpath root arg 2).andThen ?_
  rintro o _ ⟨path, rfl⟩
  split
  · exact .ret ⟨_, rfl⟩
  refine (keeps_namei o.pathAddr).seq fun x => ?_
  split
  · exact .ret ⟨_, by rw [found_none]⟩
  next ip =>
  rw [found_some]
  refine (keeps_ilock ip).seq fun _ => ?_
  refine (keeps_execReads (l := 0) rfl reads).seq fun done => ?_
  refine (keeps_iunlockput (l := 0) (m := one r.cwd) rfl rfl).seq fun _ => ?_
  exact .ret ⟨_, rfl⟩

/-- `pipealloc` returns two files that are open, or none. -/
theorem keeps_pipealloc (mem : Bool) (hfresh : h.fresh = ∅) :
    Keeps p (pipealloc sb p mem) h fun x h' => match x with
      | none => h' = h
      | some (f₀, f₁) => h' = { h with files := f₁ ::ₘ f₀ ::ₘ h.files } := by
  have hback : { h with fresh := (∅ : Finset (Fin NFILE)) } = h := by rw [← hfresh]
  unfold pipealloc
  refine keeps_filealloc.andThen ?_
  intro x h₁ hx
  split
  · exact .ret hx
  next f₀ =>
  obtain ⟨-, rfl⟩ := hx
  refine keeps_filealloc.andThen ?_
  intro y h₂ hy
  split
  · subst hy
    refine (keeps_close rfl).seq fun _ => ?_
    exact .ret hback
  next f₁ =>
  obtain ⟨hnew, rfl⟩ := hy
  have e : f₁ ≠ f₀ := fun e => hnew (e ▸ Multiset.mem_cons_self f₀ _)
  split
  · refine (keeps_initFile (h := { h with
        files := f₁ ::ₘ f₀ ::ₘ h.files, fresh := insert f₁ (insert f₀ h.fresh) })
      (m := h.inodes) (Finset.erase _ f₀) .pipe true false 0
      (Finset.mem_insert_of_mem (Finset.mem_insert_self f₀ _)) (zero_add _).symm
      (Finset.erase_subset _ _) (Finset.notMem_erase f₀ _)).seq fun _ => ?_
    refine (keeps_initFile (h := { h with
        files := f₁ ::ₘ f₀ ::ₘ h.files,
        fresh := (insert f₁ (insert f₀ h.fresh)).erase f₀ })
      (m := h.inodes) ∅ .pipe false true 0
      (Finset.mem_erase.mpr ⟨e, Finset.mem_insert_self f₁ _⟩) (zero_add _).symm
      (Finset.empty_subset _) (Finset.notMem_empty f₁)).seq fun _ => ?_
    exact .ret (congrArg (Hold.mk _ _ _ _ · _) hfresh.symm)
  · refine (keeps_fileclose (Finset.erase _ f₀) (cons_swap f₁ f₀ _)
      (Finset.erase_subset _ _) (Finset.notMem_erase f₀ _)).seq fun _ => ?_
    refine (keeps_close rfl).seq fun _ => ?_
    exact .ret hback

theorem keeps_sysPipe (mem : Bool) : Keeps p (sysPipe sb p mem) (Hold.idle r) AtRest := by
  unfold sysPipe
  refine (keeps_pipealloc mem rfl).andThen ?_
  intro x h hx
  split
  · exact .ret ⟨r, hx⟩
  next rf wf =>
  subst hx
  refine (keeps_fdalloc rf).andThen ?_
  intro y h hy
  split
  · subst hy
    refine (keeps_close (cons_swap wf rf _)).seq fun _ => ?_
    refine (keeps_close rfl).seq fun _ => ?_
    exact .ret ⟨r, rfl⟩
  next fd₀ =>
  obtain ⟨hfd₀, rfl⟩ := hy
  refine (keeps_fdalloc wf).andThen ?_
  intro z h hz
  split
  · subst hz
    refine (keeps_setOfile fd₀ none).seq fun _ => ?_
    refine (keeps_close (cons_swap wf rf _)).seq fun _ => ?_
    refine (keeps_close rfl).seq fun _ => ?_
    refine .ret ⟨r, ?_⟩
    have hback : update (update r.ofile fd₀ (some rf)) fd₀ none = r.ofile := by
      rw [update_idem, update_eq_self_iff.mpr hfd₀.symm]
    exact congrArg (fun o => Hold.mk { r with ofile := o } _ _ _ _ _) hback
  · obtain ⟨hfd₁, rfl⟩ := hz
    refine .ret ⟨_, congrArg (Hold.mk _ _ · _ _ _) ?_⟩
    exact ((slots_put hfd₁ wf).trans (congrArg (wf ::ₘ ·) (slots_put hfd₀ rf))).symm

/-! ### `fork` -/

/-- The slot that `allocproc` returns has no descriptors and no current directory. -/
theorem keeps_allocproc (hfresh : h.fresh = ∅) : Keeps p allocproc h fun x h' => match x with
      | none => h' = h
      | some c => ∃ r : FProc, r.state = .embryo ∧ (∀ fd, r.ofile fd = none) ∧ r.cwd = none ∧
          h' = { h with child := some (c, r) } :=
  .lift fun s G a s' hI hp hr => by
    split at hr
    · cases hr
      exact ⟨h, by rwa [update_eq_self_iff.mpr hp.symm], rfl⟩
    next c hc =>
    cases hr
    have hst : (s.procs c).state = .unused := by simpa using find?_some hc
    obtain ⟨hslots, hcwd⟩ := hI.unused c hst
    have hnone : ∀ fd, (s.procs c).ofile fd = none := fun fd => by
      by_contra hne
      obtain ⟨f, hf⟩ := ne_none_iff_exists'.mp hne
      have := mem_slots hf
      rw [hslots] at this
      exact notMem_zero f this
    have hidle : G c = none := by
      cases hg : G c with
      | none => rfl
      | some k =>
        have ha := hI.acct c k hg
        rw [ha.proc, ha.live] at hst
        cases hst
    refine ⟨_, ?_, { s.procs c with state := .embryo }, rfl, hnone, hcwd, rfl⟩
    refine hI.setChild hp hidle (fun q k r _ hk hq => ?_) rfl rfl hfresh rfl rfl
      (fun c₁ r₁ h₁ => ?_) (fun h₁ => by cases h₁)
    · obtain ⟨-, hr, hs⟩ := (hI.acct q k hk).child c r hq
      rw [← hr, hst] at hs
      cases hs
    · cases h₁
      exact ⟨rfl, rfl, rfl⟩

/-- The parent changes the record of its child, and gives it references. -/
theorem keeps_setChild (h' : Hold) (v : FProc → FProc) (hfresh : h'.fresh = ∅)
    (hchild : h.child = some (c, r)) (hproc : h'.proc = h.proc) (hlocks : h'.locks = h.locks)
    (hfiles : slots (v r) + h'.files = slots r + h.files)
    (hinodes : one (v r).cwd + h'.inodes = one r.cwd + h.inodes)
    (hnext : h'.child = none ∨ h'.child = some (c, v r) ∧ (v r).state = .embryo)
    (hunused : (v r).state = .unused → slots (v r) = 0 ∧ (v r).cwd = none) :
    Keeps p (set fun s => s.setProc c (v (s.procs c))) h fun _ x => x = h' :=
  .lift fun s G a s' hI hp hr => by
    cases hr
    obtain ⟨hc, hr, -⟩ := (hI.acct p h hp).child c r hchild
    refine ⟨h', ?_, rfl⟩
    change (s.setProc c (v (s.procs c))).Inv _
    rw [hr]
    refine hI.setChild hp hc (fun q k r' hne hk hq => ?_) hproc hlocks hfresh
      (by rw [hr]; exact hfiles) (by rw [hr]; exact hinodes) (fun c₁ r₁ h₁ => ?_) hunused
    · exact hne (hI.parent q p k h c r' r hk hp hq hchild)
    · rcases hnext with hn | ⟨hn, hs⟩
      · rw [hn] at h₁; cases h₁
      · rw [hn] at h₁; cases h₁; exact ⟨rfl, rfl, hs⟩

theorem keeps_copyFiles (fds : List (Fin NOFILE)) :
    ∀ {r₀ : FProc} {h : Hold}, fds.Nodup → h.fresh = ∅ → h.files = slots h.proc →
      h.child = some (c, r₀) → r₀.state = .embryo → (∀ fd ∈ fds, r₀.ofile fd = none) →
      Keeps p (copyFiles p c fds) h fun _ h' =>
        ∃ r₁ : FProc, r₁.state = .embryo ∧ r₁.cwd = r₀.cwd ∧
          h' = { h with child := some (c, r₁) } := by
  induction fds with
  | nil =>
    intro r₀ h _ _ _ hchild hst _
    exact .ret ⟨r₀, hst, rfl, by rw [← hchild]⟩
  | cons fd fds ih =>
    intro r₀ h hnd hfresh hfiles hchild hst hnone
    obtain ⟨hnot, hnd⟩ := nodup_cons.mp hnd
    unfold copyFiles
    refine (keeps_own (·.ofile fd)).andThen ?_
    intro x h₁ hx
    obtain ⟨hx, rfl⟩ := hx
    split
    · exact ih hnd hfresh hfiles hchild hst fun fd' h' => hnone fd' (mem_cons_of_mem _ h')
    next f =>
    have hmem : f ∈ h₁.files := by rw [hfiles]; exact mem_slots hx.symm
    refine (keeps_filedup hmem hfresh).seq fun _ => ?_
    have hfd : r₀.ofile fd = none := hnone fd mem_cons_self
    -- the reference goes from the parent to the child's descriptor
    refine (keeps_setChild (h := { h₁ with files := f ::ₘ h₁.files }) { h₁ with
        child := some (c, { r₀ with ofile := update r₀.ofile fd (some f) }) }
      (fun r => { r with ofile := update r.ofile fd (some f) }) hfresh hchild rfl rfl
      ?_ rfl (.inr ⟨rfl, hst⟩) (fun h' => by rw [hst] at h'; cases h')).andThen ?_
    · rw [slots_put hfd f, cons_add, ← add_cons]
    · rintro _ _ rfl
      refine (ih (h := { h₁ with
          child := some (c, { r₀ with ofile := update r₀.ofile fd (some f) }) })
        hnd hfresh hfiles rfl hst fun fd' h' => ?_).mono ?_
      · have hne : fd' ≠ fd := fun e => hnot (e ▸ h')
        change update r₀.ofile fd (some f) fd' = none
        rw [update_of_ne hne]
        exact hnone fd' (mem_cons_of_mem _ h')
      · rintro _ _ ⟨r₁, hs₁, hc₁, rfl⟩
        exact ⟨r₁, hs₁, hc₁, rfl⟩

theorem keeps_sysFork (mem : Bool) : Keeps p (sysFork p mem) (Hold.idle r) AtRest := by
  unfold sysFork
  refine (keeps_allocproc rfl).andThen ?_
  intro x h hx
  split
  · exact .ret ⟨r, hx⟩
  next c =>
  obtain ⟨r₀, hst, hnone, hcwd, rfl⟩ := hx
  have hzero : slots r₀ = 0 := slots_eq_zero hnone
  split
  · refine (keeps_setChild (h := { Hold.idle r with child := some (c, r₀) }) (Hold.idle r)
      (fun r => { r with state := .unused }) rfl rfl rfl
      rfl rfl rfl (.inl rfl) (fun _ => ⟨hzero, hcwd⟩)).seq fun _ => ?_
    exact .ret ⟨r, rfl⟩
  refine (keeps_own id).andThen ?_
  rintro r' _ ⟨rfl, rfl⟩
  refine (keeps_setChild (h := { Hold.idle r' with child := some (c, r₀) })
    { Hold.idle r' with child := some (c, { r₀ with path := r'.path }) }
    (fun x => { x with path := r'.path }) rfl rfl rfl rfl rfl rfl (.inr ⟨rfl, hst⟩)
    (fun h' => by rw [hst] at h'; cases h')).seq fun _ => ?_
  refine (keeps_copyFiles (h := { Hold.idle r' with
      child := some (c, { r₀ with path := r'.path }) })
    (finRange NOFILE) (nodup_finRange _) rfl rfl rfl hst
    fun fd _ => hnone fd).andThen ?_
  rintro _ _ ⟨r₁, hst₁, hcwd₁, rfl⟩
  split
  · exact keeps_stop _
  next e he =>
  refine (keeps_idup e).seq fun _ => ?_
  refine (keeps_setChild (h := { Hold.idle r' with
      child := some (c, r₁), inodes := e ::ₘ (Hold.idle r').inodes })
    { Hold.idle r' with child := some (c, { r₁ with cwd := some e }) }
    (fun x => { x with cwd := some e }) rfl rfl rfl rfl rfl ?_ (.inr ⟨rfl, hst₁⟩)
    (fun h' => by rw [hst₁] at h'; cases h')).andThen ?_
  · have hno : r₁.cwd = none := hcwd₁.trans hcwd
    rw [hno]
    exact (singleton_add e _).trans (zero_add _).symm
  · rintro _ _ rfl
    refine (keeps_setChild
      (h := { Hold.idle r' with child := some (c, { r₁ with cwd := some e }) })
      (Hold.idle r') (fun x => { x with state := .live }) rfl rfl
      rfl rfl rfl rfl (.inl rfl) (fun h' => by cases h')).seq fun _ => ?_
    exact .ret ⟨r', rfl⟩

/-! ### `exit` -/

theorem keeps_closeAll (fds : List (Fin NOFILE)) : ∀ {r : FProc},
    Keeps p (closeAll sb p fds) (Hold.idle r) fun _ h' =>
      ∃ r' : FProc, h' = Hold.idle r' ∧ r'.cwd = r.cwd ∧
        ∀ fd, fd ∈ fds ∨ r.ofile fd = none → r'.ofile fd = none := by
  induction fds with
  | nil => exact .ret ⟨_, rfl, rfl, by simp⟩
  | cons fd fds ih =>
    intro r
    unfold closeAll
    refine (keeps_own (·.ofile fd)).andThen ?_
    rintro x _ ⟨hx, rfl⟩
    split
    · refine ih.mono ?_
      rintro _ _ ⟨r', rfl, hcwd, hnone⟩
      refine ⟨r', rfl, hcwd, fun fd' hfd' => hnone fd' ?_⟩
      rcases hfd' with hfd' | hfd'
      · rcases mem_cons.mp hfd' with rfl | hm
        · exact .inr hx.symm
        · exact .inl hm
      · exact .inr hfd'
    · next f =>
      refine (keeps_close (slots_take hx.symm)).seq fun _ => ?_
      refine (keeps_setOfile fd none).seq fun _ => ?_
      refine (ih (r := { r with ofile := update r.ofile fd none })).mono ?_
      rintro _ _ ⟨r', rfl, hcwd, hnone⟩
      refine ⟨r', rfl, hcwd, fun fd' hfd' => hnone fd' ?_⟩
      by_cases e : fd' = fd
      · exact .inr (e ▸ update_self _ _ _)
      · refine hfd'.imp (fun hm => ?_) fun hn => ?_
        · exact (mem_cons.mp hm).resolve_left e
        · exact (update_of_ne e _ _).trans hn

/-- The slot of a process that has closed everything may be given to another. -/
theorem upholds_unused (hcwd : r.cwd = none) (hslots : slots r = 0) :
    Upholds Exactly p (setState p .unused) (some (Hold.idle r)) fun _ x => x = none := by
  refine Upholds.lift fun s g a s' hI hg hr => ?_
  cases hr
  have hp : (g p).join = some (Hold.idle r) := by rw [hg]; rfl
  have hI : s.Inv fun q => (g q).join := hI
  have hproc := (hI.acct p _ hp).proc
  refine ⟨none, ?_, rfl⟩
  rw [Exactly, join_update]
  refine (hI.finish hp).setState (update_self _ _ _) (fun q k r' hk hc => ?_) rfl rfl
    fun _ => ⟨by rw [hproc]; exact hslots, by rw [hproc]; exact hcwd⟩
  have hne : q ≠ p := fun e => by rw [e, update_self] at hk; cases hk
  rw [update_of_ne hne] at hk
  have := ((hI.acct q k hk).child p r' hc).1
  rw [hp] at this
  cases this

/-- A call has ended. -/
def Ended (_ : α) (x : Option Hold) : Prop := x = none ∨ ∃ r, x = some (Hold.idle r)

theorem upholds_sysExit : Upholds Exactly p (sysExit sb p) (some (Hold.idle r)) Ended := by
  unfold sysExit
  refine (keeps_closeAll (finRange NOFILE)).andUpholds ?_
  rintro _ _ ⟨r', rfl, hcwd, hnone⟩
  refine (keeps_own FProc.cwd).andUpholds ?_
  rintro x _ ⟨hx, rfl⟩
  split
  · exact fun _ _ _ _ _ _ hf => by cases hf
  next e =>
  have hm : one r'.cwd = e ::ₘ 0 := by rw [← show some e = r'.cwd from hx]; rfl
  refine (keeps_iput hm).andUpholds ?_
  rintro _ _ rfl
  refine (keeps_setCwd none).andUpholds ?_
  rintro _ _ rfl
  have hslots : slots { r' with cwd := none } = 0 :=
    slots_eq_zero fun fd => hnone fd (.inl (mem_finRange fd))
  refine ((upholds_unused (r := { r' with cwd := none }) rfl hslots).mono fun a x hx => ?_).bind
  exact .inl hx

/-- **Every call** keeps all counts exact at every step, and has nothing left to answer for when it
returns. -/
theorem upholds_call (c : Call) : Upholds Exactly p (c.prog sb p) (some (Hold.idle r)) Ended := by
  have rest : ∀ {k : Kern Int}, Keeps p k (Hold.idle r) AtRest →
      Upholds Exactly p k (some (Hold.idle r)) Ended := fun hk => Upholds.mono hk fun a x hx => by
    obtain ⟨h', rfl, r', rfl⟩ := hx
    exact .inr ⟨r', rfl⟩
  have same : ∀ {k : Kern Int}, (Keeps p k (Hold.idle r) fun _ h' => h' = Hold.idle r) →
      Upholds Exactly p k (some (Hold.idle r)) Ended :=
    fun hk => rest (hk.mono fun a h' hh => ⟨r, hh⟩)
  cases c with
  | «open» path omode => exact rest (keeps_sysOpen path omode)
  | dup fd => exact rest (keeps_sysDup fd)
  | close fd => exact rest (keeps_sysClose fd)
  | pipe mem => exact rest (keeps_sysPipe mem)
  | read fd n reply => exact rest (keeps_sysRead fd n reply)
  | write fd src active reply => exact rest (keeps_sysWrite fd src active reply)
  | link old new => exact same (keeps_sysLink old new)
  | unlink path => exact same (keeps_sysUnlink path)
  | mkdir path => exact same (keeps_sysMake path .dir 0 0)
  | mknod path major minor => exact same (keeps_sysMake path .dev major minor)
  | chdir root arg => exact rest (keeps_sysChdir root arg)
  | fork mem => exact rest (keeps_sysFork mem)
  | exec root arg reads ok => exact rest (keeps_sysExec root arg reads ok)
  | exit => exact upholds_sysExit
  | badArg => exact same (.ret rfl)

end Kern

/-! ### Between calls -/

namespace FsState

/-- The reference counts are exact, and no inode is locked.  A file that is not open has no type, and
a slot of the process table that is not used has no descriptors and no current directory. -/
structure Settled (s : FsState) : Prop where
  file : ∀ f, (s.files f).ref = (Finset.univ.filter fun x : Fin NPROC × Fin NOFILE =>
    (s.procs x.1).ofile x.2 = some f).card
  inode : ∀ e, s.ref e =
    (Finset.univ.filter fun f => 0 < (s.files f).ref ∧ (s.files f).type = .inode e).card +
      (Finset.univ.filter fun p => (s.procs p).cwd = some e).card
  lock : ∀ e, s.lock e = none
  closed : ∀ f, (s.files f).ref = 0 → (s.files f).type = .none
  unused : ∀ p, (s.procs p).state = .unused →
    (∀ fd, (s.procs p).ofile fd = none) ∧ (s.procs p).cwd = none

variable {s : FsState}

theorem count_one {α : Type} [DecidableEq α] (o : Option α) (a : α) :
    (one o).count a = if o = some a then 1 else 0 := by
  cases o with
  | none => simp [one]
  | some b => simp [one, Multiset.count_singleton, eq_comm]

theorem count_refs (t : FdType) (e : Fin NINODE) :
    t.refs.count e = if t = .inode e then 1 else 0 := by
  cases t with
  | inode e' => simp [FdType.refs, Multiset.count_singleton, eq_comm]
  | none => simp [FdType.refs]
  | pipe => simp [FdType.refs]

theorem count_fileRefs (s : FsState) (f : Fin NFILE) :
    (s.fileRefs fun _ => none).count f = (Finset.univ.filter fun x : Fin NPROC × Fin NOFILE =>
      (s.procs x.1).ofile x.2 = some f).card := by
  have hslots : ∀ r : FProc, (slots r).count f = ∑ fd, if r.ofile fd = some f then 1 else 0 :=
    fun r => by simp only [slots, count_sum', count_one]
  simp only [fileRefs, fileShare, count_sum', hslots, Finset.card_filter, Fintype.sum_prod_type]

theorem count_procRefs (s : FsState) (e : Fin NINODE) : (s.procRefs fun _ => none).count e =
      (Finset.univ.filter fun p => (s.procs p).cwd = some e).card := by
  simp only [procRefs, inodeShare, count_sum', count_one, Finset.card_filter]

/-- A file with a type is open. -/
theorem count_openRefs (hclosed : ∀ f, (s.files f).ref = 0 → (s.files f).type = .none)
    (hpos : ∀ f, 0 ≤ (s.files f).ref) (e : Fin NINODE) :
    s.openRefs.count e = (Finset.univ.filter fun f =>
      0 < (s.files f).ref ∧ (s.files f).type = .inode e).card := by
  simp only [openRefs, count_sum', count_refs, Finset.card_filter]
  refine Finset.sum_congr rfl fun f _ => if_congr ?_ rfl rfl
  refine ⟨fun ht => ⟨?_, ht⟩, And.right⟩
  by_contra hle
  have := hpos f
  rw [hclosed f (by omega)] at ht
  cases ht

/-- With no call in progress. -/
theorem inv_iff_settled : s.Inv (fun _ => none) ↔ s.Settled := by
  constructor
  · intro h
    have hpos : ∀ f, 0 ≤ (s.files f).ref := fun f => by rw [h.files]; omega
    refine ⟨fun f => ?_, fun e => ?_, fun e => ?_, h.closed, fun p hp => ?_⟩
    · rw [h.files, count_fileRefs]
    · rw [h.inodes, count_add, count_openRefs h.closed hpos, count_procRefs]
      push_cast
      rfl
    · cases hl : s.lock e with
      | none => rfl
      | some p => obtain ⟨k, hk, -⟩ := (h.lock e p).mp hl; cases hk
    · obtain ⟨hslots, hcwd⟩ := h.unused p hp
      refine ⟨fun fd => ?_, hcwd⟩
      by_contra hne
      obtain ⟨f, hf⟩ := ne_none_iff_exists'.mp hne
      have := Kern.mem_slots hf
      rw [hslots] at this
      exact notMem_zero f this
  · intro h
    have hpos : ∀ f, 0 ≤ (s.files f).ref := fun f => by rw [h.file]; omega
    refine ⟨fun f => ?_, fun e => ?_, fun e p => ?_, h.closed, fun p k hk => (nomatch hk),
      fun p q k k' c r r' hk => (nomatch hk), fun p hp => ?_⟩
    · rw [h.file, count_fileRefs]
    · rw [h.inode, count_add, count_openRefs h.closed hpos, count_procRefs]
      push_cast
      rfl
    · rw [h.lock]
      simp
    · obtain ⟨hnone, hcwd⟩ := h.unused p hp
      exact ⟨Kern.slots_eq_zero hnone, hcwd⟩

/-- **Reference counts are exact.**  In every interleaving of calls of any number of processes, in
every state reached with no call in progress, the count of each file is the number of descriptors
that point to it, the count of each cached inode is the number of open files and of current
directories that point to it, and no inode is locked. -/
theorem refs_exact {sb : Super} {s₀ : FsState}
    {tr : List (Threads (Fin NPROC) FsState Stop Int × Fin NPROC)}
    {T : Threads (Fin NPROC) FsState Stop Int} (h₀ : s₀.Settled)
    (hr : Run (Threads.Step (StartCall sb)) ⟨s₀, fun _ => none⟩ tr T) (hq : T.Quiet) :
    T.mem.Settled := by
  refine inv_iff_settled.mp (Threads.upholds_run (I := Kern.Exactly) (fun _ => Kern.Ended ())
    (fun s g p k hI hg hs => ?_) (fun s g p x hI hg hx => ?_) (inv_iff_settled.mpr h₀) hr hq)
  · obtain ⟨hlive, c, rfl⟩ := hs
    refine ⟨some (Hold.idle (s.procs p)), ?_, Kern.upholds_call c⟩
    rw [Kern.Exactly, Kern.join_update]
    exact Inv.start hI (by rw [hg]; rfl) hlive
  · have hdrop : (fun q => (update g p none q).join) = update (fun q => (g q).join) p none := by
      funext q
      by_cases e : q = p
      · subst e; simp
      · simp [e]
    rw [Kern.Exactly, hdrop]
    rcases hx with rfl | ⟨r, rfl⟩
    · have hsame : (fun q => (g q).join) = update (fun q => (g q).join) p none :=
        (update_eq_self_iff.mpr (by rw [hg]; rfl)).symm
      rw [← hsame]
      exact hI
    · exact Inv.finish hI (by rw [hg]; rfl)

/-! ### One call at a time -/

/-- A call that runs alone, and returns. -/
def CallStep (sb : Super) (s : FsState) (x : Fin NPROC × Call) (s' : FsState) : Prop :=
  (s.procs x.1).state = .live ∧ ∃ r, (x.2.prog sb x.1).run s = .ok (r, s')

/-- The state after a call. -/
def exec? (sb : Super) (s : FsState) (x : Fin NPROC × Call) : Option FsState :=
  if (s.procs x.1).state = .live then
    match (x.2.prog sb x.1).run s with
    | .ok (_, s') => some s'
    | .error _ => none
  else none

variable {sb : Super} {s' : FsState} {x : Fin NPROC × Call}

theorem callStep_of_exec? (sb : Super) (s : FsState) (x : Fin NPROC × Call) (s' : FsState)
    (h : s.exec? sb x = some s') : CallStep sb s x s' := by
  unfold exec? at h
  split at h
  · next hlive =>
    split at h
    · next r s₁ hr => cases h; exact ⟨hlive, r, hr⟩
    · cases h
  · cases h

/-- Calls made one after the other are one of the interleavings. -/
theorem threads_of_calls {t : List (FsState × Fin NPROC × Call)} (h : Run (CallStep sb) s t s') :
    ∃ tr, Run (Threads.Step (StartCall sb)) ⟨s, fun _ => none⟩ tr ⟨s', fun _ => none⟩ := by
  induction h with
  | refl s => exact ⟨[], .refl _⟩
  | more hs _ ih =>
    obtain ⟨hlive, r, hr⟩ := hs
    obtain ⟨tr₁, h₁⟩ : ∃ tr, Run (Threads.Step (StartCall sb)) ⟨_, fun _ => none⟩ tr _ :=
      Threads.run_started rfl ⟨hlive, _, rfl⟩ hr
    obtain ⟨tr₂, h₂⟩ := ih
    exact ⟨_, h₁.trans h₂⟩

/-- Process 0 is running in the root directory, which is entry 0 of the cache. -/
def boot (disk : Disk) : FsState where
  inodes := ⟨disk, fun e => if e = 0 then ⟨ROOTINO, 1, false, Dinode.zero⟩ else
    ⟨0, 0, false, Dinode.zero⟩⟩
  lock _ := none
  files _ := ⟨.none, 0, false, false, 0⟩
  procs p := if p = 0 then ⟨.live, fun _ => none, some 0, [slash]⟩ else
    ⟨.unused, fun _ => none, none, []⟩

theorem boot_settled (disk : Disk) : (boot disk).Settled := by
  refine ⟨fun f => ?_, fun e => ?_, fun _ => rfl, fun _ _ => rfl, fun p hp => ?_⟩
  · change (0 : Int) = _
    symm
    rw [Nat.cast_eq_zero, Finset.card_eq_zero]
    refine Finset.filter_eq_empty_iff.mpr fun y _ => ?_
    simp only [boot]
    split <;> simp
  · have hfiles : (Finset.univ.filter fun f =>
        0 < ((boot disk).files f).ref ∧ ((boot disk).files f).type = .inode e) = ∅ :=
      Finset.filter_eq_empty_iff.mpr fun f _ => by simp [boot]
    have hprocs : (Finset.univ.filter fun p => ((boot disk).procs p).cwd = some e) =
        if e = 0 then {0} else ∅ := by
      ext p
      by_cases hp : p = 0 <;> by_cases he : e = 0 <;> simp [boot, hp, he, eq_comm]
    rw [hfiles, hprocs]
    by_cases he : e = 0 <;> simp [boot, ref, he]
  · by_cases h₀ : p = 0
    · subst h₀; cases hp
    · simp [boot, h₀]

/-- Process 0 makes a pipe and forks, and its child closes the reading end. -/
theorem refs_exact_pipe : ∃ tr T, Run (Threads.Step (StartCall mkfsSuper))
      ⟨boot (Disk.blank mkfsSuper 2), fun _ => none⟩ tr T ∧ T.Quiet ∧
    (T.mem.files 0).ref = 1 ∧ (T.mem.files 1).ref = 2 ∧ T.mem.ref 0 = 2 ∧ T.mem.Settled := by
  obtain ⟨s, hr, h₁, h₂, h₃⟩ := exists_run (callStep_of_exec? mkfsSuper)
    (boot (Disk.blank mkfsSuper 2)) [(0, .pipe true), (0, .fork true), (1, .close 0)]
    (fun s => (s.files 0).ref = 1 ∧ (s.files 1).ref = 2 ∧ s.ref 0 = 2) (by decide +kernel)
  obtain ⟨tr, htr⟩ := threads_of_calls hr
  exact ⟨tr, _, htr, fun _ => rfl, h₁, h₂, h₃, refs_exact (boot_settled _) htr fun _ => rfl⟩

end FsState

end Xv6
