import Xv6.Fs.Refs

/-!
# Fs — Balance

What each function of `fs.c` and `file.c` does to the account of the process that runs it, in any
interleaving with other processes: `iget` adds a reference, `iput` gives one back, a path walk ends
with one reference more or with none.
-/

namespace Xv6

open Lib Function

/-! ### The inode layer -/

namespace Inodes

variable {sb : Super} {i i' : Inodes} {e e' : Fin NINODE} {inum off : Nat} {devsw : Devsw}
  {r : Unit} {name : Str}

/-- All counts are as before. -/
def SameRefs (i i' : Inodes) : Prop := ∀ e, (i'.cache e).ref = (i.cache e).ref

theorem SameRefs.refl (i : Inodes) : SameRefs i i := fun _ => rfl

theorem SameRefs.trans {i₁ : Inodes} (h : SameRefs i i₁) (h' : SameRefs i₁ i') : SameRefs i i' :=
  fun e => (h' e).trans (h e)

theorem sameRefs_upd {d : Disk} {f : CInode → CInode} (hf : (f (i.cache e)).ref = (i.cache e).ref) :
    SameRefs i ({ i with disk := d }.upd e f) := by
  intro e'
  by_cases he : e' = e
  · subst he; rw [upd_self]; exact hf
  · rw [upd_ne he]

theorem sameRefs_load (h : i.load e = .ok i') : SameRefs i i' := by
  unfold load at h
  split at h
  · cases h; exact .refl _
  dsimp only at h
  split at h
  · cases h
  · cases h; exact sameRefs_upd rfl

theorem sameRefs_iputFree (h : i.iputFree sb e = .ok i') : SameRefs i i' := by
  unfold iputFree at h
  dsimp only at h
  split at h
  · obtain ⟨⟨v, d⟩, -, h⟩ := of_bind h
    cases h
    exact sameRefs_upd rfl
  · cases h; exact .refl _

theorem sameRefs_markInode {type : FileType} (h : i.markInode sb type = .ok (inum, i')) :
    SameRefs i i' := by
  unfold markInode at h
  split at h
  · cases h
  · cases h; exact fun _ => rfl

theorem sameRefs_iupdate (i : Inodes) (e : Fin NINODE) (major minor nlink : Int) :
    SameRefs i (i.iupdate sb e major minor nlink) := by
  unfold iupdate
  exact sameRefs_upd rfl

theorem sameRefs_readi {n : Nat} {r : Int} {out : List UInt8}
    (h : i.readi sb devsw e off n = .ok (r, out, i')) : SameRefs i i' := by
  obtain ⟨x, -, h⟩ := of_bind h
  cases h
  exact sameRefs_upd rfl

theorem sameRefs_writei {src : List UInt8} {r : Int} (h : i.writei sb devsw e off src = .ok (r, i')) :
    SameRefs i i' := by
  obtain ⟨x, -, h⟩ := of_bind h
  cases h
  exact sameRefs_upd rfl

theorem sameRefs_dirFind {msg : String} {P : Dirent → Bool} (ks : List Nat) :
    ∀ {i i' : Inodes} {r : Option (Dirent × Nat)},
      dirFind sb msg P ks i e = .ok (r, i') → SameRefs i i' := by
  induction ks with
  | nil => intro i i' r h; cases h; exact .refl _
  | cons k ks ih =>
    intro i i' r h
    obtain ⟨⟨de, i₁⟩, hr, h⟩ := of_bind h
    obtain ⟨⟨n, out, i₂⟩, hread, hr⟩ := of_bind hr
    have hsame : SameRefs i i₁ := by
      dsimp only at hr
      split at hr
      · cases hr
      · cases hr; exact sameRefs_readi hread
    dsimp only at h
    split at h
    · cases h; exact hsame
    · exact hsame.trans (ih h)

theorem sameRefs_dirSearch {r : Option (Dirent × Nat)} (h : i.dirSearch sb e name = .ok (r, i')) :
    SameRefs i i' := by
  unfold dirSearch at h
  split at h
  · cases h
  · exact sameRefs_dirFind _ h

theorem sameRefs_dirAdd (h : i.dirAdd sb e name inum = .ok (r, i')) : SameRefs i i' := by
  obtain ⟨⟨found, i₁⟩, hf, h⟩ := of_bind h
  obtain ⟨⟨n, i₂⟩, hw, h⟩ := of_bind h
  dsimp only at h
  split at h
  · cases h
  · cases h
    exact (sameRefs_dirFind _ hf).trans (sameRefs_writei hw)

theorem sameRefs_isdirempty {r : Bool} (h : i.isdirempty sb e = .ok (r, i')) : SameRefs i i' := by
  obtain ⟨⟨found, i₁⟩, hf, h⟩ := of_bind h
  cases h
  exact sameRefs_dirFind _ hf

theorem sameRefs_dirClear (h : i.dirClear sb e off = .ok (r, i')) : SameRefs i i' := by
  obtain ⟨⟨n, i₂⟩, hw, h⟩ := of_bind h
  dsimp only at h
  split at h
  · cases h
  · cases h; exact sameRefs_writei hw

/-- `iget` adds a reference to the entry that it returns. -/
theorem ref_iget (h : i.iget inum = .ok (e, i')) :
    ∀ e', (i'.cache e').ref = (i.cache e').ref + if e' = e then 1 else 0 := by
  intro e'
  obtain ⟨-, -, rfl⟩ | ⟨hzero, -, rfl⟩ := iget_cases h
  · by_cases he : e' = e
    · subst he; simp [idup]
    · rw [idup, upd_ne he, if_neg he, Int.add_zero]
  · by_cases he : e' = e
    · subst he; simp [hzero]
    · rw [upd_ne he, if_neg he, Int.add_zero]

end Inodes

namespace Kern

open FsState

variable {α β : Type} {sb : Super} {p : Fin NPROC} {h : Hold} {e : Fin NINODE} {f : Fin NFILE}
  {m l : Multiset (Fin NINODE)}

/-- All counts are exact with the accounts `g`; a process whose program is over may have none. -/
def Exactly (s : FsState) (g : Fin NPROC → Option (Option Hold)) : Prop :=
  s.Inv fun p => (g p).join

theorem join_update (g : Fin NPROC → Option (Option Hold)) (x : Option Hold) :
    (fun q => (update g p (some x) q).join) = update (fun q => (g q).join) p x := by
  funext q
  by_cases e : q = p
  · subst e; simp
  · simp [e]

/-- Run by `p` with the account `h`, the program keeps all counts exact, and ends with a result and
an account that have `Q`. -/
def Keeps (p : Fin NPROC) (k : Kern α) (h : Hold) (Q : α → Hold → Prop) : Prop :=
  Upholds Exactly p k (some h) fun a x => ∃ h', x = some h' ∧ Q a h'

section Rules

variable {Q : α → Hold → Prop} {Q' : β → Hold → Prop} {k : Kern α} {k' : α → Kern β}

theorem Keeps.ret {a : α} (hQ : Q a h) : Keeps p (pure a) h Q := ⟨h, rfl, hQ⟩

theorem Keeps.lift {f : FsState → Res (α × FsState)}
    (hf : ∀ s G a s', s.Inv G → G p = some h → f s = .ok (a, s') →
      ∃ h', s'.Inv (update G p (some h')) ∧ Q a h') : Keeps p (.lift f) h Q := by
  refine Upholds.lift fun s g a s' hI hg hr => ?_
  obtain ⟨h', hI', hQ⟩ := hf s _ a s' hI (by rw [hg]; rfl) hr
  exact ⟨some h', by rw [Exactly, join_update]; exact hI', h', rfl, hQ⟩

/-- What follows may end with no account. -/
theorem Keeps.andUpholds {R : β → Option Hold → Prop} (hk : Keeps p k h Q)
    (hk' : ∀ a h', Q a h' → Upholds Exactly p (k' a) (some h') R) :
    Upholds Exactly p (k >>= k') (some h) R :=
  (hk.mono fun a x hx => by
    obtain ⟨h', rfl, hQ⟩ := hx
    exact hk' a h' hQ).bind

theorem Keeps.andThen (hk : Keeps p k h Q) (hk' : ∀ a h', Q a h' → Keeps p (k' a) h' Q') :
    Keeps p (k >>= k') h Q' := hk.andUpholds hk'

/-- After a program that leaves a known account. -/
theorem Keeps.seq {g : α → Hold} (hk : Keeps p k h fun a h' => h' = g a)
    (hk' : ∀ a, Keeps p (k' a) (g a) Q') : Keeps p (k >>= k') h Q' :=
  hk.andThen fun a _ e => e ▸ hk' a

theorem Keeps.mono {R : α → Hold → Prop} (hk : Keeps p k h Q) (hQ : ∀ a h', Q a h' → R a h') :
    Keeps p k h R :=
  Upholds.mono hk fun a x hx => by
    obtain ⟨h', rfl, hQ'⟩ := hx
    exact ⟨h', rfl, hQ a h' hQ'⟩

theorem keeps_stop (m : Stop) : Keeps p (stop m : Kern α) h Q :=
  fun _ _ _ _ _ _ hf => by cases hf

theorem keeps_panic (msg : String) : Keeps p (panic msg : Kern α) h Q := keeps_stop _

theorem keeps_get {f : FsState → α} (hQ : ∀ s G, s.Inv G → G p = some h → Q (f s) h) :
    Keeps p (get f) h Q :=
  .lift fun s G a s' hI hp hr => by
    cases hr
    exact ⟨h, by rwa [update_eq_self_iff.mpr hp.symm], hQ s G hI hp⟩

end Rules

/-- What the caller knows about its own record. -/
theorem keeps_get_proc {f : FProc → α} {Q : α → Hold → Prop} (hQ : Q (f h.proc) h) :
    Keeps p (get fun s => f (s.procs p)) h Q :=
  keeps_get fun s G hI hp => by rw [(hI.acct p h hp).proc]; exact hQ

theorem keeps_own (f : FProc → α) :
    Keeps p (get fun s => f (s.procs p)) h fun a h' => a = f h.proc ∧ h' = h :=
  keeps_get_proc ⟨rfl, rfl⟩

theorem keeps_read (f : FsState → α) : Keeps p (get f) h fun _ h' => h' = h :=
  keeps_get fun _ _ _ _ => rfl

theorem keeps_look (e : Fin NINODE) : Keeps p (look e) h fun _ h' => h' = h := keeps_read _

theorem keeps_onlyIf {c : Prop} [Decidable c] {k : Kern Unit}
    (hk : c → Keeps p k h fun _ h' => h' = h) : Keeps p (onlyIf c k) h fun _ h' => h' = h := by
  unfold onlyIf
  split
  · next hc => exact hk hc
  · exact .ret rfl

/-! ### Inodes -/

/-- A function of the inode layer that changes no count. -/
theorem keeps_onInodes {f : Inodes → Res (α × Inodes)}
    (hf : ∀ i a i', f i = .ok (a, i') → Inodes.SameRefs i i') :
    Keeps p (onInodes f) h fun _ h' => h' = h :=
  .lift fun s G a s' hI hp hr => by
    obtain ⟨⟨b, i⟩, hi, hr⟩ := of_bind hr
    cases hr
    refine ⟨h, hI.onInodes hp fun e => ?_, rfl⟩
    rw [hf _ _ _ hi e]
    rfl

/-- The reference that `iget` and `idup` add. -/
theorem keeps_ref {f : Inodes → Res (α × Inodes)} (entry : α → Fin NINODE)
    (hf : ∀ i a i', f i = .ok (a, i') →
      ∀ e', (i'.cache e').ref = (i.cache e').ref + if e' = entry a then 1 else 0) :
    Keeps p (onInodes f) h fun a h' => h' = { h with inodes := entry a ::ₘ h.inodes } :=
  .lift fun s G a s' hI hp hr => by
    obtain ⟨⟨b, i⟩, hi, hr⟩ := of_bind hr
    cases hr
    refine ⟨_, hI.onInodes hp fun e => ?_, rfl⟩
    rw [hf _ _ _ hi e, Multiset.count_cons]
    change _ = (s.inodes.cache e).ref + _
    split <;> push_cast <;> omega

theorem keeps_iget (inum : Nat) :
    Keeps p (iget inum) h fun e h' => h' = { h with inodes := e ::ₘ h.inodes } :=
  keeps_ref id fun _ _ _ hi => Inodes.ref_iget hi

theorem keeps_idup (e : Fin NINODE) :
    Keeps p (idup e) h fun _ h' => h' = { h with inodes := e ::ₘ h.inodes } :=
  keeps_ref (fun _ => e) fun i a i' hi e' => by
    cases hi
    by_cases he : e' = e
    · subst he; simp [Inodes.idup]
    · rw [Inodes.idup, Inodes.upd_ne he, if_neg he, Int.add_zero]

theorem keeps_deref (hm : h.inodes = e ::ₘ m) :
    Keeps p (onInodes fun i => .ok ((), i.deref e)) h fun _ h' => h' = { h with inodes := m } :=
  .lift fun s G a s' hI hp hr => by
    obtain ⟨⟨b, i⟩, hi, hr⟩ := of_bind hr
    cases hi
    cases hr
    refine ⟨_, hI.onInodes hp fun e' => ?_, rfl⟩
    rw [hm, Multiset.count_cons]
    by_cases he : e' = e
    · subst he
      simp only [Inodes.deref, Inodes.upd_self, if_true]
      change (s.inodes.cache e').ref - 1 + _ = (s.inodes.cache e').ref + _
      push_cast
      omega
    · rw [Inodes.deref, Inodes.upd_ne he, if_neg he]
      rfl

theorem keeps_acquiresleep (e : Fin NINODE) :
    Keeps p (acquiresleep p e) h fun _ h' => h' = { h with locks := e ::ₘ h.locks } :=
  .lift fun s G a s' hI hp hr => by
    split at hr
    · next hfree => cases hr; exact ⟨_, hI.acquire hp hfree, rfl⟩
    · cases hr

theorem keeps_iunlock (hl : h.locks = e ::ₘ l) :
    Keeps p (iunlock e) h fun _ h' => h' = { h with locks := l } :=
  .lift fun s G a s' hI hp hr => by
    split at hr
    · cases hr
    · cases hr; exact ⟨_, hI.release hp hl, rfl⟩

theorem keeps_releasesleep (hl : h.locks = e ::ₘ l) :
    Keeps p (releasesleep e) h fun _ h' => h' = { h with locks := l } :=
  .lift fun s G a s' hI hp hr => by
    cases hr
    exact ⟨_, hI.release hp hl, rfl⟩

theorem keeps_ilock (e : Fin NINODE) :
    Keeps p (ilock p e) h fun _ h' => h' = { h with locks := e ::ₘ h.locks } := by
  unfold ilock
  refine (keeps_look e).seq fun c => ?_
  split
  · exact keeps_panic _
  refine (keeps_acquiresleep e).seq fun _ => ?_
  refine keeps_onInodes fun i a i' hi => ?_
  obtain ⟨i₁, h₁, hi⟩ := of_bind hi
  cases hi
  exact Inodes.sameRefs_load h₁

theorem keeps_iput (hm : h.inodes = e ::ₘ m) :
    Keeps p (iput sb p e) h fun _ h' => h' = { h with inodes := m } := by
  unfold iput
  refine (keeps_acquiresleep e).seq fun _ => ?_
  refine (keeps_onInodes fun i a i' hi => ?_).andThen ?_
  · obtain ⟨i₁, h₁, hi⟩ := of_bind hi
    cases hi
    exact Inodes.sameRefs_iputFree h₁
  · rintro _ _ rfl
    refine (keeps_releasesleep rfl).seq fun _ => ?_
    exact keeps_deref hm

theorem keeps_iunlockput (hl : h.locks = e ::ₘ l) (hm : h.inodes = e ::ₘ m) :
    Keeps p (iunlockput sb p e) h fun _ h' => h' = { h with locks := l, inodes := m } := by
  unfold iunlockput
  refine (keeps_iunlock hl).seq fun _ => ?_
  exact keeps_iput hm

theorem keeps_ialloc (type : FileType) :
    Keeps p (ialloc sb type) h fun e h' => h' = { h with inodes := e ::ₘ h.inodes } := by
  unfold ialloc
  refine (keeps_onInodes fun i a i' hi => Inodes.sameRefs_markInode hi).seq fun inum => ?_
  exact keeps_iget inum

theorem keeps_iupdate (e : Fin NINODE) (major minor nlink : Int) :
    Keeps p (onInodes fun i => .ok ((), i.iupdate sb e major minor nlink)) h fun _ h' => h' = h :=
  keeps_onInodes fun i a i' hi => by cases hi; exact Inodes.sameRefs_iupdate _ _ _ _ _

theorem keeps_addLink (e : Fin NINODE) (k : Int) : Keeps p (addLink sb e k) h fun _ h' => h' = h :=
  keeps_onInodes fun i a i' hi => by cases hi; exact Inodes.sameRefs_iupdate _ _ _ _ _

/-- The lock is given up and taken again. -/
theorem keeps_relock {a : α} (hl : h.locks = e ::ₘ l) :
    Keeps p (do iunlock e; ilock p e; return a) h fun _ h' => h' = h := by
  refine (keeps_iunlock hl).seq fun _ => ?_
  refine (keeps_ilock e).seq fun _ => ?_
  exact .ret (by rw [← hl])

theorem keeps_readi (hl : h.locks = e ::ₘ l) (off n : Nat) (reply : Int × List UInt8) :
    Keeps p (readi sb p e off n reply) h fun _ h' => h' = h := by
  unfold readi
  refine (keeps_look e).seq fun c => ?_
  split
  · split
    · exact .ret rfl
    · exact keeps_relock hl
  refine keeps_onInodes fun i a i' hi => ?_
  obtain ⟨⟨r, out, i₁⟩, h₁, hi⟩ := of_bind hi
  cases hi
  exact Inodes.sameRefs_readi h₁

theorem keeps_writei (hl : h.locks = e ::ₘ l) (off : Nat) (src : List UInt8) (active : Int) :
    Keeps p (writei sb p e off src active) h fun _ h' => h' = h := by
  unfold writei
  refine (keeps_look e).seq fun c => ?_
  split
  · split
    · exact .ret rfl
    · split
      · exact keeps_relock hl
      · exact .ret rfl
  · exact keeps_onInodes fun i a i' hi => Inodes.sameRefs_writei hi

/-! ### Directories and paths -/

/-- The account with the reference that a search returns, if it finds something. -/
def found (h : Hold) (r : Option (Fin NINODE)) : Hold := { h with inodes := one r + h.inodes }

@[simp] theorem found_none (h : Hold) : found h none = h := by simp [found, one]

@[simp] theorem found_some (h : Hold) (e : Fin NINODE) :
    found h (some e) = { h with inodes := e ::ₘ h.inodes } := by simp [found, one]

theorem keeps_dirlookup (dp : Fin NINODE) (name : Str) :
    Keeps p (dirlookup sb dp name) h fun r h' => h' = found h (r.map Prod.fst) := by
  unfold dirlookup
  refine (keeps_onInodes fun i a i' hi => Inodes.sameRefs_dirSearch hi).seq fun r => ?_
  split
  · exact .ret (by simp)
  · next de off =>
    refine (keeps_iget de.inum).seq fun ip => ?_
    exact .ret (by simp)

theorem keeps_dirlink (dp : Fin NINODE) (name : Str) (inum : Nat) :
    Keeps p (dirlink sb p dp name inum) h fun _ h' => h' = h := by
  unfold dirlink
  refine (keeps_dirlookup dp name).seq fun r => ?_
  split
  · refine (keeps_iput rfl).seq fun _ => ?_
    exact .ret (by simp)
  · refine (keeps_onInodes fun i a i' hi => Inodes.sameRefs_dirAdd hi).seq fun _ => ?_
    exact .ret (by simp)

/-- The loop of `namex` gives the reference to `ip` back or returns it, or goes on with another. -/
theorem keeps_namexLoop (parent : Bool) : ∀ (n : Nat) (ip : Fin NINODE) (path name : Str)
    {h : Hold} {m : Multiset (Fin NINODE)}, h.inodes = ip ::ₘ m →
    Keeps p (namexLoop sb p parent n ip path name) h
      fun r h' => h' = found { h with inodes := m } (r.map Prod.fst) := by
  intro n
  induction n with
  | zero => intro ip path name h m _; exact keeps_stop _
  | succ n ih =>
    intro ip path name h m hm
    unfold namexLoop
    split
    · split
      · refine (keeps_iput hm).seq fun _ => ?_
        exact .ret (by simp)
      · exact .ret (by simp [← hm])
    next name path _ =>
    refine (keeps_ilock ip).seq fun _ => ?_
    refine (keeps_look ip).seq fun c => ?_
    split
    · refine (keeps_iunlockput (h := { h with locks := ip ::ₘ h.locks }) rfl hm).seq fun _ => ?_
      exact .ret (by simp)
    split
    · refine (keeps_iunlock rfl).seq fun _ => ?_
      exact .ret (by simp [← hm])
    refine (keeps_dirlookup ip name).seq fun r => ?_
    split
    · simp only [Option.map_none, found_none]
      refine (keeps_iunlockput (h := { h with locks := ip ::ₘ h.locks }) rfl hm).seq fun _ => ?_
      exact .ret (by simp)
    next next _ =>
    -- the entry found and `ip` are both held until `ip` is given back
    refine (keeps_iunlockput (e := ip) (m := next ::ₘ m) rfl ?_).andThen ?_
    · simp [hm, Multiset.cons_swap]
    · rintro _ _ rfl
      exact ih next path name rfl

theorem keeps_namexStart (path : Str) :
    Keeps p (namexStart p path) h fun e h' => h' = { h with inodes := e ::ₘ h.inodes } := by
  unfold namexStart
  split
  · exact keeps_iget _
  refine (keeps_read _).seq fun cwd => ?_
  split
  · next e =>
    refine (keeps_idup e).seq fun _ => ?_
    exact .ret rfl
  · exact keeps_stop _

theorem keeps_namex (path : Str) (parent : Bool) :
    Keeps p (namex sb p path parent) h fun r h' => h' = found h (r.map Prod.fst) := by
  unfold namex
  refine (keeps_namexStart path).seq fun ip => ?_
  exact keeps_namexLoop parent _ ip path [] rfl

theorem keeps_namei (path : Str) : Keeps p (namei sb p path) h fun r h' => h' = found h r := by
  unfold namei
  refine (keeps_namex path false).seq fun r => ?_
  exact .ret rfl

theorem keeps_nameiparent (path : Str) :
    Keeps p (nameiparent sb p path) h fun r h' => h' = found h (r.map Prod.fst) :=
  keeps_namex path true

end Kern

end Xv6
