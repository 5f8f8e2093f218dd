import Xv6.Fs.Dir

/-!
# Fs — Icache

The inode cache with any number of references `τ` to its entries: `iget`, `idup`, `ilock`,
`iunlock`, `iput`, `ialloc` and `dirlookup`, section by section.  A reference is taken by `iget` or
`idup`; its holder may lock the inode through it and work on it, and drops it with `iput`.  A step is
a section under `icache.lock`, or under the buffer of an inode block, or a piece of what the holder
of the inode's sleep lock does.  All inodes are on the one device.

`ialloc` and `dirlookup` end with a call of `iget`, which is a step of its own; anybody may call
`iget` for any inode.  A holder of the lock changes the inode in memory, and the blocks behind it,
as it likes, but not its type, and calls `iupdate` before it unlocks.

* `StepKind.of_step`: what a step does.
* `grown_dirSearch`, `dirSearch_whole`: `dirlookup` gives the directory the blocks that it misses,
  and changes nothing if it misses none.
-/

namespace Xv6.Icache

open Lib Function Inodes

/-- What the holder of a reference is doing. -/
inductive Phase where
  | held
  /-- `ilock` has the sleep lock -/
  | acquired
  /-- `ilock` has returned -/
  | locked
  /-- the inode has been changed in memory -/
  | edited
  /-- `iput` has the sleep lock -/
  | putting
  /-- `iput` has found no links and no other reference -/
  | tested
  /-- `iput` has freed the inode on the disk -/
  | cleared
  /-- `iput` is about to let go of the sleep lock -/
  | closing
  /-- `iput` is about to decrement `ref` -/
  | dropping
  deriving DecidableEq

/-- A reference to the entry `e`, or the number of the inode that `ialloc` has marked or `dirlookup`
has found, before `iget` is called for it. -/
inductive Ref where
  | entry (ph : Phase) (e : Fin NINODE)
  | number (inum : Nat)
  deriving DecidableEq

/-- The disk and the cache, the sleep locks and the references. -/
structure State (τ : Type) where
  inodes : Inodes
  lock : Fin NINODE → Option τ
  ref : τ → Option Ref

inductive Op (τ : Type) where
  | iget (t : τ) (inum : Nat)
  /-- `dirlookup` through the locked reference `t`, up to its call of `iget` for `u` -/
  | dirlookup (t u : τ) (name : Str)
  /-- `ialloc` up to its call of `iget` -/
  | ialloc (t : τ) (inum : Nat) (type : FileType)
  | idup (t u : τ)
  | ilock (t : τ)
  | load (t : τ)
  | edit (t : τ) (ip : Dinode) (data : Nat → Block) (bitmap : Nat → Bool)
  | iupdate (t : τ)
  | iunlock (t : τ)
  | iput (t : τ)
  | test (t : τ)
  | free (t : τ)
  | invalidate (t : τ)
  | releasesleep (t : τ)
  | deref (t : τ)

variable {τ : Type}

/-! ### Sections -/

section Inodes

variable (sb : Super) (i : Inodes) (e : Fin NINODE)

/-- `memset(dip, 0, sizeof(*dip)); dip->type = type; log_write(bp)`. -/
def markAt (inum : Nat) (type : FileType) : Inodes :=
  { i with disk := i.disk.iupdate sb inum { Dinode.zero with type := type } }

/-- The holder of the lock changes the inode in memory, and blocks. -/
def editIn (ip : Dinode) (data : Nat → Block) (bitmap : Nat → Bool) : Inodes :=
  let i : Inodes := { i with disk := { i.disk with data := data, bitmap := bitmap } }
  i.upd e fun c => { c with ip := ip }

/-- `iupdate(ip)`. -/
def writeBack : Inodes :=
  { i with disk := i.disk.iupdate sb (i.cache e).inum (i.cache e).ip }

/-- `itrunc(ip); ip->type = 0; iupdate(ip)`. -/
def freeInode : Res Inodes := do
  let c := i.cache e
  let (ip, d) ← i.disk.itrunc sb c.inum c.ip
  let ip := { ip with type := .free }
  let i : Inodes := { i with disk := d.iupdate sb c.inum ip }
  return i.upd e fun c => { c with ip := ip }

/-- `ip->valid = 0`. -/
def invalidate : Inodes := i.upd e fun c => { c with valid := false }

end Inodes

namespace State

variable [DecidableEq τ]

def setRef (s : State τ) (t : τ) (r : Option Ref) : State τ :=
  { s with ref := update s.ref t r }

def setLock (s : State τ) (e : Fin NINODE) (o : Option τ) : State τ :=
  { s with lock := update s.lock e o }

def setInodes (s : State τ) (i : Inodes) : State τ := { s with inodes := i }

/-- `iget` gives `t` a reference. -/
def getRef (s : State τ) (t : τ) (inum : Nat) : Res (State τ) := do
  let (e, i) ← s.inodes.iget inum
  return (s.setInodes i).setRef t (some (.entry .held e))

/-- `acquiresleep`, when the lock is free. -/
def acquiresleep (s : State τ) (t : τ) (e : Fin NINODE) (ph : Phase) : Res (State τ) :=
  if s.lock e = none then .ok ((s.setLock e (some t)).setRef t (some (.entry ph e)))
  else .error (.fault "the process sleeps")

def exec (sb : Super) (s : State τ) : Op τ → Res (State τ)
  | .iget t inum =>
    match s.ref t with
    | none => s.getRef t inum
    | some (.number n) =>
      if n = inum then s.getRef t inum else .error (.fault "not the inode that was found")
    | _ => .error (.fault "not at this point")
  | .dirlookup t u name =>
    match s.ref t, s.ref u with
    | some (.entry .locked dp), none => do
      let (found, i) ← s.inodes.dirSearch sb dp name
      return (s.setInodes i).setRef u (found.map fun x => .number x.1.inum)
    | _, _ => .error (.fault "not at this point")
  | .ialloc t inum type =>
    match s.ref t with
    | none =>
      if 1 ≤ inum ∧ inum < sb.ninodes ∧ (s.inodes.disk.dinode inum).type = .free then
        .ok ((s.setInodes (markAt sb s.inodes inum type)).setRef t (some (.number inum)))
      else .error (.fault "the inode is not free")
    | _ => .error (.fault "not at this point")
  | .idup t u =>
    match s.ref t, s.ref u with
    | some (.entry .held e), none | some (.entry .locked e), none =>
      .ok ((s.setInodes (s.inodes.idup e)).setRef u (some (.entry .held e)))
    | _, _ => .error (.fault "not at this point")
  | .ilock t =>
    match s.ref t with
    | some (.entry .held e) =>
      if (s.inodes.cache e).ref < 1 then .error (.panic "ilock")
      else s.acquiresleep t e .acquired
    | _ => .error (.fault "not at this point")
  | .load t =>
    match s.ref t with
    | some (.entry .acquired e) => do
      let i ← s.inodes.load e
      return (s.setInodes i).setRef t (some (.entry .locked e))
    | _ => .error (.fault "not at this point")
  | .edit t ip data bitmap =>
    match s.ref t with
    | some (.entry .locked e) | some (.entry .edited e) =>
      if ip.type = (s.inodes.cache e).ip.type then
        .ok ((s.setInodes (editIn s.inodes e ip data bitmap)).setRef t (some (.entry .edited e)))
      else .error (.fault "the type of an inode is not changed")
    | _ => .error (.fault "not at this point")
  | .iupdate t =>
    match s.ref t with
    | some (.entry .locked e) | some (.entry .edited e) =>
      .ok ((s.setInodes (writeBack sb s.inodes e)).setRef t (some (.entry .locked e)))
    | _ => .error (.fault "not at this point")
  | .iunlock t =>
    match s.ref t with
    | some (.entry .locked e) =>
      if s.lock e = none ∨ (s.inodes.cache e).ref < 1 then .error (.panic "iunlock")
      else .ok ((s.setLock e none).setRef t (some (.entry .held e)))
    | _ => .error (.fault "not at this point")
  | .iput t =>
    match s.ref t with
    | some (.entry .held e) => s.acquiresleep t e .putting
    | _ => .error (.fault "not at this point")
  | .test t =>
    match s.ref t with
    | some (.entry .putting e) =>
      if (s.inodes.cache e).valid = true ∧ (s.inodes.cache e).ip.nlink = 0 ∧
          (s.inodes.cache e).ref = 1 then .ok (s.setRef t (some (.entry .tested e)))
      else .ok (s.setRef t (some (.entry .closing e)))
    | _ => .error (.fault "not at this point")
  | .free t =>
    match s.ref t with
    | some (.entry .tested e) => do
      let i ← freeInode sb s.inodes e
      return (s.setInodes i).setRef t (some (.entry .cleared e))
    | _ => .error (.fault "not at this point")
  | .invalidate t =>
    match s.ref t with
    | some (.entry .cleared e) =>
      .ok ((s.setInodes (Icache.invalidate s.inodes e)).setRef t (some (.entry .closing e)))
    | _ => .error (.fault "not at this point")
  | .releasesleep t =>
    match s.ref t with
    | some (.entry .closing e) =>
      .ok ((s.setLock e none).setRef t (some (.entry .dropping e)))
    | _ => .error (.fault "not at this point")
  | .deref t =>
    match s.ref t with
    | some (.entry .dropping e) => .ok ((s.setInodes (s.inodes.deref e)).setRef t none)
    | _ => .error (.fault "not at this point")

/-- One step. -/
def Step (sb : Super) (s : State τ) (op : Op τ) (s' : State τ) : Prop := s.exec sb op = .ok s'

end State

/-- Nobody has a reference; the entries are not in use. -/
def booted (d : Disk) : State τ where
  inodes := ⟨d, fun _ => ⟨0, 0, false, Dinode.zero⟩⟩
  lock _ := none
  ref _ := none

/-! ### Steps -/

/-- A reference to the entry `e`. -/
def On (e : Fin NINODE) : Option Ref → Prop
  | some (.entry _ c) => c = e
  | _ => False

/-- The inode `inum` is about to be freed by an `iput` that found no other reference to it. -/
def Freeing (s : State τ) (inum : Nat) : Prop :=
  ∃ t e, s.ref t = some (.entry .tested e) ∧ (s.inodes.cache e).inum = inum

section Kind

variable [DecidableEq τ]

/-- The steps that take a reference. -/
def Takes : Op τ → Prop
  | .iget _ _ | .idup _ _ => True
  | _ => False

/-- What a step does. -/
inductive StepKind (sb : Super) (s : State τ) (op : Op τ) (s' : State τ) : Prop where
  | get (u : τ) (n : Nat) (e : Fin NINODE) (i : Inodes) (hu : ∀ e', ¬ On e' (s.ref u))
      (hop : op = .iget u n) (hi : s.inodes.iget n = .ok (e, i))
      (hs : s' = (s.setInodes i).setRef u (some (.entry .held e)))
  | look (t u : τ) (dp : Fin NINODE) (name : Str) (r : Option (Dirent × Nat)) (i : Inodes)
      (ht : s.ref t = some (.entry .locked dp)) (hu : s.ref u = none)
      (hop : op = .dirlookup t u name) (hi : s.inodes.dirSearch sb dp name = .ok (r, i))
      (hs : s' = (s.setInodes i).setRef u (r.map fun x => .number x.1.inum))
  | mark (t : τ) (n : Nat) (type : FileType) (ht : s.ref t = none)
      (hn : (s.inodes.disk.dinode n).type = .free) (hop : ¬ Takes op)
      (hs : s' = (s.setInodes (markAt sb s.inodes n type)).setRef t (some (.number n)))
  | dup (t u : τ) (ph : Phase) (e : Fin NINODE) (hph : ph = .held ∨ ph = .locked)
      (ht : s.ref t = some (.entry ph e)) (hu : s.ref u = none)
      (hs : s' = (s.setInodes (s.inodes.idup e)).setRef u (some (.entry .held e)))
  | acquire (t : τ) (ph : Phase) (e : Fin NINODE) (hph : ph = .acquired ∨ ph = .putting)
      (ht : s.ref t = some (.entry .held e)) (hl : s.lock e = none) (hop : ¬ Takes op)
      (hs : s' = (s.setLock e (some t)).setRef t (some (.entry ph e)))
  | load (t : τ) (e : Fin NINODE) (i : Inodes) (ht : s.ref t = some (.entry .acquired e))
      (hi : s.inodes.load e = .ok i) (hop : ¬ Takes op)
      (hs : s' = (s.setInodes i).setRef t (some (.entry .locked e)))
  | edit (t : τ) (ph : Phase) (e : Fin NINODE) (ip : Dinode) (data : Nat → Block)
      (bitmap : Nat → Bool) (hph : ph = .locked ∨ ph = .edited)
      (ht : s.ref t = some (.entry ph e)) (hip : ip.type = (s.inodes.cache e).ip.type)
      (hop : ¬ Takes op)
      (hs : s' = (s.setInodes (editIn s.inodes e ip data bitmap)).setRef t
        (some (.entry .edited e)))
  | iupdate (t : τ) (ph : Phase) (e : Fin NINODE) (hph : ph = .locked ∨ ph = .edited)
      (ht : s.ref t = some (.entry ph e)) (hop : ¬ Takes op)
      (hs : s' = (s.setInodes (writeBack sb s.inodes e)).setRef t (some (.entry .locked e)))
  | release (t : τ) (ph ph' : Phase) (e : Fin NINODE)
      (hph : ph = .locked ∧ ph' = .held ∨ ph = .closing ∧ ph' = .dropping)
      (ht : s.ref t = some (.entry ph e)) (hop : ¬ Takes op)
      (hs : s' = (s.setLock e none).setRef t (some (.entry ph' e)))
  | test (t : τ) (ph : Phase) (e : Fin NINODE) (ht : s.ref t = some (.entry .putting e))
      (hph : ph = .closing ∨ ph = .tested ∧ (s.inodes.cache e).valid = true ∧
        (s.inodes.cache e).ip.nlink = 0 ∧ (s.inodes.cache e).ref = 1) (hop : ¬ Takes op)
      (hs : s' = s.setRef t (some (.entry ph e)))
  | free (t : τ) (e : Fin NINODE) (i : Inodes) (ht : s.ref t = some (.entry .tested e))
      (hi : freeInode sb s.inodes e = .ok i) (hop : op = .free t)
      (hs : s' = (s.setInodes i).setRef t (some (.entry .cleared e)))
  | invalidate (t : τ) (e : Fin NINODE) (ht : s.ref t = some (.entry .cleared e)) (hop : ¬ Takes op)
      (hs : s' = (s.setInodes (Icache.invalidate s.inodes e)).setRef t (some (.entry .closing e)))
  | deref (t : τ) (e : Fin NINODE) (ht : s.ref t = some (.entry .dropping e)) (hop : ¬ Takes op)
      (hs : s' = (s.setInodes (s.inodes.deref e)).setRef t none)

variable {sb : Super} {s s' : State τ} {op : Op τ}

theorem State.getRef_eq {u : τ} {n : Nat} (h : s.getRef u n = .ok s') :
    ∃ e i, s.inodes.iget n = .ok (e, i) ∧
      s' = (s.setInodes i).setRef u (some (.entry .held e)) := by
  obtain ⟨⟨e, i⟩, hi, h⟩ := of_bind h
  cases h
  exact ⟨e, i, hi, rfl⟩

theorem State.acquiresleep_eq {t : τ} {e : Fin NINODE} {ph : Phase}
    (h : s.acquiresleep t e ph = .ok s') :
    s.lock e = none ∧ s' = (s.setLock e (some t)).setRef t (some (.entry ph e)) := by
  unfold State.acquiresleep at h
  split at h
  · next hl => cases h; exact ⟨hl, rfl⟩
  · cases h

/-- Every step is of one of these kinds. -/
theorem StepKind.of_step (h : s.Step sb op s') : StepKind sb s op s' := by
  unfold State.Step at h
  cases op with
  | iget t n =>
    simp only [State.exec] at h
    split at h
    · next ht =>
      obtain ⟨e, i, hi, hs⟩ := State.getRef_eq h
      exact .get t n e i (fun _ hh => by rw [ht] at hh; exact hh) rfl hi hs
    · next m ht =>
      split at h
      · obtain ⟨e, i, hi, hs⟩ := State.getRef_eq h
        exact .get t n e i (fun _ hh => by rw [ht] at hh; exact hh) rfl hi hs
      · cases h
    · cases h
  | dirlookup t u name =>
    simp only [State.exec] at h
    split at h
    · next dp ht hu =>
      obtain ⟨⟨found, i⟩, hi, h⟩ := of_bind h
      cases h
      exact .look t u dp name found i ht hu rfl hi rfl
    · cases h
  | ialloc t n type =>
    simp only [State.exec] at h
    split at h
    · next ht =>
      split at h
      · next hn => cases h; exact .mark t n type ht hn.2.2 id rfl
      · cases h
    · cases h
  | idup t u =>
    simp only [State.exec] at h
    split at h
    · next e ht hu => cases h; exact .dup t u .held e (.inl rfl) ht hu rfl
    · next e ht hu => cases h; exact .dup t u .locked e (.inr rfl) ht hu rfl
    · cases h
  | ilock t =>
    simp only [State.exec] at h
    split at h
    · next e ht =>
      split at h
      · cases h
      · obtain ⟨hl, hs⟩ := State.acquiresleep_eq h
        exact .acquire t .acquired e (.inl rfl) ht hl id hs
    · cases h
  | load t =>
    simp only [State.exec] at h
    split at h
    · next e ht =>
      obtain ⟨i, hi, h⟩ := of_bind h
      cases h
      exact .load t e i ht hi id rfl
    · cases h
  | edit t ip data bitmap =>
    simp only [State.exec] at h
    split at h
    · next e ht =>
      split at h
      · next hip => cases h; exact .edit t .locked e ip data bitmap (.inl rfl) ht hip id rfl
      · cases h
    · next e ht =>
      split at h
      · next hip => cases h; exact .edit t .edited e ip data bitmap (.inr rfl) ht hip id rfl
      · cases h
    · cases h
  | iupdate t =>
    simp only [State.exec] at h
    split at h
    · next e ht => cases h; exact .iupdate t .locked e (.inl rfl) ht id rfl
    · next e ht => cases h; exact .iupdate t .edited e (.inr rfl) ht id rfl
    · cases h
  | iunlock t =>
    simp only [State.exec] at h
    split at h
    · next e ht =>
      split at h
      · cases h
      · cases h; exact .release t .locked .held e (.inl ⟨rfl, rfl⟩) ht id rfl
    · cases h
  | iput t =>
    simp only [State.exec] at h
    split at h
    · next e ht =>
      obtain ⟨hl, hs⟩ := State.acquiresleep_eq h
      exact .acquire t .putting e (.inr rfl) ht hl id hs
    · cases h
  | test t =>
    simp only [State.exec] at h
    split at h
    · next e ht =>
      split at h
      · next hc => cases h; exact .test t .tested e ht (.inr ⟨rfl, hc⟩) id rfl
      · cases h; exact .test t .closing e ht (.inl rfl) id rfl
    · cases h
  | free t =>
    simp only [State.exec] at h
    split at h
    · next e ht =>
      obtain ⟨i, hi, h⟩ := of_bind h
      cases h
      exact .free t e i ht hi rfl rfl
    · cases h
  | invalidate t =>
    simp only [State.exec] at h
    split at h
    · next e ht => cases h; exact .invalidate t e ht id rfl
    · cases h
  | releasesleep t =>
    simp only [State.exec] at h
    split at h
    · next e ht => cases h; exact .release t .closing .dropping e (.inr ⟨rfl, rfl⟩) ht id rfl
    · cases h
  | deref t =>
    simp only [State.exec] at h
    split at h
    · next e ht => cases h; exact .deref t e ht id rfl
    · cases h

end Kind

/-! ### Reading a directory -/

section Look

variable {sb : Super} {i i' : Inodes} {dp : Fin NINODE} {off n : Nat} {r : Option (Dirent × Nat)}
  {out : List UInt8} {name : Str}

/-- The loop of `readi` may take blocks. -/
theorem readLoop_fields (fuel : Nat) : ∀ {d d' : Disk} {ip ip' : Dinode} {off n : Nat}
    {out : List UInt8}, d.readLoop sb fuel ip off n = .ok (out, ip', d') →
    d'.dinode = d.dinode ∧ ip' = { ip with addrs := ip'.addrs } := by
  induction fuel with
  | zero => intro d d' ip ip' off n out h; cases h; exact ⟨rfl, rfl⟩
  | succ fuel ih =>
    intro d d' ip ip' off n out h
    rw [Disk.readLoop] at h
    split at h
    · cases h; exact ⟨rfl, rfl⟩
    obtain ⟨⟨b, ip₁, d₁⟩, hb, h⟩ := of_bind h
    obtain ⟨⟨out₁, ip₂, d₂⟩, hl, h⟩ := of_bind h
    cases h
    obtain ⟨hd₁, hip₁⟩ := Disk.bmap_fields hb
    obtain ⟨hd₂, hip₂⟩ := ih hl
    refine ⟨hd₂.trans hd₁, hip₂.trans ?_⟩
    rw [hip₁]

/-- The entry of a directory that is read may get blocks. -/
structure Grown (dp : Fin NINODE) (i i' : Inodes) : Prop where
  cache : ∃ a, i'.cache = update i.cache dp
    { i.cache dp with ip := { (i.cache dp).ip with addrs := a } }
  disk : i'.disk.dinode = i.disk.dinode

theorem Grown.refl (dp : Fin NINODE) (i : Inodes) : Grown dp i i :=
  ⟨⟨(i.cache dp).ip.addrs, (update_eq_self dp _).symm⟩, rfl⟩

theorem Grown.trans {i'' : Inodes} (h₁ : Grown dp i i') (h₂ : Grown dp i' i'') :
    Grown dp i i'' := by
  obtain ⟨⟨a, ha⟩, hd⟩ := h₁
  obtain ⟨⟨b, hb⟩, hd'⟩ := h₂
  refine ⟨⟨b, ?_⟩, hd'.trans hd⟩
  rw [hb, ha, update_self, update_idem]

theorem grown_readi {r : Int} (h : i.readi sb noDev dp off n = .ok (r, out, i')) :
    Grown dp i i' := by
  obtain ⟨⟨r, out, ip, d⟩, hr, h⟩ := of_bind h
  cases h
  have hf : d.dinode = i.disk.dinode ∧ ip = { (i.cache dp).ip with addrs := ip.addrs } := by
    unfold Disk.readi at hr
    split at hr
    · split at hr <;> (cases hr; exact ⟨rfl, rfl⟩)
    split at hr
    · cases hr; exact ⟨rfl, rfl⟩
    · obtain ⟨⟨out, ip₁, d₁⟩, hl, hr⟩ := of_bind hr
      cases hr
      exact readLoop_fields _ hl
  refine ⟨⟨ip.addrs, ?_⟩, hf.1⟩
  rw [← hf.2]
  rfl

/-- What `dirFind` does to the inodes, reading entry after entry, follows from what `readi` does. -/
theorem dirFind_rel {R : Inodes → Inodes → Prop} {msg : String} {P : Dirent → Bool}
    (hrefl : ∀ i, R i i) (htrans : ∀ {i₁ i₂ i₃}, R i₁ i₂ → R i₂ i₃ → R i₁ i₃)
    (hread : ∀ {i i' off r out}, i.readi sb noDev dp off DESIZ = .ok (r, out, i') → R i i')
    (ks : List Nat) : ∀ {i i' : Inodes} {r : Option (Dirent × Nat)},
      dirFind sb msg P ks i dp = .ok (r, i') → R i i' := by
  induction ks with
  | nil => intro i i' r h; cases h; exact hrefl _
  | cons k ks ih =>
    intro i i' r h
    obtain ⟨⟨de, i₁⟩, hr, h⟩ := of_bind h
    obtain ⟨⟨n, out, i₂⟩, hrd, hr⟩ := of_bind hr
    have hone : R i i₁ := by
      dsimp only at hr
      split at hr
      · cases hr
      · cases hr; exact hread hrd
    dsimp only at h
    split at h
    · cases h; exact hone
    · exact htrans hone (ih h)

theorem grown_dirSearch (h : i.dirSearch sb dp name = .ok (r, i')) : Grown dp i i' := by
  unfold dirSearch at h
  split at h
  · cases h
  · exact dirFind_rel (.refl dp) .trans grown_readi _ h

/-- Every byte of the inode is in a block. -/
def Whole (i : Inodes) (dp : Fin NINODE) : Prop :=
  ∀ k < (i.cache dp).ip.size, ∃ p ∈ ptrOf (k / BSIZE),
    (i.disk.put (i.cache dp).inum (i.cache dp).ip).ptr (i.cache dp).inum p ≠ 0

/-- To read an inode that has all its blocks changes nothing. -/
theorem readi_whole {r : Int} (hw : Whole i dp)
    (h : i.readi sb noDev dp off n = .ok (r, out, i')) : i' = i := by
  obtain ⟨⟨r, out, ip, d⟩, hr, h⟩ := of_bind h
  cases h
  have hf : ip = (i.cache dp).ip ∧ d = i.disk := by
    unfold Disk.readi at hr
    split at hr
    · split at hr <;> (cases hr; exact ⟨rfl, rfl⟩)
    split at hr
    · cases hr; exact ⟨rfl, rfl⟩
    next hoff =>
    dsimp only at hr
    rw [Disk.readLoop_eq sb i.disk (i.cache dp).inum (i.cache dp).ip _ off _ (le_refl _)] at hr
    · cases hr; exact ⟨rfl, rfl⟩
    · intro k hlo hhi
      refine hw k ?_
      split at hhi <;> omega
  obtain ⟨rfl, rfl⟩ := hf
  change (⟨i.disk, update i.cache dp (i.cache dp)⟩ : Inodes) = i
  rw [update_eq_self]

theorem dirSearch_whole (hw : Whole i dp) (h : i.dirSearch sb dp name = .ok (r, i')) : i' = i := by
  unfold dirSearch at h
  split at h
  · cases h
  · exact dirFind_rel (R := fun i i' => Whole i dp → i' = i) (fun _ _ => rfl)
      (fun h₁ h₂ hw => by obtain rfl := h₁ hw; exact h₂ hw) (fun h hw => readi_whole hw h) _ h hw

end Look

end Xv6.Icache
