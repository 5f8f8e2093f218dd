import Xv6.Container.CString
import Xv6.Fs.Inodes

/-!
# Fs — Dir

Directories of `fs.c`.  A directory is a file of `struct dirent`s of 16 bytes: an inode number, 0 in
an entry that is not used, and a name of at most `DIRSIZ` bytes, without a NUL if it has them all.

`dirlookup`, `dirlink` and `isdirempty` run the same loop over the entries (`dirFind`), with their
own tests and their own panics.  The loop is made under the lock of the directory.
-/

namespace Xv6

open List

def DIRSIZ : Nat := 14

/-- `sizeof(struct dirent)`. -/
def DESIZ : Nat := 2 + DIRSIZ

/-! ### Names -/

/-- `strncmp`. -/
def strncmp : Nat → Str → Str → Int
  | 0, _, _ => 0
  | _ + 1, [], [] => 0
  | _ + 1, a :: _, [] => a.1.toNat
  | _ + 1, [], b :: _ => -b.1.toNat
  | n + 1, a :: p, b :: q => if a = b then strncmp n p q else (a.1.toNat : Int) - b.1.toNat

/-- `namecmp`. -/
def namecmp (s t : Str) : Int := strncmp DIRSIZ s t

/-- `skipelem`: the next element of a path, cut off after `DIRSIZ` bytes, and the path after it. -/
def skipelem (path : Str) : Option (Str × Str) :=
  let path := path.dropWhile (· = slash)
  if path = [] then none
  else some ((path.takeWhile (· ≠ slash)).take DIRSIZ,
    (path.dropWhile (· ≠ slash)).dropWhile (· = slash))

/-- The string that starts a field of bytes: up to the first NUL, if there is one. -/
def cstr : List UInt8 → Str
  | [] => []
  | b :: l => if h : b = 0 then [] else ⟨b, h⟩ :: cstr l

/-- `strncpy(_, s, n)`: what it writes. -/
def strncpy (s : Str) (n : Nat) : List UInt8 :=
  (s.take n).map Subtype.val ++ List.replicate (n - s.length) 0

/-- `struct dirent`. -/
structure Dirent where
  inum : Nat
  name : Str
  deriving DecidableEq

namespace Dirent

/-- An entry from its bytes. -/
def ofBytes (l : List UInt8) : Dirent :=
  ⟨(l.getD 0 0).toNat + 256 * (l.getD 1 0).toNat, cstr ((l.drop 2).take DIRSIZ)⟩

/-- The bytes of an entry; `inum` is a `ushort`. -/
def toBytes (de : Dirent) : List UInt8 :=
  UInt8.ofNat de.inum :: UInt8.ofNat (de.inum / 256) :: strncpy de.name DIRSIZ

end Dirent

/-- Two names are equal up to byte `n`. -/
theorem strncmp_eq_zero (n : Nat) : ∀ {s t : Str}, strncmp n s t = 0 ↔ s.take n = t.take n := by
  have hpos : ∀ a : Chr, (a.1.toNat : Int) ≠ 0 := fun a h =>
    a.2 (UInt8.toNat_inj.mp (by exact_mod_cast h))
  induction n with
  | zero => intro s t; simp [strncmp]
  | succ n ih =>
    intro s t
    cases s with
    | nil =>
      cases t with
      | nil => simp [strncmp]
      | cons b q => simpa [strncmp] using hpos b
    | cons a p =>
      cases t with
      | nil => simpa [strncmp] using hpos a
      | cons b q =>
        rw [strncmp, take_succ_cons, take_succ_cons]
        by_cases e : a = b
        · subst e
          simp [ih]
        · have hne : (a.1.toNat : Int) - b.1.toNat ≠ 0 := fun h => e (Subtype.ext
            (UInt8.toNat_inj.mp (by omega)))
          simp [e, hne]

/-- The name that `strncpy` has stored. -/
theorem cstr_strncpy (s : Str) (n : Nat) : cstr (strncpy s n) = s.take n := by
  have hchars : ∀ (t : Str) (k : Nat), cstr (t.map Subtype.val ++ replicate k 0) = t := by
    intro t k
    induction t with
    | nil => cases k <;> simp [cstr, replicate_succ]
    | cons a t ih =>
      rw [map_cons, cons_append, cstr, dif_neg a.2, ih]
  exact hchars _ _

/-- An entry is read back as it was stored, its name cut off after `DIRSIZ` bytes. -/
theorem Dirent.ofBytes_toBytes {de : Dirent} (h : de.inum < 65536) :
    ofBytes de.toBytes = ⟨de.inum, de.name.take DIRSIZ⟩ := by
  have hlen : (strncpy de.name DIRSIZ).length = DIRSIZ := by
    unfold strncpy
    simp only [length_append, length_map, length_take, length_replicate]
    omega
  have hname : ((de.toBytes.drop 2).take DIRSIZ) = strncpy de.name DIRSIZ :=
    take_of_length_le (by rw [← hlen]; exact Nat.le_refl _)
  have hinum : (UInt8.ofNat de.inum).toNat + 256 * (UInt8.ofNat (de.inum / 256)).toNat =
      de.inum := by
    simp only [UInt8.toNat_ofNat']
    omega
  unfold ofBytes
  rw [hname, cstr_strncpy]
  congr 1

/-- The conversion of an `int` to `short`. -/
def toShort (n : Int) : Int := (n + 32768) % 65536 - 32768

/-! ### Directories -/

namespace Inodes

variable (sb : Super)

/-- No device is asked: the inode is a directory. -/
def noDev : Devsw := ⟨fun _ => none, fun _ => none⟩

/-- `if (readi(dp, &de, off, sizeof(de)) != sizeof(de)) panic(msg)`. -/
def readDirent (msg : String) (s : Inodes) (dp : Fin NINODE) (off : Nat) :
    Res (Dirent × Inodes) := do
  let (r, out, s) ← s.readi sb noDev dp off DESIZ
  if r ≠ DESIZ then .error (.panic msg) else .ok (Dirent.ofBytes out, s)

/-- The loop over the entries number `ks`, up to one with `P`, and the offset of that one. -/
def dirFind (msg : String) (P : Dirent → Bool) :
    List Nat → Inodes → Fin NINODE → Res (Option (Dirent × Nat) × Inodes)
  | [], s, _ => .ok (none, s)
  | k :: ks, s, dp => do
    let (de, s) ← s.readDirent sb msg dp (DESIZ * k)
    if P de then .ok (some (de, DESIZ * k), s) else dirFind msg P ks s dp

/-- The number of passes of `for (off = 0; off < dp->size; off += sizeof(de))`. -/
def entryCount (s : Inodes) (dp : Fin NINODE) : Nat :=
  ((s.cache dp).ip.size + (DESIZ - 1)) / DESIZ

/-- The loop of `dirlookup`. -/
def dirSearch (s : Inodes) (dp : Fin NINODE) (name : Str) : Res (Option (Dirent × Nat) × Inodes) :=
  if (s.cache dp).ip.type ≠ .dir then .error (.panic "dirlookup not DIR")
  else dirFind sb "dirlookup read" (fun de => de.inum ≠ 0 ∧ namecmp name de.name = 0)
    (List.range (s.entryCount dp)) s dp

/-- `dirlink` after its check: an entry that is not used is taken, or one is appended. -/
def dirAdd (s : Inodes) (dp : Fin NINODE) (name : Str) (inum : Nat) : Res (Unit × Inodes) := do
  let (found, s₁) ← dirFind sb "dirlink read" (fun de => de.inum = 0)
    (List.range (s.entryCount dp)) s dp
  let off := match found with
    | some (_, off) => off
    | none => DESIZ * s.entryCount dp
  let (r, s₂) ← s₁.writei sb noDev dp off (Dirent.toBytes ⟨inum, name⟩)
  if r ≠ DESIZ then .error (.panic "dirlink") else .ok ((), s₂)

/-- `isdirempty`. -/
def isdirempty (s : Inodes) (dp : Fin NINODE) : Res (Bool × Inodes) := do
  let (found, s) ← dirFind sb "isdirempty: readi" (fun de => de.inum ≠ 0)
    (List.range' 2 (s.entryCount dp - 2)) s dp
  return (found.isNone, s)

/-- `memset(&de, 0, sizeof(de))`, and the entry at `off` is overwritten. -/
def dirClear (s : Inodes) (dp : Fin NINODE) (off : Nat) : Res (Unit × Inodes) := do
  let (r, s) ← s.writei sb noDev dp off (List.replicate DESIZ 0)
  if r ≠ DESIZ then .error (.panic "unlink: writei") else .ok ((), s)

/-- `ip->nlink += k; iupdate(ip)`. -/
def addLink (s : Inodes) (e : Fin NINODE) (k : Int) : Inodes :=
  let ip := (s.cache e).ip
  s.iupdate sb e ip.major ip.minor (toShort (ip.nlink + k))

/-! ### The parts of `ilock` and `iput` -/

/-- `ilock` once the lock is held. -/
def load (s : Inodes) (e : Fin NINODE) : Res Inodes :=
  if (s.cache e).valid then .ok s
  else
    let s := s.upd e fun c => { c with valid := true, ip := s.disk.dinode c.inum }
    if (s.cache e).ip.type = .free then .error (.panic "ilock: no type") else .ok s

/-- `iput` while the lock is held. -/
def iputFree (s : Inodes) (e : Fin NINODE) : Res Inodes :=
  let c := s.cache e
  if c.valid ∧ c.ip.nlink = 0 ∧ c.ref = 1 then do
    let (ip, d) ← s.disk.itrunc sb c.inum c.ip
    let ip := { ip with type := .free }
    let s : Inodes := { s with disk := d.iupdate sb c.inum ip }
    return s.upd e fun c => { c with ip := ip, valid := false }
  else .ok s

/-- `ip->ref--`. -/
def deref (s : Inodes) (e : Fin NINODE) : Inodes := s.upd e fun c => { c with ref := c.ref - 1 }

/-- `ialloc` up to `iget`: an inode that is free is marked on the disk. -/
def markInode (s : Inodes) (type : FileType) : Res (Nat × Inodes) :=
  match (List.range' 1 (sb.ninodes - 1)).find? fun i => (s.disk.dinode i).type = .free with
  | none => .error (.panic "ialloc: no inodes")
  | some i => .ok (i, { s with disk := s.disk.iupdate sb i { Dinode.zero with type := type } })

variable {sb} {s : Inodes} {e : Fin NINODE}

end Inodes

end Xv6
