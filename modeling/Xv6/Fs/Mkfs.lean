import Xv6.Fs.Dir

/-!
# Fs — Mkfs

`mkfs.c`, and the format of the disk.  `mkfs` works on an image of whole sectors: it packs an inode
into its place in an inode block, appends to a file through the block numbers in its inode, and
writes the bitmap at the end.  `Disk.ofImage` is the image as the code of `fs.c` reads it.

A file is given by its name on the command line and by what `read` returns, piece by piece.  That
`lseek`, `read` or `write` on the image fails is left out, and so is the output.
-/

namespace Xv6

open Lib Function Nat

/-- The sectors of a disk. -/
abbrev Image := Nat → Block

/-! ### Inodes in their blocks -/

namespace FileType

/-- The number of a type in `stat.h`. -/
def code : FileType → Nat
  | .free => 0
  | .dir => 1
  | .file => 2
  | .dev => 3

def ofCode : Nat → FileType
  | 0 => .free
  | 1 => .dir
  | 2 => .file
  | _ => .dev

theorem ofCode_code (t : FileType) : ofCode t.code = t := by cases t <;> rfl

theorem code_lt (t : FileType) : t.code < 65536 := by cases t <;> decide

end FileType

/-- The 16 bits of a `short`. -/
def shortBits (n : Int) : Nat := (n % 65536).toNat

/-- The values of a `short`. -/
def IsShort (n : Int) : Prop := -32768 ≤ n ∧ n < 32768

theorem shortBits_lt (n : Int) : shortBits n < 65536 := by
  unfold shortBits
  omega

theorem toShort_shortBits {n : Int} (h : IsShort n) : toShort (shortBits n) = n := by
  obtain ⟨hlo, hhi⟩ := h
  unfold toShort shortBits
  omega

/-- The words of a `struct dinode`. -/
def IWORDS : Nat := 16

namespace Dinode

/-- Word `k` of the `struct dinode`. -/
def word (ip : Dinode) (k : Nat) : UInt32 :=
  if k = 0 then UInt32.ofNat (ip.type.code + 65536 * shortBits ip.major)
  else if k = 1 then UInt32.ofNat (shortBits ip.minor + 65536 * shortBits ip.nlink)
  else if k = 2 then UInt32.ofNat ip.size
  else UInt32.ofNat (ip.addrs (Fin.ofNat (NDIRECT + 1) (k - 3)))

/-- The inode with the given words. -/
def ofWords (w : Nat → UInt32) : Dinode where
  type := .ofCode ((w 0).toNat % 65536)
  major := toShort ((w 0).toNat / 65536 : Nat)
  minor := toShort ((w 1).toNat % 65536 : Nat)
  nlink := toShort ((w 1).toNat / 65536 : Nat)
  size := (w 2).toNat
  addrs k := (w (k + 3)).toNat

/-- The values that the fields of a `struct dinode` can have. -/
structure Packable (ip : Dinode) : Prop where
  major : IsShort ip.major
  minor : IsShort ip.minor
  nlink : IsShort ip.nlink
  size : ip.size < UINT
  addrs : ∀ k, ip.addrs k < UINT

theorem ofWords_word {ip : Dinode} (h : ip.Packable) : ofWords ip.word = ip := by
  have hpair : ∀ {a b : Nat}, a < 65536 → b < 65536 →
      (UInt32.ofNat (a + 65536 * b)).toNat = a + 65536 * b := fun ha hb =>
    UInt32.toNat_ofNat_of_lt (show _ < 2 ^ 32 by omega)
  have hw₀ : (ip.word 0).toNat = ip.type.code + 65536 * shortBits ip.major :=
    hpair ip.type.code_lt (shortBits_lt _)
  have hw₁ : (ip.word 1).toNat = shortBits ip.minor + 65536 * shortBits ip.nlink :=
    hpair (shortBits_lt _) (shortBits_lt _)
  have hlow : ∀ {a b : Nat}, a < 65536 → (a + 65536 * b) % 65536 = a := fun h => by omega
  have hhigh : ∀ {a b : Nat}, a < 65536 → (a + 65536 * b) / 65536 = b := fun h => by omega
  unfold ofWords
  rw [hw₀, hw₁, hlow ip.type.code_lt, hhigh ip.type.code_lt, hlow (shortBits_lt _),
    hhigh (shortBits_lt _), FileType.ofCode_code, toShort_shortBits h.major,
    toShort_shortBits h.minor, toShort_shortBits h.nlink]
  have hsize : (ip.word 2).toNat = ip.size := UInt32.toNat_ofNat_of_lt h.size
  have haddrs : (fun k : Fin (NDIRECT + 1) => (ip.word (k + 3)).toNat) = ip.addrs := by
    funext k
    have hk : Fin.ofNat (NDIRECT + 1) (k.1 + 3 - 3) = k := Fin.ext (mod_eq_of_lt k.2)
    have hword : ip.word (k.1 + 3) = UInt32.ofNat (ip.addrs k) := by
      unfold word
      rw [if_neg (by omega), if_neg (by omega), if_neg (by omega), hk]
    rw [hword]
    exact UInt32.toNat_ofNat_of_lt (h.addrs k)
  rw [hsize, haddrs]

end Dinode

namespace Image

variable (sb : Super)

/-- `(struct dinode *)bp->data + inum % IPB`, for the block of inode `i`. -/
def dinode (img : Image) (i : Nat) : Dinode :=
  .ofWords fun k => img (sb.iblock i) (Fin.ofNat BWORDS (IWORDS * (i % IPB) + k))

/-- The bit of block `b` in the bitmap. -/
def bit (img : Image) (b : Nat) : Bool :=
  (Block.byte (img (sb.bblock b)) (b % BPB / 8)).toNat.testBit (b % BPB % 8)

end Image

/-- The disk as the kernel reads it. -/
def Disk.ofImage (sb : Super) (img : Image) : Disk where
  bitmap := img.bit sb
  dinode := img.dinode sb
  data := img
  logged := []

/-! ### `mkfs` -/

/-- The image, and the global variables. -/
structure Mkfs where
  img : Image
  freeinode : Nat
  freeblock : Nat

namespace Mkfs

def ROOTINO : Nat := 1

def rsect (m : Mkfs) (sec : Nat) : Block := m.img sec

def wsect (m : Mkfs) (sec : Nat) (buf : Block) : Mkfs :=
  { m with img := update m.img sec buf }

def winode (m : Mkfs) (inum : Nat) (ip : Dinode) : Mkfs :=
  let bn := mkfsSuper.iblock inum
  let buf := m.rsect bn
  m.wsect bn fun j => if j.1 / IWORDS = inum % IPB then ip.word (j.1 % IWORDS) else buf j

def rinode (m : Mkfs) (inum : Nat) : Dinode := m.img.dinode mkfsSuper inum

def ialloc (m : Mkfs) (type : FileType) : Nat × Mkfs :=
  let inum := m.freeinode
  let m := { m with freeinode := m.freeinode + 1 }
  (inum, m.winode inum { Dinode.zero with type := type, nlink := 1 })

/-- `if (xint(din.addrs[i]) == 0) din.addrs[i] = xint(freeblock++)`. -/
def addr (m : Mkfs) (din : Dinode) (i : Fin (NDIRECT + 1)) : Nat × Dinode × Mkfs :=
  if din.addrs i = 0 then
    (m.freeblock, din.setAddr i m.freeblock, { m with freeblock := m.freeblock + 1 })
  else (din.addrs i, din, m)

/-- The sector `x` of block `fbn` of the file. -/
def sector (m : Mkfs) (din : Dinode) (fbn : Nat) : Res (Nat × Dinode × Mkfs) :=
  if h : fbn < NDIRECT then .ok (m.addr din ⟨fbn, Nat.lt_succ_of_lt h⟩)
  else
    let (b, din, m) := m.addr din INDIRECT
    let indirect := m.rsect b
    if h : fbn - NDIRECT < NINDIRECT then
      if indirect ⟨fbn - NDIRECT, h⟩ = 0 then
        let c := m.freeblock
        let m := { m with freeblock := c + 1 }
        .ok (c, din, m.wsect b (update indirect ⟨fbn - NDIRECT, h⟩ (UInt32.ofNat c)))
      else .ok ((indirect ⟨fbn - NDIRECT, h⟩).toNat, din, m)
    else .error (.fault "iappend: indirect[] has no such entry")

/-- The loop of `iappend`; `fuel` is at least the bytes left. -/
def iappendLoop : (fuel : Nat) → Mkfs → Dinode → (off : Nat) → (p : List UInt8) →
    Res (Mkfs × Dinode × Nat)
  | 0, m, din, off, _ => .ok (m, din, off)
  | fuel + 1, m, din, off, p =>
    if p = [] then .ok (m, din, off)
    else
      let fbn := off / BSIZE
      if fbn < MAXFILE then do
        let (x, din, m) ← m.sector din fbn
        let n1 := min p.length ((fbn + 1) * BSIZE - off)
        let m := m.wsect x (Block.patch (m.rsect x) (off - fbn * BSIZE) (p.take n1))
        iappendLoop fuel m din (off + n1) (p.drop n1)
      else .error (.panic "assert(fbn < MAXFILE)")

def iappend (m : Mkfs) (inum : Nat) (p : List UInt8) : Res Mkfs := do
  let din := m.rinode inum
  let (m, din, off) ← iappendLoop p.length m din din.size p
  return m.winode inum { din with size := off }

/-- `for (i = 0; i < used; i++) buf[i/8] = buf[i/8] | (0x1 << (i%8))`. -/
def usedBits : Nat → Nat → UInt8
  | 0 => fun _ => 0
  | i + 1 => update (usedBits i) (i / 8) (usedBits i (i / 8) ||| UInt8.ofNat (2 ^ (i % 8)))

def balloc (m : Mkfs) (used : Nat) : Res Mkfs :=
  if used < BSIZE * 8 then .ok (m.wsect mkfsSuper.bmapstart (Block.ofBytes (usedBits used)))
  else .error (.panic "assert(used < BSIZE*8)")

/-- The character `'_'`. -/
def underscore : Chr := ⟨95, by decide⟩

/-- `if (argv[i][0] == '_') ++argv[i]`. -/
def stored (name : Str) : Str := if name.head? = some underscore then name.tail else name

/-- What the loop of `main` does for a file. -/
def addFile (m : Mkfs) (name : Str) (reads : List (List UInt8)) : Res Mkfs :=
  if slash ∈ name then .error (.panic "assert(index(argv[i], '/') == 0)")
  else do
    let (inum, m) := m.ialloc .file
    let m ← m.iappend ROOTINO (Dirent.toBytes ⟨inum, stored name⟩)
    reads.foldlM (fun m buf => m.iappend inum buf) m

/-- The super block. -/
def superBlock : Block := fun j =>
  UInt32.ofNat (([mkfsSuper.size, mkfsSuper.nblocks, mkfsSuper.ninodes, LOGSIZE, 2,
    mkfsSuper.inodestart, mkfsSuper.bmapstart].getD j 0))

/-- The image when `main` has written the zeros and the super block. -/
def blankImage : Image := update (fun _ => Block.zero) 1 superBlock

/-- `main`, with the files of the command line. -/
def main (files : List (Str × List (List UInt8))) : Res Mkfs := do
  let m : Mkfs := ⟨blankImage, 1, mkfsSuper.nmeta⟩
  let (rootino, m) := m.ialloc .dir
  if rootino ≠ ROOTINO then .error (.panic "assert(rootino == ROOTINO)")
  else do
    let m ← m.iappend rootino (Dirent.toBytes ⟨rootino, dot⟩)
    let m ← m.iappend rootino (Dirent.toBytes ⟨rootino, dotdot⟩)
    let m ← files.foldlM (fun m f => m.addFile f.1 f.2) m
    -- fix size of root inode dir
    let din := m.rinode rootino
    let m := m.winode rootino { din with size := (din.size / BSIZE + 1) * BSIZE }
    m.balloc m.freeblock

/-! ### What the kernel reads -/

variable {m : Mkfs} {i j : Nat} {ip : Dinode}

/-- The words of two inodes in one block are apart. -/
theorem slot_word {k : Nat} (hk : k < IWORDS) (j : Nat) :
    (Fin.ofNat BWORDS (IWORDS * (j % IPB) + k)).1 / IWORDS = j % IPB ∧
      (Fin.ofNat BWORDS (IWORDS * (j % IPB) + k)).1 % IWORDS = k := by
  have hj : j % IPB < IPB := mod_lt _ (by decide)
  have hlt : IWORDS * (j % IPB) + k < BWORDS := by
    simp only [IWORDS, IPB, BWORDS] at *
    omega
  have hval : (Fin.ofNat BWORDS (IWORDS * (j % IPB) + k)).1 = IWORDS * (j % IPB) + k :=
    mod_eq_of_lt hlt
  rw [hval]
  simp only [IWORDS] at *
  omega

theorem ofWords_congr {w w' : Nat → UInt32} (h : ∀ k < IWORDS, w k = w' k) :
    Dinode.ofWords w = Dinode.ofWords w' := by
  have haddrs : (fun k : Fin (NDIRECT + 1) => (w (k.1 + 3)).toNat) =
      fun k : Fin (NDIRECT + 1) => (w' (k.1 + 3)).toNat := by
    funext k
    have hk := k.2
    rw [h (k.1 + 3) (by simp only [NDIRECT, IWORDS] at *; omega)]
  unfold Dinode.ofWords
  rw [h 0 (by decide), h 1 (by decide), h 2 (by decide), haddrs]

/-- **The kernel reads the inode that `winode` has written**, and the others as before. -/
theorem rinode_winode (h : ip.Packable) :
    (m.winode i ip).rinode j = if j = i then ip else m.rinode j := by
  have hblock : mkfsSuper.iblock j = mkfsSuper.iblock i → j % IPB = i % IPB → j = i := by
    intro h₁ h₂
    simp only [Super.iblock, IPB] at h₁ h₂
    omega
  by_cases e : j = i
  · subst e
    rw [if_pos rfl]
    have hwords : (m.winode j ip).rinode j = Dinode.ofWords ip.word := by
      unfold rinode Image.dinode
      refine ofWords_congr fun k hk => ?_
      obtain ⟨h₁, h₂⟩ := slot_word hk j
      simp only [winode, wsect, update_self]
      rw [if_pos h₁, h₂]
    rw [hwords, Dinode.ofWords_word h]
  · rw [if_neg e]
    unfold rinode Image.dinode
    refine ofWords_congr fun k hk => ?_
    obtain ⟨h₁, -⟩ := slot_word hk j
    by_cases hb : mkfsSuper.iblock j = mkfsSuper.iblock i
    · simp only [winode, wsect, hb, update_self]
      rw [if_neg fun h₂ => e (hblock hb (h₁.symm.trans h₂))]
      rfl
    · simp only [winode, wsect, update_of_ne hb]

/-- Another sector leaves the inodes as they are. -/
theorem rinode_wsect {b : Nat} {v : Block} (h : mkfsSuper.iblock i ≠ b) :
    (m.wsect b v).rinode i = m.rinode i := by
  unfold rinode Image.dinode wsect
  simp only [update_of_ne h]

theorem testBit_usedBits (used j k : Nat) (hk : k < 8) :
    (usedBits used j).toNat.testBit k = decide (8 * j + k < used) := by
  induction used with
  | zero => simp [usedBits]
  | succ i ih =>
    rw [usedBits]
    have hpow : (UInt8.ofNat (2 ^ (i % 8))).toNat = 2 ^ (i % 8) := by
      refine UInt8.toNat_ofNat_of_lt ?_
      exact Nat.pow_lt_pow_right (by decide) (Nat.mod_lt _ (by decide))
    by_cases e : j = i / 8
    · subst e
      rw [update_self, UInt8.toNat_or, testBit_or, ih, hpow, testBit_two_pow]
      rw [Bool.eq_iff_iff]
      simp only [Bool.or_eq_true, decide_eq_true_eq]
      omega
    · rw [update_of_ne e, ih]
      rw [Bool.eq_iff_iff]
      simp only [decide_eq_true_eq]
      omega

/-- **The kernel finds the first `used` blocks marked.** -/
theorem bit_balloc {m' : Mkfs} {used b : Nat} (h : m.balloc used = .ok m')
    (hb : b < mkfsSuper.size) : m'.img.bit mkfsSuper b = decide (b < used) := by
  unfold balloc at h
  split at h
  · cases h
    have hlt : b < BPB := lt_trans hb (by decide)
    have hbb : mkfsSuper.bblock b = mkfsSuper.bmapstart := by
      unfold Super.bblock
      rw [div_eq_of_lt hlt, zero_add]
    unfold Image.bit wsect
    dsimp only
    rw [hbb, update_self, mod_eq_of_lt hlt,
      Block.byte_ofBytes _ (by simp only [BPB, BSIZE] at *; omega),
      testBit_usedBits _ _ _ (mod_lt _ (by decide))]
    rw [Bool.eq_iff_iff]
    simp only [decide_eq_true_eq]
    omega
  · cases h

end Mkfs

end Xv6
