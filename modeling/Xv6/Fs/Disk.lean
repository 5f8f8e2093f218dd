import Xv6.Log.Commit

/-!
# Fs — Disk

The block and inode layers of `fs.c` below the inode cache: `balloc`, `bfree`, `bzero`, `bmap`,
`itrunc`, `iupdate`, `readi` and `writei`.

The disk is what `bread` gives inside a transaction.  It is kept by parts: the bits of the bitmap
blocks, the inodes of the inode blocks, and the blocks behind them.  `logged` are the blocks that
were passed to `log_write`, the last one first.  A data block is 128 words (`Block`); its bytes are
in little-endian order.

The fields of an inode in memory are those of the inode on the disk, so both are a `Dinode`.
-/

namespace Xv6

open Lib Function

def BSIZE : Nat := 512
def NDIRECT : Nat := 12
/-- `BSIZE / sizeof(uint)`. -/
abbrev NINDIRECT : Nat := BWORDS
/-- `MAXFILE` as the macro expands: twice the number of blocks that an inode can address. -/
def MAXFILE : Nat := (NDIRECT + NINDIRECT) * 2
/-- `IPB`: inodes per block. -/
def IPB : Nat := 8
/-- `BPB`: bits per block of the bitmap. -/
def BPB : Nat := BSIZE * 8
def NDEV : Int := 10

instance : NeZero BWORDS := ⟨Nat.succ_ne_zero 127⟩

/-- The type of an inode; `free` is 0. -/
inductive FileType where
  | free
  | dir
  | file
  | dev
  deriving DecidableEq, Repr

/-- `struct superblock`, with the layout that `mkfs` gives a disk. -/
structure Super where
  size : Nat
  nblocks : Nat
  ninodes : Nat
  inodestart : Nat
  bmapstart : Nat
  /-- `balloc` counts blocks with an `int` -/
  size_lt : size < 2147483648
  /-- block 0 is the boot block -/
  nblocks_lt : nblocks < size
  inode_blocks : ∀ i < ninodes, i / IPB + inodestart < bmapstart
  bitmap_blocks : ∀ b < size, b / BPB + bmapstart < size - nblocks

namespace Super

variable (sb : Super)

/-- `nmeta` of `mkfs.c`: the blocks before the data blocks. -/
def nmeta : Nat := sb.size - sb.nblocks

theorem nmeta_pos : 0 < sb.nmeta := Nat.sub_pos_of_lt sb.nblocks_lt

/-- `IBLOCK(i, sb)`. -/
def iblock (i : Nat) : Nat := i / IPB + sb.inodestart

/-- `BBLOCK(b, sb)`. -/
def bblock (b : Nat) : Nat := b / BPB + sb.bmapstart

end Super

/-- The super block that `mkfs` writes: 200 inodes in 26 blocks after the log, and one block of
bitmap. -/
def mkfsSuper : Super where
  size := FSSIZE
  nblocks := FSSIZE - 59
  ninodes := 200
  inodestart := 32
  bmapstart := 58
  size_lt := by decide
  nblocks_lt := by decide
  inode_blocks := by
    intro i hi
    simp only [IPB]
    omega
  bitmap_blocks := by
    intro b hb
    simp only [BPB, BSIZE, FSSIZE] at *
    omega

/-- `struct dinode`, and the copy of it in a `struct inode`. -/
structure Dinode where
  type : FileType
  major : Int
  minor : Int
  nlink : Int
  size : Nat
  addrs : Fin (NDIRECT + 1) → Nat

/-- The entry of `addrs` that points to the indirect block. -/
def INDIRECT : Fin (NDIRECT + 1) := Fin.last NDIRECT

namespace Dinode

/-- `addrs[i] = a`. -/
def setAddr (ip : Dinode) (i : Fin (NDIRECT + 1)) (a : Nat) : Dinode :=
  { ip with addrs := update ip.addrs i a }

/-- `memset(dip, 0, sizeof(*dip))`. -/
def zero : Dinode := ⟨.free, 0, 0, 0, 0, fun _ => 0⟩

end Dinode

/-! ### The bytes of a block -/

namespace Block

def zero : Block := fun _ => 0

/-- Byte `i` of a block. -/
def byte (b : Block) (i : Nat) : UInt8 :=
  UInt8.ofNat ((b (Fin.ofNat BWORDS (i / 4))).toNat / 256 ^ (i % 4))

/-- The block with the bytes `f`. -/
def ofBytes (f : Nat → UInt8) : Block := fun j =>
  UInt32.ofNat ((f (4 * j)).toNat + 256 * (f (4 * j + 1)).toNat + 65536 * (f (4 * j + 2)).toNat +
    16777216 * (f (4 * j + 3)).toNat)

/-- `memmove(b + o, src, src.length)`. -/
def patch (b : Block) (o : Nat) (src : List UInt8) : Block :=
  ofBytes fun i => if o ≤ i then src.getD (i - o) (byte b i) else byte b i

end Block

/-! ### Blocks -/

/-- What is on the disk. -/
structure Disk where
  bitmap : Nat → Bool
  dinode : Nat → Dinode
  data : Nat → Block
  logged : List Nat

namespace Disk

/-- `log_write` of a buffer for the data block `b`. -/
def write (d : Disk) (b : Nat) (v : Block) : Disk :=
  { d with data := update d.data b v, logged := b :: d.logged }

/-- `log_write` of the bitmap block with the bit of `b`. -/
def setBit (sb : Super) (d : Disk) (b : Nat) (used : Bool) : Disk :=
  { d with bitmap := update d.bitmap b used, logged := sb.bblock b :: d.logged }

/-- `bzero`. -/
def bzero (d : Disk) (b : Nat) : Disk := d.write b Block.zero

/-- The first block from `b` on whose bit is clear, among `left` blocks. -/
def firstFree (bitmap : Nat → Bool) : (left b : Nat) → Option Nat
  | 0, _ => none
  | left + 1, b => if bitmap b then firstFree bitmap left (b + 1) else some b

/-- `balloc`. -/
def balloc (sb : Super) (d : Disk) : Res (Nat × Disk) :=
  match firstFree d.bitmap sb.size 0 with
  | some b => .ok (b, (d.setBit sb b true).bzero b)
  | none => .error (.panic "balloc: out of blocks")

/-- `bfree`. -/
def bfree (sb : Super) (d : Disk) (b : Nat) : Res Disk :=
  if d.bitmap b then .ok (d.setBit sb b false) else .error (.panic "freeing free block")

/-- `iupdate`, of the inode `inum`. -/
def iupdate (sb : Super) (d : Disk) (inum : Nat) (ip : Dinode) : Disk :=
  { d with dinode := update d.dinode inum ip, logged := sb.iblock inum :: d.logged }

/-! ### The blocks of an inode -/

/-- `if ((addr = ip->addrs[i]) == 0) ip->addrs[i] = addr = balloc(ip->dev)`. -/
def addr (sb : Super) (d : Disk) (ip : Dinode) (i : Fin (NDIRECT + 1)) :
    Res (Nat × Dinode × Disk) :=
  if ip.addrs i = 0 then do
    let (a, d) ← balloc sb d
    return (a, ip.setAddr i a, d)
  else .ok (ip.addrs i, ip, d)

/-- `bmap`. -/
def bmap (sb : Super) (d : Disk) (ip : Dinode) (bn : Nat) : Res (Nat × Dinode × Disk) :=
  if h : bn < NDIRECT then d.addr sb ip ⟨bn, Nat.lt_succ_of_lt h⟩
  else if h : bn - NDIRECT < NINDIRECT then do
    let (b, ip, d) ← d.addr sb ip INDIRECT
    let a := d.data b
    if a ⟨bn - NDIRECT, h⟩ = 0 then do
      let (c, d) ← balloc sb d
      return (c, ip, d.write b (update a ⟨bn - NDIRECT, h⟩ (UInt32.ofNat c)))
    else return ((a ⟨bn - NDIRECT, h⟩).toNat, ip, d)
  else .error (.panic "bmap: out of range")

/-- `for (i = 0; ...) if (a[i]) bfree(dev, a[i])`. -/
def freeAll (sb : Super) : List Nat → Disk → Res Disk
  | [], d => .ok d
  | a :: as, d => if a = 0 then freeAll sb as d else do freeAll sb as (← d.bfree sb a)

/-- `itrunc`, of the inode `inum`. -/
def itrunc (sb : Super) (d : Disk) (inum : Nat) (ip : Dinode) : Res (Dinode × Disk) := do
  let d ← d.freeAll sb (List.ofFn fun i : Fin NDIRECT => ip.addrs i.castSucc)
  let d ← if ip.addrs INDIRECT = 0 then .ok d else do
    let d ← d.freeAll sb (List.ofFn fun j => (d.data (ip.addrs INDIRECT) j).toNat)
    d.bfree sb (ip.addrs INDIRECT)
  let ip := { ip with size := 0, addrs := fun _ => 0 }
  return (ip, d.iupdate sb inum ip)

end Disk

/-! ### The contents of an inode -/

/-- `devsw`: what the functions of a device would return. -/
structure Devsw where
  read : Int → Option (Nat → Int × List UInt8)
  write : Int → Option (List UInt8 → Int)

/-- The entry of `devsw` for a major number. -/
def devEntry {α : Type} (f : Int → Option α) (major : Int) : Option α :=
  if major < 0 ∨ major ≥ NDEV then none else f major

namespace Disk

/-- The loop of `readi`, with the bytes that it copies; `fuel` is at least the bytes `n` left. -/
def readLoop (sb : Super) :
    (fuel : Nat) → Disk → Dinode → (off n : Nat) → Res (List UInt8 × Dinode × Disk)
  | 0, d, ip, _, _ => .ok ([], ip, d)
  | fuel + 1, d, ip, off, n =>
    if n = 0 then .ok ([], ip, d) else do
      let (b, ip, d) ← d.bmap sb ip (off / BSIZE)
      let m := min n (BSIZE - off % BSIZE)
      let (out, ip, d') ← readLoop sb fuel d ip (off + m) (n - m)
      return ((List.range' (off % BSIZE) m).map (Block.byte (d.data b)) ++ out, ip, d')

/-- `readi(ip, dst, off, n)`, with what it copies to `dst`. -/
def readi (sb : Super) (devsw : Devsw) (d : Disk) (ip : Dinode) (off n : Nat) :
    Res (Int × List UInt8 × Dinode × Disk) :=
  if ip.type = .dev then
    match devEntry devsw.read ip.major with
    | none => .ok (-1, [], ip, d)
    | some read => .ok ((read n).1, (read n).2, ip, d)
  else if off > ip.size ∨ (off + n) % UINT < off then .ok (-1, [], ip, d)
  else do
    let n := if off + n > ip.size then ip.size - off else n
    let (out, ip, d) ← readLoop sb n d ip off n
    return (n, out, ip, d)

/-- The loop of `writei`; `fuel` is at least the bytes of `src` left. -/
def writeLoop (sb : Super) :
    (fuel : Nat) → Disk → Dinode → (off : Nat) → (src : List UInt8) → Res (Dinode × Disk)
  | 0, d, ip, _, _ => .ok (ip, d)
  | fuel + 1, d, ip, off, src =>
    if src = [] then .ok (ip, d) else do
      let (b, ip, d) ← d.bmap sb ip (off / BSIZE)
      let m := min src.length (BSIZE - off % BSIZE)
      let d := d.write b (Block.patch (d.data b) (off % BSIZE) (src.take m))
      writeLoop sb fuel d ip (off + m) (src.drop m)

/-- `writei(ip, src, off, n)` of the inode `inum`, where `n` is the length of `src`. -/
def writei (sb : Super) (devsw : Devsw) (d : Disk) (inum : Nat) (ip : Dinode) (off : Nat)
    (src : List UInt8) : Res (Int × Dinode × Disk) :=
  let n := src.length
  if ip.type = .dev then
    match devEntry devsw.write ip.major with
    | none => .ok (-1, ip, d)
    | some write => .ok (write src, ip, d)
  else if off > ip.size ∨ (off + n) % UINT < off then .ok (-1, ip, d)
  else if off + n > MAXFILE * BSIZE then .ok (-1, ip, d)
  else do
    let (ip, d) ← writeLoop sb n d ip off src
    if n > 0 ∧ off + n > ip.size then
      let ip := { ip with size := off + n }
      return (n, ip, d.iupdate sb inum ip)
    return (n, ip, d)

end Disk

end Xv6
