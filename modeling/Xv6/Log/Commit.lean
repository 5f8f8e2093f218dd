import Mathlib.Data.UInt
import Xv6.Lib.Crash
import Xv6.Kernel.Base

/-!
# Log — Commit

The part of `log.c` that moves blocks: `install_trans`, `read_head`, `write_head`,
`recover_from_log`, `write_log` and `commit`, as programs over a disk and the buffer cache.

A block is 128 words of 32 bits.  The header block has the number `n` of logged blocks in its first
word and their block numbers in the next `LOGSIZE` words.  `bread` gives what is cached of a block,
or what is on the disk; `bwrite` writes the buffer through.  A block number outside the disk is the
panic of `idestart`, an index outside `log.lh.block` is a fault.
-/

namespace Xv6

open Lib

/-- `MAXOPBLOCKS`: the greatest number of blocks an operation may write. -/
def MAXOPBLOCKS : Nat := 10
/-- `LOGSIZE`: the length of `log.lh.block`. -/
def LOGSIZE : Nat := MAXOPBLOCKS * 3
/-- `FSSIZE`: the number of blocks of the disk. -/
def FSSIZE : Nat := 4000
/-- `BSIZE / sizeof(int)`. -/
def BWORDS : Nat := 128

/-- The contents of a block. -/
abbrev Block := Fin BWORDS → UInt32

/-- `struct logheader` in memory. -/
structure LogHeader where
  n : Nat
  block : Fin LOGSIZE → UInt32
  deriving DecidableEq

namespace Log

/-- A piece of kernel code that uses the disk. -/
abbrev DiskM := Prog Nat Block Stop

/-- `bread`, for the blocks of the log's device. -/
def bread (b : Nat) : DiskM Block :=
  if b < FSSIZE then .read b .ret else .fail (.panic "incorrect blockno")

/-- `bwrite`, of a buffer for the block `b` with the data `v`. -/
def bwrite (b : Nat) (v : Block) : DiskM Unit :=
  if b < FSSIZE then .write b v (.ret ()) else .fail (.panic "incorrect blockno")

/-- An index into `log.lh.block`. -/
def index (i : Nat) : DiskM (Fin LOGSIZE) :=
  if h : i < LOGSIZE then .ret ⟨i, h⟩ else .fail (.fault "log.lh.block: index out of range")

/-- The word of the header block that holds `n`. -/
def countWord : Fin BWORDS := ⟨0, by decide⟩

/-- The word of the header block that holds `block[i]`. -/
def blockWord (i : Fin LOGSIZE) : Fin BWORDS :=
  ⟨i.1 + 1, Nat.lt_of_lt_of_le (Nat.succ_lt_succ i.2) (by decide)⟩

/-- The number of iterations that `for (i = 0; i < n; i++)` makes for the `int` in a word. -/
def count (w : UInt32) : Nat := w.toInt32.toInt.toNat

/-- `install_trans`. -/
def installTrans (start : Nat) (lh : LogHeader) : DiskM Unit :=
  Prog.upTo (fun tail => do
    let lbuf ← bread (start + tail + 1)
    let i ← index tail
    let _dbuf ← bread (lh.block i).toNat
    bwrite (lh.block i).toNat lbuf) lh.n

/-- The loop of `read_head`. -/
def copyIn (buf : Block) (lh : LogHeader) : Nat → DiskM LogHeader
  | 0 => .ret lh
  | i + 1 => do
    let lh ← copyIn buf lh i
    let j ← index i
    return { lh with block := Function.update lh.block j (buf (blockWord j)) }

/-- `read_head`. -/
def readHead (start : Nat) (lh : LogHeader) : DiskM LogHeader := do
  let buf ← bread start
  copyIn buf { lh with n := count (buf countWord) } (count (buf countWord))

/-- The loop of `write_head`. -/
def copyOut (lh : LogHeader) (hb : Block) : Nat → DiskM Block
  | 0 => .ret hb
  | i + 1 => do
    let hb ← copyOut lh hb i
    let j ← index i
    return Function.update hb (blockWord j) (lh.block j)

/-- `write_head`. -/
def writeHead (start : Nat) (lh : LogHeader) : DiskM Unit := do
  let buf ← bread start
  let hb ← copyOut lh (Function.update buf countWord (UInt32.ofNat lh.n)) lh.n
  bwrite start hb

/-- `recover_from_log`, which leaves the header that it returns in memory. -/
def recoverFromLog (start : Nat) (lh : LogHeader) : DiskM LogHeader := do
  let lh ← readHead start lh
  installTrans start lh
  let lh := { lh with n := 0 }
  writeHead start lh
  return lh

/-- `write_log`. -/
def writeLog (start : Nat) (lh : LogHeader) : DiskM Unit :=
  Prog.upTo (fun tail => do
    let _to ← bread (start + tail + 1)
    let i ← index tail
    let data ← bread (lh.block i).toNat
    bwrite (start + tail + 1) data) lh.n

/-- `commit`, which leaves the header that it returns in memory. -/
def commit (start : Nat) (lh : LogHeader) : DiskM LogHeader :=
  if lh.n > 0 then do
    writeLog start lh
    writeHead start lh
    installTrans start lh
    let lh := { lh with n := 0 }
    writeHead start lh
    return lh
  else return lh

/-- `log.lh` after a restart. -/
def bootHeader : LogHeader := ⟨0, fun _ => 0⟩

end Log

end Xv6
