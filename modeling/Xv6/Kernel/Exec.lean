import Xv6.Kernel.Shm

/-!
# Kernel — Exec

`exec.c` and `loaduvm`, on the address space of the caller.  The file is the list of its bytes
(`none` when the path does not resolve); the ELF header and the program headers are read from it
as little-endian words.  What the pages hold is not modelled, so reading a segment and copying the
arguments only succeed, fail or stop.
-/

namespace Xv6

/-- The `uint` at offset `off` of a file. -/
def le32 (file : List UInt8) (off : Nat) : Nat :=
  (file.getD off 0).toNat + 256 * (file.getD (off + 1) 0).toNat +
    65536 * (file.getD (off + 2) 0).toNat + 16777216 * (file.getD (off + 3) 0).toNat

/-- The `ushort` at offset `off` of a file. -/
def le16 (file : List UInt8) (off : Nat) : Nat :=
  (file.getD off 0).toNat + 256 * (file.getD (off + 1) 0).toNat

/-- The result of `readi(ip, dst, off, n)` on a file of `size` bytes; `none` is -1. -/
def readLen (size off n : Nat) : Option Nat :=
  if off > size ∨ (off + n) % UINT < off then none
  else if off + n > size then some (size - off) else some n

/-- `struct proghdr`, without the fields `exec` does not read. -/
structure Proghdr where
  type : Nat
  off : Nat
  vaddr : Nat
  filesz : Nat
  memsz : Nat

/-- The program header at offset `off`. -/
def proghdrAt (file : List UInt8) (off : Nat) : Proghdr where
  type := le32 file off
  off := le32 file (off + 4)
  vaddr := le32 file (off + 8)
  filesz := le32 file (off + 16)
  memsz := le32 file (off + 20)

def ELF_MAGIC : Nat := 0x464C457F
def ELF_PROG_LOAD : Nat := 1

/-- The loop of `loaduvm` from offset `i` of the segment; `false` is -1. -/
def loaduvmLoop (d : Pgdir) (size addr offset sz : Nat) : Nat → Nat → Res Bool
  | 0, _ => .ok true
  | n + 1, i =>
    if i < sz then
      match walkpgdir d ((addr + i) % UINT / PGSIZE) with
      | none => .error (.panic "loaduvm: address should exist")
      | some _ =>
        let k := if sz - i < PGSIZE then sz - i else PGSIZE
        if readLen size ((offset + i) % UINT) k = some k then
          loaduvmLoop d size addr offset sz n (i + PGSIZE)
        else .ok false
    else .ok true

/-- `loaduvm`. -/
def loaduvm (d : Pgdir) (size addr offset sz : Nat) : Res Bool :=
  if addr % PGSIZE ≠ 0 then .error (.panic "loaduvm: addr must be page aligned")
  else loaduvmLoop d size addr offset sz (pagesOf sz) 0

/-- The loop of `exec` over `n` program headers from offset `off`, with the size reached: `none` is
`goto bad`. -/
def loadLoop (shm : Page → Bool) (file : List UInt8) :
    Nat → Nat → Nat → Kmem → Pgdir → Res (Option Nat × Kmem × Pgdir)
  | 0, _, sz, m, d => .ok (some sz, m, d)
  | n + 1, off, sz, m, d => do
    if readLen file.length off 32 ≠ some 32 then return (none, m, d)
    let ph := proghdrAt file off
    if ph.type ≠ ELF_PROG_LOAD then
      return ← loadLoop shm file n ((off + 32) % UINT) sz m d
    if ph.memsz < ph.filesz then return (none, m, d)
    if (ph.vaddr + ph.memsz) % UINT < ph.vaddr then return (none, m, d)
    let (sz, m, d) ← allocuvm shm m d sz ((ph.vaddr + ph.memsz) % UINT)
    if sz = 0 then return (none, m, d)
    if ph.vaddr % PGSIZE ≠ 0 then return (none, m, d)
    if ← loaduvm d file.length ph.vaddr ph.off ph.filesz then
      loadLoop shm file n ((off + 32) % UINT) sz m d
    else return (none, m, d)

/-- The loop of `exec` that pushes the argument strings; the stack pointer, or `none` for
`goto bad`. -/
def pushArgs (d : Pgdir) : List CStr → Nat → Nat → Res (Option Nat)
  | [], _, sp => .ok (some sp)
  | arg :: args, argc, sp =>
    if argc ≥ MAXARG then .ok none
    else do
      let sp := toUint ((sp : Int) - (arg.length + 1)) / 4 * 4
      if ← copyout d sp (arg.length + 1) then pushArgs d args (argc + 1) sp
      else .ok none

/-- The stack of `exec`, after the segments: two pages, of which the first is made inaccessible,
then the arguments.  The new size, or `none` for `goto bad`. -/
def buildStack (shm : Page → Bool) (argv : List CStr) (sz : Nat) (m : Kmem) (d : Pgdir) :
    Res (Option Nat × Kmem × Pgdir) := do
  let sz := pgroundup sz
  let (sz, m, d) ← allocuvm shm m d sz ((sz + 2 * PGSIZE) % UINT)
  if sz = 0 then return (none, m, d)
  let d ← clearpteu d (toUint ((sz : Int) - 2 * PGSIZE) / PGSIZE)
  match ← pushArgs d argv 0 sz with
  | none => return (none, m, d)
  | some sp =>
    let len := (3 + argv.length + 1) * 4
    if ← copyout d (toUint ((sp : Int) - len)) len then return (some sz, m, d)
    else return (none, m, d)

/-- The part of `exec` that fills the new address space: the segments and the stack. -/
def loadImage (shm : Page → Bool) (file : List UInt8) (argv : List CStr) (m : Kmem) (d : Pgdir) :
    Res (Option Nat × Kmem × Pgdir) := do
  let (r, m, d) ← loadLoop shm file (le16 file 44) (le32 file 28) 0 m d
  match r with
  | none => .ok (none, m, d)
  | some sz => buildStack shm argv sz m d

namespace Vm

/-- `exec` called by `p`, on the file its path names. -/
def exec (v : Vm) (p : Slot) (file : Option (List UInt8)) (argv : List CStr) : Res (Int × Vm) := do
  match file with
  | none => return (-1, v)
  | some file =>
    if readLen file.length 0 52 ≠ some 52 then return (-1, v)
    if le32 file 0 ≠ ELF_MAGIC then return (-1, v)
    match ← setupkvm v.isShm v.mem with
    | (none, m) => return (-1, { v with mem := m })
    | (some d, m) =>
      let (r, m, d) ← loadImage v.isShm file argv m d
      match r with
      | none =>
        let m ← freevm v.isShm m d
        return (-1, { v with mem := m })
      | some sz =>
        let oldpgdir ← v.pgdirOf p
        let m ← freevm v.isShm m oldpgdir
        return (0, { v.upd p fun e => { e with pgdir := some d, sz := sz } with mem := m })

end Vm

end Xv6
