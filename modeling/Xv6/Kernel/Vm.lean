import Xv6.Kernel.Base
import Mathlib.Data.List.FinRange

/-!
# Kernel — Vm

`kalloc.c` and the page tables of `vm.c`.  A physical page is its frame number; the kernel address
`P2V(pa)` of a page and the page are not told apart.  The free list is the list of its pages.  A
page directory and its page tables are values that carry the page each occupies.  Virtual
addresses are page-aligned wherever a page table is walked, and appear as page numbers.

The entries of the kernel half of a page directory are the ones `kmap` gives, the same in every
directory; `setupkvm` is the sequence of page-table pages that mapping `kmap` takes from the free
list.  Page contents are not modelled.
-/

namespace Xv6

open Function

/-- A frame number. -/
abbrev Page := Nat

/-- The permission bits `PTE_W` and `PTE_U`. -/
structure Perm where
  w : Bool
  u : Bool
  deriving DecidableEq, Repr

/-- A present page-table entry. -/
structure Pte where
  page : Page
  perm : Perm
  deriving DecidableEq, Repr

/-- A page table, at `page`. -/
structure Ptab where
  page : Page
  pte : Fin NPTENTRIES → Option Pte

/-- A page directory, at `page`. -/
structure Pgdir where
  page : Page
  pde : Fin NPDENTRIES → Option Ptab

/-- The number of pages of the 32-bit address space. -/
def NPAGES : Nat := 1048576

/-- The first page of the kernel half. -/
def KERNPAGE : Nat := KERNBASE / PGSIZE

/-- `PDX` of page `a`. -/
def pdx (a : Nat) : Fin NPDENTRIES := ⟨a / NPTENTRIES % NPDENTRIES, Nat.mod_lt _ (by decide)⟩

/-- `PTX` of page `a`. -/
def ptx (a : Nat) : Fin NPTENTRIES := ⟨a % NPTENTRIES, Nat.mod_lt _ (by decide)⟩

/-- The pages an interval of `sz` bytes from address 0 touches. -/
def pagesOf (sz : Nat) : Nat := (sz + (PGSIZE - 1)) / PGSIZE

/-! ### `kalloc.c` -/

/-- The page allocator: `kend` is the first page after the kernel (the symbol `end`). -/
structure Kmem where
  kend : Page
  freelist : List Page

/-- `kalloc`. -/
def kalloc (m : Kmem) : Option (Page × Kmem) :=
  match m.freelist with
  | [] => none
  | r :: rest => some (r, { m with freelist := rest })

/-- `kfree`. -/
def kfree (m : Kmem) (v : Page) : Res Kmem :=
  if v < m.kend ∨ PHYSTOP / PGSIZE ≤ v then .error (.panic "kfree")
  else if v ∈ m.freelist then .error (.doubleFree v)
  else .ok { m with freelist := v :: m.freelist }

/-- The loop of `freerange`: `n` pages from page `v` on. -/
def freerange : Nat → Page → Kmem → Res Kmem
  | 0, _, m => .ok m
  | n + 1, v, m => do
    let m ← kfree m v
    freerange n (v + 1) m

/-! ### Walking and mapping -/

/-- `walkpgdir(pgdir, va, 0)` and the entry it points to: `none` when there is no page table. -/
def walkpgdir (d : Pgdir) (a : Nat) : Option (Option Pte) :=
  (d.pde (pdx a)).map fun t => t.pte (ptx a)

/-- `walkpgdir(pgdir, va, 1)`: a missing page table is allocated, empty. -/
def walkpgdirAlloc (m : Kmem) (d : Pgdir) (a : Nat) : Option (Kmem × Pgdir) :=
  match d.pde (pdx a) with
  | some _ => some (m, d)
  | none =>
    match kalloc m with
    | none => none
    | some (pgtab, m) =>
      some (m, { d with pde := update d.pde (pdx a) (some ⟨pgtab, fun _ => none⟩) })

/-- `*pte = v`, where `pte` is the entry of page `a`. -/
def setPte (d : Pgdir) (a : Nat) (v : Option Pte) : Pgdir :=
  match d.pde (pdx a) with
  | none => d
  | some t =>
    let t := { t with pte := update t.pte (ptx a) v }
    { d with pde := update d.pde (pdx a) (some t) }

/-- The loop of `mappages`: page `a` and on to page `last` are mapped to `pa` and on. -/
def mapLoop (perm : Perm) (last : Nat) : Nat → Kmem → Pgdir → Nat → Page → Res (Bool × Kmem × Pgdir)
  | 0, _, _, _, _ => .error (.fault "mappages: the loop does not end")
  | n + 1, m, d, a, pa =>
    match walkpgdirAlloc m d a with
    | none => .ok (false, m, d)
    | some (m, d) =>
      match walkpgdir d a with
      | some (some _) => .error (.panic "remap")
      | _ =>
        let d := setPte d a (some ⟨pa, perm⟩)
        if a = last then .ok (true, m, d)
        else mapLoop perm last n m d ((a + 1) % NPAGES) (pa + 1)

/-- `mappages`; `false` is its result -1. -/
def mappages (m : Kmem) (d : Pgdir) (va size : Nat) (pa : Page) (perm : Perm) :
    Res (Bool × Kmem × Pgdir) :=
  mapLoop perm ((va + size - 1) % UINT / PGSIZE) NPAGES m d (va % UINT / PGSIZE) pa

/-! ### Deallocation -/

/-- The page `v` is freed unless it is the page of a segment: the loop over `shm_infos` before a
`kfree` in `deallocuvm` and `freevm`. -/
def kfreeUnshared (shm : Page → Bool) (m : Kmem) (v : Page) : Res Kmem :=
  if shm v then .ok m else kfree m v

/-- The loop of `deallocuvm` from page `a` up to page `last`; `shm v` says that `v` is a page
recorded in `shm_infos`. -/
def deallocLoop (shm : Page → Bool) (last : Nat) : Nat → Kmem → Pgdir → Nat → Res (Kmem × Pgdir)
  | 0, m, d, _ => .ok (m, d)
  | n + 1, m, d, a =>
    if a < last then
      match walkpgdir d a with
      | none =>
        -- `a = PGADDR(PDX(a) + 1, 0, 0) - PGSIZE`, then `a += PGSIZE`
        if a / NPTENTRIES + 1 < NPDENTRIES then
          deallocLoop shm last n m d ((a / NPTENTRIES + 1) * NPTENTRIES)
        else .error (.fault "deallocuvm: the address wraps")
      | some none => deallocLoop shm last n m d (a + 1)
      | some (some pte) =>
        if pte.page = 0 then .error (.panic "kfree")
        else do
          let m ← kfreeUnshared shm m pte.page
          deallocLoop shm last n m (setPte d a none) (a + 1)
    else .ok (m, d)

/-- `deallocuvm`: the new size, the allocator and the directory. -/
def deallocuvm (shm : Page → Bool) (m : Kmem) (d : Pgdir) (oldsz newsz : Nat) :
    Res (Nat × Kmem × Pgdir) :=
  if newsz ≥ oldsz then .ok (oldsz, m, d)
  else do
    let a := pgroundup newsz / PGSIZE
    let last := pagesOf oldsz
    let (m, d) ← deallocLoop shm last (last - a) m d a
    if last = NPAGES then .error (.fault "deallocuvm: the address wraps")
    else .ok (newsz, m, d)

/-- The loop of `freevm` over the page-directory entries `is`. -/
def freeTabs (shm : Page → Bool) (d : Pgdir) : List (Fin NPDENTRIES) → Kmem → Res Kmem
  | [], m => .ok m
  | i :: is, m =>
    match d.pde i with
    | none => freeTabs shm d is m
    | some t => do
      let m ← kfreeUnshared shm m t.page
      freeTabs shm d is m

/-- `freevm`. -/
def freevm (shm : Page → Bool) (m : Kmem) (d : Pgdir) : Res Kmem := do
  let (_, m, d) ← deallocuvm shm m d KERNBASE 0
  let m ← freeTabs shm d (List.finRange NPDENTRIES) m
  kfree m d.page

/-! ### New address spaces -/

/-- The entry `kmap` gives page `a` of the kernel half.  The bound between the read-only and the
writable part of the kernel is a symbol of the link; all of it is shown writable. -/
def kmapPte (a : Nat) : Option Pte :=
  if KERNPAGE ≤ a ∧ a < KERNPAGE + PHYSTOP / PGSIZE then some ⟨a - KERNPAGE, ⟨true, false⟩⟩
  else if DEVSPACE / PGSIZE ≤ a then some ⟨a, ⟨true, false⟩⟩
  else none

/-- The page-directory entries that mapping `kmap` fills, in order. -/
def kmapPdes : List (Fin NPDENTRIES) :=
  (List.finRange NPDENTRIES).filter fun i =>
    KERNPAGE / NPTENTRIES ≤ i.val ∧ i.val < (KERNPAGE + PHYSTOP / PGSIZE) / NPTENTRIES ∨
      DEVSPACE / PGSIZE / NPTENTRIES ≤ i.val

/-- The kernel page tables of a new directory; `false` when the free list runs out. -/
def mapKernel : List (Fin NPDENTRIES) → Kmem → Pgdir → Bool × Kmem × Pgdir
  | [], m, d => (true, m, d)
  | i :: is, m, d =>
    match kalloc m with
    | none => (false, m, d)
    | some (pgtab, m) =>
      let t : Ptab := ⟨pgtab, fun j => kmapPte (i.val * NPTENTRIES + j.val)⟩
      mapKernel is m { d with pde := update d.pde i (some t) }

/-- `setupkvm`. -/
def setupkvm (shm : Page → Bool) (m : Kmem) : Res (Option Pgdir × Kmem) :=
  match kalloc m with
  | none => .ok (none, m)
  | some (page, m) =>
    match mapKernel kmapPdes m ⟨page, fun _ => none⟩ with
    | (true, m, d) => .ok (some d, m)
    | (false, m, d) => do
      let m ← freevm shm m d
      .ok (none, m)

/-- The user permissions `PTE_W | PTE_U`. -/
def permWU : Perm := ⟨true, true⟩

/-- The loop of `allocuvm`: `n` pages from page `a` on. -/
def allocLoop (shm : Page → Bool) (oldsz newsz : Nat) :
    Nat → Kmem → Pgdir → Nat → Res (Nat × Kmem × Pgdir)
  | 0, m, d, _ => .ok (newsz, m, d)
  | n + 1, m, d, a =>
    match kalloc m with
    | none => do
      let (_, m, d) ← deallocuvm shm m d newsz oldsz
      .ok (0, m, d)
    | some (mem, m) => do
      let (r, m, d) ← mappages m d (a * PGSIZE) PGSIZE mem permWU
      if r then allocLoop shm oldsz newsz n m d (a + 1)
      else do
        let (_, m, d) ← deallocuvm shm m d newsz oldsz
        let m ← kfree m mem
        .ok (0, m, d)

/-- `allocuvm`: the new size, or 0. -/
def allocuvm (shm : Page → Bool) (m : Kmem) (d : Pgdir) (oldsz newsz : Nat) :
    Res (Nat × Kmem × Pgdir) :=
  if newsz ≥ KERNBASE then .ok (0, m, d)
  else if newsz < oldsz then .ok (oldsz, m, d)
  else
    let a := pgroundup oldsz / PGSIZE
    allocLoop shm oldsz newsz (pagesOf newsz - a) m d a

/-- The page `copyuvm` gives the child for page `i`: the segment's page if `shmAt i` says that a
segment is recorded there (`some none` when its page is null), else a fresh one. -/
def copyPage (m : Kmem) (shmAt : Nat → Option (Option Page)) (i : Nat) :
    Res (Option (Page × Kmem)) :=
  match shmAt i with
  | some none => .error (.fault "copyuvm: null page_addr")
  | some (some mem) => .ok (some (mem, m))
  | none => .ok (kalloc m)

/-- The loop of `copyuvm`: `n` pages from page `i` on.  A page that could not be mapped is lost:
`bad` frees the directory only. -/
def copyLoop (shm : Page → Bool) (src : Pgdir) (shmAt : Nat → Option (Option Page)) :
    Nat → Kmem → Pgdir → Nat → Res (Option Pgdir × Kmem)
  | 0, m, d, _ => .ok (some d, m)
  | n + 1, m, d, i =>
    match walkpgdir src i with
    | none => .error (.panic "copyuvm: pte should exist")
    | some none => .error (.panic "copyuvm: page not present")
    | some (some pte) => do
      match ← copyPage m shmAt i with
      | none => do
        let m ← freevm shm m d
        .ok (none, m)
      | some (mem, m) => do
        let (r, m, d) ← mappages m d (i * PGSIZE) PGSIZE mem pte.perm
        if r then copyLoop shm src shmAt n m d (i + 1)
        else do
          let m ← freevm shm m d
          .ok (none, m)

/-- `copyuvm`. -/
def copyuvm (shm : Page → Bool) (m : Kmem) (src : Pgdir) (sz : Nat)
    (shmAt : Nat → Option (Option Page)) : Res (Option Pgdir × Kmem) := do
  match ← setupkvm shm m with
  | (none, m) => .ok (none, m)
  | (some d, m) => copyLoop shm src shmAt (pagesOf sz) m d 0

/-- `clearpteu`. -/
def clearpteu (d : Pgdir) (a : Nat) : Res Pgdir :=
  match walkpgdir d a with
  | none => .error (.panic "clearpteu")
  | some none => .ok d
  | some (some pte) => .ok (setPte d a (some { pte with perm := { pte.perm with u := false } }))

/-- `uva2ka` of page `a`: is there a present user page?  A missing page table is a null pointer. -/
def uva2ka (d : Pgdir) (a : Nat) : Res Bool :=
  match walkpgdir d a with
  | none => .error (.fault "uva2ka: null pte")
  | some none => .ok false
  | some (some pte) => .ok pte.perm.u

/-- The loop of `copyout`, `len` bytes to address `va`. -/
def copyoutLoop (d : Pgdir) : Nat → Nat → Nat → Res Bool
  | 0, _, len => if len = 0 then .ok true else .error (.fault "copyout: the loop does not end")
  | n + 1, va, len =>
    if len = 0 then .ok true
    else do
      if ← uva2ka d (va / PGSIZE) then
        let k := min (PGSIZE - va % PGSIZE) len
        copyoutLoop d n ((va / PGSIZE + 1) * PGSIZE % UINT) (len - k)
      else .ok false

/-- `copyout`; `false` is its result -1. -/
def copyout (d : Pgdir) (va len : Nat) : Res Bool :=
  copyoutLoop d (len / PGSIZE + 2) va len

end Xv6
