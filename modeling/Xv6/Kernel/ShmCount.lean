import Xv6.Kernel.Life
import Xv6.Kernel.SegSafe

/-!
# Kernel — ShmCount

The bookkeeping of shared segments.  The table `shm_infos` and the tables `shms` of the processes
share their indices and are searched by name.  `ShmInv` says that they agree: the reference count
of a segment is the number of live processes that have it, a segment in use has a name, a page and
a reference, and the names of the processes are those of `shm_infos`.

Two changes keep it: a process gets a segment (`ShmInv.attach`: `shm_get`, and each round of the
loop of `fork2`) or gives one up (`ShmInv.detach`: `shm_rem`, and each round of the loop of
`exit`).  `shmInv_run` is the result over all runs.
-/

namespace Xv6

open List Sched Vm

namespace Vm

variable {L L' : Slot → Bool} {v v₁ v' : Vm} {p q np : Slot} {i j : Fin SHM_MAXNUM} {name n : CStr}
  {r : Int} {b : Bool}

/-- The name of segment `i` in the table of `q`. -/
def nameOf (v : Vm) (q : Slot) (i : Fin SHM_MAXNUM) : CStr := ((v.proc q).shms i).name

/-- The live processes that have segment `i`. -/
def holders (L : Slot → Bool) (v : Vm) (i : Fin SHM_MAXNUM) : Finset Slot :=
  Finset.univ.filter fun q => L q = true ∧ v.nameOf q i ≠ []

/-- **The tables agree.**  `L` says which processes are live. -/
structure ShmInv (L : Slot → Bool) (v : Vm) : Prop where
  count : ∀ i, (v.shm i).refCount = (v.holders L i).card
  named : ∀ i, (v.shm i).name = [] ↔ (v.shm i).refCount = 0
  paged : ∀ i, (v.shm i).name = [] ↔ (v.shm i).pageAddr = none
  same : ∀ q i, v.nameOf q i ≠ [] → v.nameOf q i = (v.shm i).name
  distinct : ∀ i j, (v.shm i).name ≠ [] → (v.shm i).name = (v.shm j).name → i = j
  dead : ∀ q i, L q = false → v.nameOf q i = []

theorem mem_holders : q ∈ v.holders L i ↔ L q = true ∧ v.nameOf q i ≠ [] := by simp [holders]

/-! ### Changes that keep the tables -/

/-- The names and counts are the same in `v'` as in `v`. -/
structure SameTables (v v' : Vm) : Prop where
  shm : v'.shm = v.shm
  name : ∀ q i, v'.nameOf q i = v.nameOf q i

theorem SameTables.refl (v : Vm) : SameTables v v := ⟨rfl, fun _ _ => rfl⟩

theorem SameTables.trans (h₁ : SameTables v v₁) (h₂ : SameTables v₁ v') : SameTables v v' :=
  ⟨h₂.shm.trans h₁.shm, fun q i => (h₂.name q i).trans (h₁.name q i)⟩

/-- The segments are the same in `v'` as in `v`, with all that the processes record of them. -/
structure SameRecords (v v' : Vm) : Prop where
  shm : v'.shm = v.shm
  shms : ∀ q, (v'.proc q).shms = (v.proc q).shms

theorem SameRecords.refl (v : Vm) : SameRecords v v := ⟨rfl, fun _ => rfl⟩

theorem SameRecords.trans (h₁ : SameRecords v v₁) (h₂ : SameRecords v₁ v') : SameRecords v v' :=
  ⟨h₂.shm.trans h₁.shm, fun q => (h₂.shms q).trans (h₁.shms q)⟩

theorem SameRecords.tables (h : SameRecords v v') : SameTables v v' :=
  ⟨h.shm, fun q i => by rw [nameOf, nameOf, h.shms q]⟩

/-- Only fields other than `shms` change. -/
theorem sameRecords_upd {f : PMem → PMem} (h : (f (v.proc p)).shms = (v.proc p).shms) (m : Kmem) :
    SameRecords v { v.upd p f with mem := m } := by
  refine ⟨rfl, fun q => ?_⟩
  by_cases e : q = p
  · subst e; simp [h]
  · simp [e]

/-- Processes without segments may come to life and die. -/
theorem ShmInv.congr (h : ShmInv L v) (ht : SameTables v v')
    (hL : ∀ q, L' q = L q ∨ ∀ i, v.nameOf q i = []) : ShmInv L' v' := by
  have hhold : ∀ i, v'.holders L' i = v.holders L i := by
    intro i
    ext q
    rw [mem_holders, mem_holders, ht.name]
    rcases hL q with e | e
    · rw [e]
    · simp [e i]
  refine ⟨fun i => ?_, fun i => ?_, fun i => ?_, fun q i hq => ?_, fun i j hi hij => ?_,
    fun q i hq => ?_⟩
  · rw [ht.shm, hhold]; exact h.count i
  · rw [ht.shm]; exact h.named i
  · rw [ht.shm]; exact h.paged i
  · rw [ht.name] at hq ⊢; rw [ht.shm]; exact h.same q i hq
  · rw [ht.shm] at hi hij; exact h.distinct i j hi hij
  · rw [ht.name]
    rcases hL q with e | e
    · exact h.dead q i (e ▸ hq)
    · exact e i

theorem ShmInv.tables (h : ShmInv L v) (ht : SameTables v v') : ShmInv L v' :=
  h.congr ht fun _ => .inl rfl

/-! ### A process gets or gives up a segment -/

/-- The name of segment `i` in the table of `p` becomes `n`; the other names stay. -/
def Renames (p : Slot) (i : Fin SHM_MAXNUM) (n : CStr) (v v' : Vm) : Prop :=
  ∀ q j, v'.nameOf q j = if q = p ∧ j = i then n else v.nameOf q j

theorem Renames.self (h : Renames p i n v v') : v'.nameOf p i = n := by
  rw [h, if_pos ⟨rfl, rfl⟩]

theorem Renames.ne (h : Renames p i n v v') (hq : ¬ (q = p ∧ j = i)) :
    v'.nameOf q j = v.nameOf q j := by
  rw [h, if_neg hq]

/-- The holders of the other segments stay. -/
theorem Renames.holders_ne (h : Renames p i n v v') (hj : j ≠ i) :
    v'.holders L j = v.holders L j := by
  ext q
  rw [mem_holders, mem_holders, h.ne fun hq => hj hq.2]

/-- **A process gets a segment**, a new one or one that exists. -/
theorem ShmInv.attach (pg : Page) (h : ShmInv L v) (hp : L p = true) (hold : v.nameOf p i = [])
    (hn : n ≠ []) (hr : Renames p i n v v') (hj : ∀ j, j ≠ i → v'.shm j = v.shm j)
    (hi : v'.shm i = ⟨some pg, n, (v.shm i).refCount + 1⟩)
    (hname : (v.shm i).name = n ∨ (v.shm i).name = [] ∧ ∀ j, (v.shm j).name ≠ n) : ShmInv L v' := by
  have hself : v'.holders L i = insert p (v.holders L i) := by
    ext q
    rw [Finset.mem_insert, mem_holders, mem_holders]
    by_cases e : q = p
    · subst e; simp [hr.self, hn, hp]
    · rw [hr.ne fun hq => e hq.1]; simp [e]
  have hnot : p ∉ v.holders L i := fun hm => (mem_holders.mp hm).2 hold
  have hpos : (0 : Int) ≤ (v.shm i).refCount := by rw [h.count]; exact Int.natCast_nonneg _
  refine ⟨fun j => ?_, fun j => ?_, fun j => ?_, fun q j hq => ?_, fun a b ha hab => ?_,
    fun q j hq => ?_⟩
  · by_cases e : j = i
    · subst e; rw [hi, hself, Finset.card_insert_of_notMem hnot, h.count]; push_cast; rfl
    · rw [hj j e, hr.holders_ne e]; exact h.count j
  · by_cases e : j = i
    · subst e; rw [hi]; exact iff_of_false hn (by dsimp only; omega)
    · rw [hj j e]; exact h.named j
  · by_cases e : j = i
    · subst e; rw [hi]; exact iff_of_false hn (by simp)
    · rw [hj j e]; exact h.paged j
  · by_cases e : q = p ∧ j = i
    · obtain ⟨rfl, rfl⟩ := e; rw [hr.self, hi]
    · rw [hr.ne e] at hq ⊢
      have hs := h.same q j hq
      by_cases ej : j = i
      · -- another process has the segment, so it is not new
        subst ej
        rw [hi, hs]
        rcases hname with hn' | ⟨hn', -⟩
        · exact hn'
        · exact absurd (hs.trans hn') hq
      · rw [hj j ej]; exact hs
  · -- a new name is not the name of another segment
    have hnew : ∀ b, b ≠ i → (v.shm b).name ≠ n := by
      intro b hb hbn
      rcases hname with hn' | ⟨-, hn'⟩
      · exact hb (h.distinct b i (hbn ▸ hn) (hbn.trans hn'.symm))
      · exact hn' b hbn
    by_cases ea : a = i <;> by_cases eb : b = i
    · exact ea.trans eb.symm
    · subst ea; rw [hi, hj b eb] at hab; exact absurd hab.symm (hnew b eb)
    · subst eb; rw [hi, hj a ea] at hab; exact absurd hab (hnew a ea)
    · rw [hj a ea] at ha hab; rw [hj b eb] at hab; exact h.distinct a b ha hab
  · have e : ¬ (q = p ∧ j = i) := by rintro ⟨rfl, -⟩; rw [hp] at hq; cases hq
    rw [hr.ne e]; exact h.dead q j hq

/-- **A process gives up a segment**, which is cleared with its last reference. -/
theorem ShmInv.detach (h : ShmInv L v) (hp : L p = true) (hold : v.nameOf p i ≠ [])
    (hr : Renames p i [] v v') (hj : ∀ j, j ≠ i → v'.shm j = v.shm j)
    (hi : v'.shm i = if (v.shm i).refCount - 1 = 0 then ⟨none, [], 0⟩
      else { v.shm i with refCount := (v.shm i).refCount - 1 }) : ShmInv L v' := by
  have hmem : p ∈ v.holders L i := mem_holders.mpr ⟨hp, hold⟩
  have hself : v'.holders L i = (v.holders L i).erase p := by
    ext q
    rw [Finset.mem_erase, mem_holders, mem_holders]
    by_cases e : q = p
    · subst e; simp [hr.self]
    · rw [hr.ne fun hq => e hq.1]; simp [e]
  have hcard : ((v'.holders L i).card : Int) = (v.shm i).refCount - 1 := by
    have := Finset.card_erase_add_one hmem
    rw [hself, h.count]
    omega
  have hused : (v.shm i).name ≠ [] := by
    have hs := h.same p i hold
    exact hs ▸ hold
  have hpage : (v.shm i).pageAddr ≠ none := fun hpg => hused ((h.paged i).mpr hpg)
  refine ⟨fun j => ?_, fun j => ?_, fun j => ?_, fun q j hq => ?_, fun a b ha hab => ?_,
    fun q j hq => ?_⟩
  · by_cases e : j = i
    · subst e; rw [hi, hcard]; split
      · next hz => exact hz.symm
      · rfl
    · rw [hj j e, hr.holders_ne e]; exact h.count j
  · by_cases e : j = i
    · subst e; rw [hi]; split
      · simp
      · next hz => exact iff_of_false hused hz
    · rw [hj j e]; exact h.named j
  · by_cases e : j = i
    · subst e; rw [hi]; split
      · simp
      · exact iff_of_false hused hpage
    · rw [hj j e]; exact h.paged j
  · have e : ¬ (q = p ∧ j = i) := by rintro ⟨rfl, rfl⟩; exact hq hr.self
    rw [hr.ne e] at hq ⊢
    have hs := h.same q j hq
    by_cases ej : j = i
    · subst ej
      rw [hi, if_neg]
      · exact hs
      · -- `q` has the segment too
        intro hz
        have hq' : q ∈ v'.holders L j := by
          refine mem_holders.mpr ⟨?_, by rw [hr.ne e]; exact hq⟩
          cases hlq : L q with
          | true => rfl
          | false => exact absurd (h.dead q j hlq) hq
        have := Finset.card_pos.mpr ⟨q, hq'⟩
        omega
    · rw [hj j ej]; exact hs
  · have hname : ∀ b, (v'.shm b).name ≠ [] → (v'.shm b).name = (v.shm b).name := by
      intro b hb
      by_cases e : b = i
      · subst e
        rw [hi] at hb ⊢
        split at hb
        · exact absurd rfl hb
        · next hz => rw [if_neg hz]
      · rw [hj b e]
    have hb : (v'.shm b).name ≠ [] := hab ▸ ha
    exact h.distinct a b (hname a ha ▸ ha) ((hname a ha).symm.trans (hab.trans (hname b hb)))
  · have e : v.nameOf q j = [] := h.dead q j hq
    rw [hr]; split <;> [rfl; exact e]

/-! ### `shm_get` -/

/-- The pages `shm_get(name)` takes from the free list: one for a new segment, and one for a page
table if there is none for the address the segment is mapped at. -/
def shmPages (v : Vm) (p : Slot) (name : CStr) : Nat :=
  (if ∃ i, (v.shm i).name = name then 0 else 1) + (v.proc p).pgdir.elim 0 fun d =>
      if (d.pde (pdx (pgroundup (v.proc p).sz / PGSIZE))).isSome then 0 else 1

/-- What is asked of a `shm_get(name)` by `p` that does not have the segment yet: its size stays
below `KERNBASE`, no page allocation fails, and there is a free entry for a new name. -/
def GetOk (v : Vm) (p : Slot) (name : CStr) : Prop :=
  (∀ j, v.nameOf p j ≠ name) → (v.proc p).sz + PGSIZE < KERNBASE ∧
    v.shmPages p name ≤ v.mem.freelist.length ∧
    ((∀ i, (v.shm i).name ≠ name) → ∃ i, (v.shm i).name = [])

instance (v : Vm) (p : Slot) (name : CStr) : Decidable (v.GetOk p name) :=
  inferInstanceAs (Decidable (_ → _))

/-- `mappages` of one page does not fail if there is a page table or a page for one. -/
theorem mappages_true {m m' : Kmem} {d d' : Pgdir} {va : Nat} {pa : Page} {perm : Perm} {r : Bool}
    (hva : va % PGSIZE = 0)
    (hm : (d.pde (pdx (va % UINT / PGSIZE))).isSome = true ∨ m.freelist ≠ [])
    (h : mappages m d va PGSIZE pa perm = .ok (r, m', d')) : r = true := by
  have hlast : va % UINT / PGSIZE = (va + PGSIZE - 1) % UINT / PGSIZE := by
    simp only [UINT, PGSIZE] at *
    omega
  unfold mappages at h
  rw [← hlast, show NPAGES = 1048575 + 1 from rfl, mapLoop] at h
  generalize va % UINT / PGSIZE = b at h hm
  cases hw : walkpgdirAlloc m d b with
  | none =>
    -- no page table, and no page for one
    obtain ⟨hd, hf⟩ := walkpgdirAlloc_none hw
    rw [hd] at hm
    exact absurd hf (hm.resolve_left (by simp))
  | some x =>
    rw [hw] at h
    dsimp only at h
    split at h
    · cases h
    · rw [if_pos rfl] at h
      cases h
      rfl

theorem pgroundup_lt {sz : Nat} (h : sz + PGSIZE < KERNBASE) : pgroundup sz < UINT := by
  simp only [pgroundup, PGSIZE, KERNBASE, UINT] at *
  omega

/-- A search by name over all entries. -/
theorem find_name {f : Fin SHM_MAXNUM → CStr} :
    ((finRange SHM_MAXNUM).find? fun i => f i = n) = none ↔ ∀ i, f i ≠ n := by
  rw [find?_eq_none]
  simp

/-- **`shm_allocuvm`** for a new size that is above the old one, when no allocation fails: it
returns the entry of the segment, which it found or filled. -/
theorem shmAllocuvm_spec {newsz : Nat} {ret : Int} (hname : name ≠ [])
    (hnew : newsz = (v.proc p).sz + PGSIZE) (hsz : newsz < KERNBASE)
    (hpages : v.shmPages p name ≤ v.mem.freelist.length)
    (hslot : (∀ i, (v.shm i).name ≠ name) → ∃ i, (v.shm i).name = [])
    (h : v.shmAllocuvm p (v.proc p).sz newsz name = .ok (ret, v')) :
    ∃ i pg, ret = (i.val : Int) ∧ (∀ q j, v'.nameOf q j = v.nameOf q j) ∧
      (∀ q, (v'.proc q).sz = (v.proc q).sz) ∧ (∀ j, j ≠ i → v'.shm j = v.shm j) ∧
      ((v.shm i).name = name ∧ (v.shm i).pageAddr = some pg ∧
          v'.shm i = { v.shm i with refCount := (v.shm i).refCount + 1 } ∨
        (v.shm i).name = [] ∧ (∀ j, (v.shm j).name ≠ name) ∧
          ∃ n, copyName [] name = .ok n ∧ v'.shm i = ⟨some pg, n, (v.shm i).refCount + 1⟩) := by
  have hup : pgroundup (v.proc p).sz < UINT := pgroundup_lt (by omega)
  unfold shmAllocuvm at h
  rw [if_neg hname, if_neg (by omega), if_neg (by omega)] at h
  obtain ⟨d, hd, h⟩ := of_bind h
  have hpd : (v.proc p).pgdir = some d := by
    unfold pgdirOf at hd
    split at hd
    · cases hd
    · cases hd; assumption
  simp only [shmPages, hpd, Option.elim_some] at hpages
  dsimp only at h
  split at h
  · next i hi =>
    have hin : (v.shm i).name = name := by simpa using find?_some hi
    rw [if_pos ⟨i, hin⟩] at hpages
    split at h
    · cases h
    next pg hpg =>
    obtain ⟨⟨r, m, d'⟩, hmap, h⟩ := of_bind h
    have hr : r = true := by
      refine mappages_true (pgroundup_mod _) ?_ hmap
      rw [Nat.mod_eq_of_lt hup]
      by_cases ht : (d.pde (pdx (pgroundup (v.proc p).sz / PGSIZE))).isSome = true
      · exact .inl ht
      rw [if_neg ht] at hpages
      refine .inr fun he => ?_
      have he' : v.mem.freelist = [] := he
      simp [he'] at hpages
    subst hr
    cases h
    refine ⟨i, pg, rfl, fun q j => ?_, fun q => ?_, fun j hj => ?_, .inl ⟨hin, ?_, ?_⟩⟩
    · by_cases e : q = p
      · subst e; simp [nameOf]
      · simp [nameOf, e]
    · by_cases e : q = p
      · subst e; simp
      · simp [e]
    · simp [hj]
    · simpa using hpg
    · simp
  · next hno =>
    have hno' := find_name.mp hno
    rw [if_neg (by simpa using hno')] at hpages
    split at h
    · next hk =>
      -- excluded: the free list is not empty
      unfold kalloc at hk
      split at hk
      · next hf => simp [hf] at hpages
      · cases hk
    · next mem m₁ hk =>
      have hm₁ : v.mem.freelist.length = m₁.freelist.length + 1 := by
        unfold kalloc at hk
        split at hk
        · cases hk
        · next hf => cases hk; simp [hf]
      obtain ⟨⟨r, m, d'⟩, hmap, h⟩ := of_bind h
      have hr : r = true := by
        refine mappages_true (pgroundup_mod _) ?_ hmap
        rw [Nat.mod_eq_of_lt hup]
        by_cases ht : (d.pde (pdx (pgroundup (v.proc p).sz / PGSIZE))).isSome = true
        · exact .inl ht
        · rw [if_neg ht] at hpages
          exact .inr fun he => by simp [he] at hm₁; omega
      subst hr
      dsimp only at h
      rw [if_pos rfl] at h
      split at h
      · next hfull =>
        obtain ⟨i, hi⟩ := hslot hno'
        exact absurd hi (find_name.mp hfull i)
      next i hi =>
      have hb := find?_some hi
      have hin : (v.shm i).name = [] := of_decide_eq_true hb
      obtain ⟨n, hn, h⟩ := of_bind h
      cases h
      refine ⟨i, mem, rfl, fun q j => ?_, fun q => ?_, fun j hj => ?_, .inr ⟨hin, hno', n, ?_, ?_⟩⟩
      · by_cases e : q = p
        · subst e; simp [nameOf]
        · simp [nameOf, e]
      · by_cases e : q = p
        · subst e; simp
        · simp [e]
      · simp [hj]
      · rw [← hn]; simp [hin]
      · simp

theorem copyName_nil {src : CStr} (h : copyName [] src = .ok n) : n = src := by
  unfold copyName at h
  split at h <;> cases h
  simp

theorem renames_updShms (v : Vm) (p : Slot) (i : Fin SHM_MAXNUM) (f : ShmProcInfo → ShmProcInfo) :
    Renames p i (f ((v.proc p).shms i)).name v (v.updShms p i f) := by
  intro q j
  by_cases eq : q = p
  · subst eq
    by_cases ej : j = i
    · subst ej; simp [nameOf, updShms]
    · simp [nameOf, updShms, ej]
  · simp [nameOf, updShms, eq]

theorem shmIndex_coe (i : Fin SHM_MAXNUM) : shmIndex (i.val : Int) = .ok i := by
  have h : (0 : Int) ≤ (i.val : Int) ∧ (i.val : Int) < SHM_MAXNUM := by omega
  simp [shmIndex, h]

/-- Names and entries after a further change that keeps the tables. -/
theorem Renames.tables (h : Renames p i n v v₁) (ht : SameTables v₁ v') :
    Renames p i n v v' := fun q j => (ht.name q j).trans (h q j)

/-- **`shm_get`.** -/
theorem shmInv_get {r : Nat} (h : ShmInv L v) (hp : L p = true) (hok : v.GetOk p name)
    (hs : v.shmGet p name = .ok (r, v')) : ShmInv L v' := by
  unfold shmGet at hs
  split at hs
  · cases hs; exact h
  next hno =>
  have hnot : ∀ j, v.nameOf p j ≠ name := find_name.mp hno
  obtain ⟨hsz, hpages, hslot⟩ := hok hnot
  have hmod : ((v.proc p).sz + PGSIZE) % UINT = (v.proc p).sz + PGSIZE :=
    Nat.mod_eq_of_lt (by simp only [KERNBASE, UINT, PGSIZE] at *; omega)
  dsimp only at hs
  rw [hmod] at hs
  obtain ⟨⟨ret, v₁⟩, hall, hs⟩ := of_bind hs
  by_cases hname : name = []
  · -- every entry of `p` is taken
    subst hname
    simp only [shmAllocuvm, if_true, Res.pure_eq_ok] at hall
    cases hall
    cases hs
    exact h
  · obtain ⟨i, pg, rfl, hn₁, -, hj, hi⟩ :=
      shmAllocuvm_spec hname rfl hsz hpages hslot hall
    dsimp only at hs
    rw [if_neg (by omega)] at hs
    rw [shmIndex_coe, Res.ok_bind] at hs
    obtain ⟨n, hn, hs⟩ := of_bind hs
    cases hs
    -- `p` does not have the segment yet
    have hold : v.nameOf p i = [] := by
      by_contra hne
      have hsame := h.same p i hne
      rcases hi with ⟨hin, -⟩ | ⟨hin, -⟩
      · exact hnot i (hsame.trans hin)
      · exact hne (hsame.trans hin)
    have hnn : n = name := by
      rw [show ((v₁.proc p).shms i).name = [] from (hn₁ p i).trans hold] at hn
      exact copyName_nil hn
    subst hnn
    refine .attach (n := n) pg h hp hold hname (fun q j => ?_) (fun j hji => ?_) ?_ ?_
    · have hr := (renames_updShms v₁ p i fun _ => ⟨n, (v.proc p).sz⟩).tables
        (sameRecords_upd (p := p) (f := fun e => { e with sz := (v.proc p).sz + PGSIZE }) rfl
          (v₁.updShms p i fun _ => ⟨n, (v.proc p).sz⟩).mem).tables
      rw [← hn₁ q j]
      exact hr q j
    · simpa [updShms] using hj j hji
    · simp only [updShms, upd_shm]
      rcases hi with ⟨hin, hpg, hi⟩ | ⟨-, -, n', hn', hi⟩
      · rw [hi]
        dsimp only
        rw [hin, hpg]
      · rw [hi, copyName_nil hn']
    · rcases hi with ⟨hin, -⟩ | ⟨hin, hall', -⟩
      · exact .inl hin
      · exact .inr ⟨hin, hall'⟩

/-! ### `shm_rem` and `exit` -/

theorem detach_tables (v : Vm) (p : Slot) (i : Fin SHM_MAXNUM) :
    Renames p i [] v (v.detach p i) ∧ (∀ j, j ≠ i → (v.detach p i).shm j = v.shm j) ∧
      (v.detach p i).shm i = { v.shm i with refCount := (v.shm i).refCount - 1 } := by
  refine ⟨fun q j => ?_, fun j hj => ?_, ?_⟩
  · have hr := renames_updShms v p i (fun e => { e with name := [] }) q j
    rw [← hr]
    by_cases e : q = p
    · subst e; simp [nameOf, detach, updShms]
    · simp [nameOf, detach, updShms, e]
  · simp [detach, updShms, hj]
  · simp [detach, updShms]

theorem release_tables (h : v.shmRelease p i = .ok v') :
    (∀ q j, v'.nameOf q j = v.nameOf q j) ∧ (∀ j, j ≠ i → v'.shm j = v.shm j) ∧
      v'.shm i = { v.shm i with pageAddr := none, name := [] } := by
  have hrel : ∃ v₁, SameTables v v₁ ∧
      v' = v₁.updShm i fun e => { e with pageAddr := none, name := [] } := by
    obtain ⟨d, -, h⟩ := of_bind h
    dsimp only at h
    split at h
    · cases h
    · cases h; exact ⟨v, .refl v, rfl⟩
    split at h
    · cases h
    · obtain ⟨m, -, h⟩ := of_bind h
      cases h
      exact ⟨_, (sameRecords_upd rfl m).tables, rfl⟩
  obtain ⟨v₁, ht, rfl⟩ := hrel
  refine ⟨fun q j => ?_, fun j hj => ?_, ?_⟩
  · rw [← ht.name q j]; rfl
  · rw [updShm_shm, if_neg hj, ht.shm]
  · rw [updShm_shm, if_pos rfl, ht.shm]

/-- **`shm_rem`**: the first entry of `p` with this name is given up. -/
theorem shmInv_rem (h : ShmInv L v) (hp : L p = true) (hname : name ≠ [])
    (hs : v.shmRem p name = .ok (r, v')) : ShmInv L v' ∧ ((∀ i, v.nameOf p i ≠ name) ∧ v' = v ∨
      ∃ i, v.nameOf p i = name ∧ Renames p i [] v v') := by
  unfold shmRem at hs
  split at hs
  · next hno => cases hs; exact ⟨h, .inl ⟨find_name.mp hno, rfl⟩⟩
  next i hi =>
  have hb := find?_some hi
  have hin : v.nameOf p i = name := of_decide_eq_true hb
  obtain ⟨hr, hj, hself⟩ := detach_tables v p i
  dsimp only at hs
  rw [hself] at hs
  -- `v₁` is the state before the recorded address is cleared
  have h₂ : ∃ v₁, v' = v₁.updShms p i (fun e => { e with shmAddr := 0 }) ∧
      Renames p i [] v v₁ ∧ (∀ j, j ≠ i → v₁.shm j = v.shm j) ∧
      v₁.shm i = if (v.shm i).refCount - 1 = 0 then ⟨none, [], 0⟩
        else { v.shm i with refCount := (v.shm i).refCount - 1 } := by
    dsimp only at hs
    split at hs
    · next hz =>
      obtain ⟨v₁, h₁, hs⟩ := of_bind hs
      cases hs
      obtain ⟨hn, hj₁, hi₁⟩ := release_tables h₁
      refine ⟨v₁, rfl, fun q j => (hn q j).trans (hr q j),
        fun j hji => (hj₁ j hji).trans (hj j hji), ?_⟩
      rw [hi₁, hself, if_pos hz, hz]
    · next hz => cases hs; exact ⟨_, rfl, hr, hj, by rw [hself, if_neg hz]⟩
  obtain ⟨v₁, rfl, hr₁, hj₁, hi₁⟩ := h₂
  have hr₂ : Renames p i [] v (v₁.updShms p i fun e => { e with shmAddr := 0 }) := by
    intro q j
    have hx := renames_updShms v₁ p i (fun e => { e with shmAddr := 0 }) q j
    rw [hx]
    split
    · exact hr₁.self
    · next e => exact hr₁.ne e
  exact ⟨h.detach hp (hin ▸ hname) hr₂ hj₁ hi₁, .inr ⟨i, hin, hr₂⟩⟩

/-- The loop of `exit`: every entry of `p` it passes is empty afterwards. -/
theorem shmInv_exitShm (hp : L p = true) : ∀ (js : List (Fin SHM_MAXNUM)) {v : Vm},
    ShmInv L v → exitShm p js v = .ok v' →
    ShmInv L v' ∧ ∀ j, (j ∈ js ∨ v.nameOf p j = []) → v'.nameOf p j = []
  | [], v, h, hs => by
    cases hs
    exact ⟨h, fun j hj => hj.elim (fun hm => absurd hm not_mem_nil) id⟩
  | i :: js, v, h, hs => by
    rw [exitShm] at hs
    split at hs
    · next hi =>
      obtain ⟨h', hn⟩ := shmInv_exitShm hp js h hs
      refine ⟨h', fun j hj => hn j ?_⟩
      rcases hj with hj | hj
      · rcases mem_cons.mp hj with rfl | hj
        · exact .inr hi
        · exact .inl hj
      · exact .inr hj
    · next hi =>
      obtain ⟨⟨r, v₁⟩, hrem, hs⟩ := of_bind hs
      obtain ⟨h₁, hcase⟩ := shmInv_rem h hp hi hrem
      obtain ⟨h', hn⟩ := shmInv_exitShm hp js h₁ hs
      rcases hcase with ⟨hno, -⟩ | ⟨i', hi', hr⟩
      · exact absurd rfl (hno i)
      -- the names of `p` are distinct, so the entry found is `i`
      obtain rfl : i' = i := by
        have hne : v.nameOf p i' ≠ [] := hi' ▸ hi
        have e₁ := h.same p i' hne
        have e₂ := h.same p i hi
        exact h.distinct i' i (e₁ ▸ hne) (e₁.symm.trans (hi'.trans e₂))
      refine ⟨h', fun j hj => hn j ?_⟩
      by_cases e : j = i'
      · subst e; exact .inr hr.self
      rw [hr.ne fun hq => e hq.2]
      rcases hj with hj | hj
      · exact .inl ((mem_cons.mp hj).resolve_left e)
      · exact .inr hj

/-! ### `fork2` -/

/-- The loop of `fork2`: the child gets the segments of the parent. -/
theorem shmInv_forkShm (hp : L np = true) (hne : p ≠ np) :
    ∀ (js : List (Fin SHM_MAXNUM)) (addr : Nat) {v : Vm}, js.Nodup → ShmInv L v →
      (∀ j ∈ js, v.nameOf np j = []) → ShmInv L (forkShm p np js addr v)
  | [], _, _, _, h, _ => h
  | j :: js, addr, v, hnd, h, hempty => by
    obtain ⟨hj, hnd⟩ := nodup_cons.mp hnd
    rw [forkShm]
    split
    · exact shmInv_forkShm hp hne js addr hnd h fun i hi => hempty i (mem_cons_of_mem _ hi)
    next hn =>
    dsimp only
    have hsame := h.same p j hn
    have hused : (v.shm j).name ≠ [] := hsame ▸ hn
    obtain ⟨pg, hpg⟩ := Option.ne_none_iff_exists'.mp fun hpg => hused ((h.paged j).mpr hpg)
    have hr := renames_updShms
      (v.updShm j fun e => { e with refCount := e.refCount + 1 }) np j fun _ =>
        ⟨((v.proc p).shms j).name, toUint ((addr : Int) - PGSIZE)⟩
    refine shmInv_forkShm hp hne js _ hnd ?_ fun i hi => ?_
    · refine .attach pg h hp (hempty j mem_cons_self) hn hr (fun i hi => ?_) ?_ (.inl hsame.symm)
      · simp [updShms, hi]
      · simp only [updShms, upd_shm, updShm_shm, if_true]
        rw [hpg, ← hsame]
        rfl
    · have hij : ¬ (np = np ∧ i = j) := by rintro ⟨-, rfl⟩; exact hj hi
      exact (hr.ne hij).trans (hempty i (mem_cons_of_mem _ hi))

theorem shmInv_inherit (h : ShmInv L v) (hp : L np = true) (hne : p ≠ np)
    (hempty : ∀ j, v.nameOf np j = []) : ShmInv L (v.inherit p np) := by
  have ht : SameTables v (v.upd np fun e => { e with sz := (v.proc p).sz }) :=
    (sameRecords_upd (p := np) (f := fun e => { e with sz := (v.proc p).sz }) rfl v.mem).tables
  refine shmInv_forkShm hp hne _ _ ?_ (h.tables ht) fun j _ => (ht.name np j).trans (hempty j)
  exact nodup_reverse.mpr (nodup_finRange _)

/-! ### Calls that leave the tables -/

theorem growproc_records {n : Int} (h : v.growproc p n = .ok (r, v')) : SameRecords v v' := by
  obtain ⟨d, -, h⟩ := of_bind h
  obtain ⟨⟨sz, m, d'⟩, -, h⟩ := of_bind h
  dsimp only at h
  split at h <;> cases h
  · exact sameRecords_upd rfl m
  · exact (sameRecords_upd (p := p) (f := fun e => { e with pgdir := some d' }) rfl m).trans
      (sameRecords_upd (p := p) (f := fun e => { e with sz := sz }) rfl m)

theorem sameRecords_mem (v : Vm) (m : Kmem) : SameRecords v { v with mem := m } :=
  ⟨rfl, fun _ => rfl⟩

theorem exec_records {file : Option (List UInt8)} {argv : List CStr}
    (h : v.exec p file argv = .ok (r, v')) : SameRecords v v' := by
  unfold exec at h
  split at h
  · cases h; exact .refl v
  split at h
  · cases h; exact .refl v
  split at h
  · cases h; exact .refl v
  obtain ⟨⟨o, m⟩, -, h⟩ := of_bind h
  cases o with
  | none => cases h; exact sameRecords_mem v m
  | some d =>
    obtain ⟨⟨sz, m₁, d₁⟩, -, h⟩ := of_bind h
    cases sz with
    | none =>
      obtain ⟨m₂, -, h⟩ := of_bind h
      cases h; exact sameRecords_mem v m₂
    | some sz =>
      obtain ⟨old, -, h⟩ := of_bind h
      obtain ⟨m₂, -, h⟩ := of_bind h
      cases h; exact sameRecords_upd rfl m₂

theorem allocKstack_records (h : v.allocKstack np = (b, v')) : SameRecords v v' := by
  unfold allocKstack at h
  split at h <;> cases h
  · exact sameRecords_upd (p := np) (f := fun e => { e with kstack := none }) rfl v.mem
  · exact sameRecords_upd rfl _

theorem copyMem_records (h : v.copyMem p np = .ok (b, v')) : SameRecords v v' := by
  obtain ⟨d, -, h⟩ := of_bind h
  obtain ⟨⟨o, m⟩, -, h⟩ := of_bind h
  cases o <;> cases h <;> exact sameRecords_upd rfl m

theorem freeKstack_records (h : v.freeKstack np = .ok v') : SameRecords v v' := by
  unfold freeKstack at h
  split at h
  · cases h
  · obtain ⟨m, -, h⟩ := of_bind h
    cases h; exact sameRecords_upd rfl m

theorem reap_records (h : v.reap q = .ok v') : SameRecords v v' := by
  obtain ⟨v₁, h₁, h⟩ := of_bind h
  refine (freeKstack_records h₁).trans ?_
  split at h
  · cases h
  · obtain ⟨m, -, h⟩ := of_bind h
    cases h; exact sameRecords_mem v₁ m

theorem initMem_records (h : v.initMem p = .ok v') : SameRecords v v' := by
  obtain ⟨⟨o, m⟩, -, h⟩ := of_bind h
  cases o with
  | none => cases h
  | some d =>
    dsimp only at h
    split at h
    · cases h
    · obtain ⟨⟨r, m₁, d₁⟩, -, h⟩ := of_bind h
      cases h; exact sameRecords_upd rfl m₁

end Vm

namespace Kernel

open Lib
variable {k k₁ k' : Kernel} {p q : Slot} {op : Op} {cid : Int}

/-! ### Steps and runs -/

/-- The live processes. -/
def live (s : Sched) (q : Slot) : Bool := (s.proc q).Live

theorem live_keep {s s' : Sched} (h : Keep s s') (q : Slot) : live s' q = live s q := by
  simp only [live, (h.entry q).live]

/-- The condition on a step: `shm_get` gets the pages and the entry it needs and stays below
`KERNBASE`, and `shm_rem` is called with a name. -/
def ShmOk (k : Kernel) : Op → Prop
  | .shmGet p name => k.vm.GetOk p name
  | .shmRem _ name => name ≠ []
  | _ => True

section

variable (h : ShmInv (live k.sched) k.vm)

include h

theorem shmInv_keep (hs : Keep k.sched k'.sched)
    (ht : SameTables k.vm k'.vm) : ShmInv (live k'.sched) k'.vm :=
  h.congr ht fun q => .inl (live_keep hs q)

/-- A slot that is not live has no segment. -/
theorem shmInv_slot (hdead : ¬ (k.sched.proc p).Live)
    (hq : ∀ q, q ≠ p → ((k'.sched.proc q).Live ↔ (k.sched.proc q).Live))
    (ht : SameTables k.vm k'.vm) : ShmInv (live k'.sched) k'.vm := by
  refine h.congr ht fun q => ?_
  by_cases e : q = p
  · subst e; exact .inr fun i => h.dead q i (by simpa [live] using hdead)
  · exact .inl (by simp only [live, hq q e])

/-- `allocproc` takes a slot without segments. -/
theorem shmInv_alloc {cur r : Option Slot} (ha : k.allocproc cur cid = .ok (r, k')) :
    ShmInv (live k'.sched) k'.vm ∧ ∀ np ∈ r, (k'.sched.proc np).Live ∧ ¬ (k.sched.proc np).Live ∧
        ∀ j, k'.vm.nameOf np j = [] := by
  rcases allocproc_cases ha with ⟨rfl, rfl⟩ | ⟨i, s, hst, he, hrest⟩
  · exact ⟨h, by simp⟩
  have hdead := not_live_of_unused hst
  have hempty : ∀ j, k.vm.nameOf i j = [] := fun j => h.dead i j (by simpa [live] using hdead)
  rcases hrest with ⟨rfl, hv, -, hs⟩ | ⟨rfl, hv, -, hs⟩
  · refine ⟨shmInv_slot h hdead (fun q hq => ?_) (allocKstack_records hv).tables, by simp⟩
    rw [hs, upd_proc_ne hq, embryo_live he hq]
  have ht := (allocKstack_records hv).tables
  refine ⟨shmInv_slot h hdead (fun q hq => ?_) ht, fun np hnp => ?_⟩
  · rw [hs, upd_proc_ne hq, embryo_live he hq]
  · cases hnp
    refine ⟨?_, hdead, fun j => (ht.name i j).trans (hempty j)⟩
    rw [hs, upd_proc_self]
    exact embryo_live_self he

theorem shmInv_fork2 {r : Int} (hp : k.inUser p)
    (hf : k.fork2 p cid = .ok (r, k')) : ShmInv (live k'.sched) k'.vm := by
  rcases fork2_cases hf with ha | ⟨np, k₁, ha, -, hrest⟩
  · exact (shmInv_alloc h ha).1
  obtain ⟨h₁, hnp⟩ := shmInv_alloc h ha
  obtain ⟨hlive, hdead, hempty⟩ := hnp np rfl
  have hne : p ≠ np := by rintro rfl; exact hdead hp.live
  rcases hrest with ⟨v, hv, hk, hs⟩ | ⟨v, hv, hk, hs⟩
  · -- no child: the slot has no segment and is UNUSED again
    refine h₁.congr ((copyMem_records hv).tables.trans (freeKstack_records hk).tables) fun q => ?_
    by_cases e : q = np
    · subst e; exact .inr hempty
    · exact .inl (by rw [hs]; simp only [live, upd_proc_ne e])
  · have ht := (copyMem_records hv).tables
    have hkeep := child_cases hs
    have hL : ∀ q, live k'.sched q = live k₁.sched q := by
      intro q
      rw [live_keep hkeep]
      by_cases e : q = np
      · subst e; simp only [live, birth_self, hlive]; simp [PEntry.Live]
      · simp only [live, birth_ne e]
    rw [hk]
    refine shmInv_inherit (h₁.congr ht fun q => .inl (hL q)) ?_ hne fun j =>
      (ht.name np j).trans (hempty j)
    rw [hL]
    simp [live, hlive]

theorem shmInv_exit (hp : k.inUser p) (he : k.exit p = .ok k') : ShmInv (live k'.sched) k'.vm := by
  obtain ⟨-, v, s, hv, hr, rfl⟩ := exit_cases he
  have hlp : live k.sched p = true := by simp [live, hp.live]
  obtain ⟨h₁, hempty⟩ := shmInv_exitShm hlp _ h hv
  have hkeep := exit_keep v hr
  have hvm := ((calm_vm p).exitLocks (finRange MUX_MAXNUM) { k with vm := v, sched := s }).2
  refine h₁.congr ⟨by rw [hvm], fun q i => by rw [hvm]⟩ fun q => ?_
  by_cases e : q = p
  · subst e; exact .inr fun i => hempty i (.inl (mem_finRange i))
  · refine .inl ?_
    simp only [live, upd_proc_ne e, (hkeep.entry q).live]

/-- **One step.** -/
theorem shmInv_step (hs : Step k op k') (hok : ShmOk k op) : ShmInv (live k'.sched) k'.vm := by
  cases step_kind hs with
  | still _ hst => exact shmInv_keep h hst.sched.keep (hst.vm ▸ .refl _)
  | scheduler hsch => exact shmInv_keep h (keep_scheduler hsch) (.refl _)
  | prioSet _ hpr => exact shmInv_keep h (keep_prioSet hpr) (.refl _)
  | growproc _ hg => exact h.tables (growproc_records hg).tables
  | exec _ hx => exact h.tables (exec_records hx).tables
  | shmGet hp hg => exact shmInv_get h (by simp [live, hp.live]) hok hg
  | shmRem hp hr => exact (shmInv_rem h (by simp [live, hp.live]) hok hr).1
  | mutexCreate _ _ => exact h
  | mutexGet _ => exact h
  | @mutexDelete p muxid _ =>
    obtain ⟨hc, hv⟩ := (calm_vm p).mutexDelete k muxid
    exact shmInv_keep h hc.keep (hv ▸ .refl _)
  | allocFirst _ ha => exact (shmInv_alloc h ha).1
  | userinit hp hu =>
    obtain ⟨hc, hv, -⟩ := userinit_cases hp hu
    exact shmInv_keep h hc.keep (initMem_records hv).tables
  | fork2 hp hf => exact shmInv_fork2 h hp hf
  | exit hp he => exact shmInv_exit h hp he
  | @reap _ q _ _ hq hv _ hsch =>
    refine shmInv_slot (p := q) h (fun hl => hl.2 hq) (fun q' hq' => ?_) (reap_records hv).tables
    rw [(hsch.entry q').toKeep.live, upd_proc_ne hq']

end

theorem shmInv_boot (m : Kmem) : ShmInv (live (boot m).sched) (boot m).vm where
  count i := by simp [boot, Vm.boot, Vm.holders, Vm.nameOf, PMem.zero]
  named _ := by simp [boot, Vm.boot]
  paged _ := by simp [boot, Vm.boot]
  same _ _ hq := absurd rfl hq
  distinct _ _ hi := absurd rfl hi
  dead _ _ _ := rfl

/-- **Shared-memory bookkeeping.**  In every run whose calls of `shm_get` find the pages and the
entry they need below `KERNBASE`, and whose calls of `shm_rem` have a name, the tables agree in
every state reached. -/
theorem shmInv_run {m : Kmem} {t : List (Kernel × Op)} (hr : Run Step (boot m) t k)
    (hok : ∀ x ∈ t, ShmOk x.1 x.2) :
    (∀ x ∈ t, ShmInv (live x.1.sched) x.1.vm) ∧ ShmInv (live k.sched) k.vm :=
  hr.inv (I := fun k : Kernel => ShmInv (live k.sched) k.vm)
    (fun k op _ hi hs (hok : ShmOk k op) => shmInv_step hi hs hok) (shmInv_boot m) hok

/-- A segment shared by a fork, and one of the child's own. -/
theorem shmInv_fork : ∃ t k, Run Step (boot smallMem) t k ∧
    ((k.vm.shm 0).refCount = 2 ∧ (k.vm.shm 1).refCount = 1) ∧
    (∀ x ∈ t, ShmInv (live x.1.sched) x.1.vm) ∧ ShmInv (live k.sched) k.vm := by
  let ops : List Op := [.allocFirst, .userinit 0, .scheduler, .shmGet 0 [97], .fork2 0 (-1),
    .scheduler, .shmGet 1 [98]]
  obtain ⟨k, hr, hk⟩ := exists_run step_of_exec? (boot smallMem) ops
    (fun k => (k.vm.shm 0).refCount = 2 ∧ (k.vm.shm 1).refCount = 1) (by decide +kernel)
  have hops : ∀ y ∈ traceFn exec? (boot smallMem) ops, y.2 ∈ ops ∧
      (y.2 = .shmGet 0 [97] → y.1.vm.GetOk 0 [97]) ∧
      (y.2 = .shmGet 1 [98] → y.1.vm.GetOk 1 [98]) := by
    decide +kernel
  refine ⟨_, k, hr, hk, shmInv_run hr fun ⟨y, op⟩ hy => ?_⟩
  obtain ⟨hop, h₀, h₁⟩ := hops _ hy
  obtain rfl | rfl | rfl | rfl | rfl | rfl | rfl : op = .allocFirst ∨ op = .userinit 0 ∨
      op = .scheduler ∨ op = .shmGet 0 [97] ∨ op = .fork2 0 (-1) ∨ op = .scheduler ∨
      op = .shmGet 1 [98] := by simpa [ops] using hop
  case inr.inr.inr.inl => exact h₀ rfl
  case inr.inr.inr.inr.inr.inr => exact h₁ rfl
  all_goals trivial

end Kernel

end Xv6
