import Xv6.Lib.Tally
import Xv6.Kernel.Vm
import Mathlib.Data.Multiset.Filter
import Mathlib.Data.Multiset.UnionInter

/-!
# Kernel — Pages

Where the physical pages are.  `Pgdir.held sh d` is the multiset of the pages an address space
owns: its directory, its page tables, and the pages mapped at user addresses, without those that
`sh` says belong to a shared segment.  Each function of `Vm.lean` moves pages between the free list
and an address space and makes none: what it leaves is at most what it was given.  If there was no
page twice before, it frees no page twice (`Safe`), and there is none twice after.
-/

namespace Xv6

open Lib Function Multiset

/-! ### Outcomes without a double free -/

/-- The result of `r`, if there is one, has `Q`, and `r` frees no page twice. -/
structure Safe {α : Type} (r : Res α) (Q : α → Prop) : Prop where
  post : ∀ a, r = .ok a → Q a
  noFree : ∀ pg, r ≠ .error (.doubleFree pg)

namespace Safe

variable {α β : Type} {r : Res α} {Q Q' : α → Prop} {msg : String}

theorem ok {a : α} (h : Q a) : Safe (.ok a) Q :=
  ⟨fun _ e => Except.ok.inj e ▸ h, fun _ e => by cases e⟩

theorem panic : Safe (.error (.panic msg)) Q :=
  ⟨fun _ e => (by cases e), fun _ e => (by cases e)⟩

theorem fault : Safe (.error (.fault msg)) Q :=
  ⟨fun _ e => (by cases e), fun _ e => (by cases e)⟩

theorem mono (h : Safe r Q) (hq : ∀ a, Q a → Q' a) : Safe r Q' :=
  ⟨fun a e => hq a (h.post a e), h.noFree⟩

theorem bind {f : α → Res β} {P : β → Prop} (h : Safe r Q) (hf : ∀ a, Q a → Safe (f a) P) :
    Safe (r >>= f) P := by
  refine ⟨fun b e => ?_, fun pg e => ?_⟩
  · obtain ⟨a, ha, hb⟩ := of_bind e
    exact (hf a (h.post a ha)).post b hb
  · rcases Res.bind_eq_error.mp e with e | ⟨a, ha, he⟩
    · exact h.noFree pg e
    · exact (hf a (h.post a ha)).noFree pg he

end Safe

/-! ### The pages of an address space -/

/-- The number of page-directory entries of the user half. -/
def USERPDES : Nat := KERNPAGE / NPTENTRIES

/-- The free pages. -/
def Kmem.free (m : Kmem) : Multiset Page := m.freelist

/-- The page of an entry, if it is present. -/
def pteTally (e : Option Pte) : Multiset Page := e.elim 0 fun e => {e.page}

/-- The pages a page table maps. -/
@[irreducible] def Ptab.mapped (t : Ptab) : Multiset Page := ∑ j, pteTally (t.pte j)

/-- The page of a page table. -/
def tabTally (t : Option Ptab) : Multiset Page := t.elim 0 fun t => {t.page}

/-- The pages mapped through entry `i` of a directory, if it is in the user half. -/
def userTally (i : Fin NPDENTRIES) (t : Option Ptab) : Multiset Page :=
  t.elim 0 fun t => if i.val < USERPDES then t.mapped else 0

/-- The page tables of a directory. -/
@[irreducible] def Pgdir.tabs (d : Pgdir) : Multiset Page := ∑ i, tabTally (d.pde i)

/-- The pages mapped at user addresses. -/
@[irreducible] def Pgdir.user (d : Pgdir) : Multiset Page := ∑ i, userTally i (d.pde i)

/-- The free pages, the directory and its tables. -/
def core (m : Kmem) (d : Pgdir) : Multiset Page := m.free + ({d.page} + d.tabs)

/-- The pages of `U` that are not of a segment. -/
def priv (sh : Page → Bool) (U : Multiset Page) : Multiset Page := U.filter fun pg => sh pg = false

/-- The pages an address space owns. -/
def Pgdir.held (sh : Page → Bool) (d : Pgdir) : Multiset Page :=
  {d.page} + d.tabs + priv sh d.user

/-- The free pages and those of one address space. -/
def world (sh : Page → Bool) (m : Kmem) (d : Pgdir) : Multiset Page := m.free + d.held sh

variable {sh : Page → Bool} {m m₁ m' : Kmem} {d d₁ d' : Pgdir} {a : Nat} {pg pa : Page} {t : Ptab}
  {i : Fin NPDENTRIES}

theorem priv_add (sh : Page → Bool) (U V : Multiset Page) :
    priv sh (U + V) = priv sh U + priv sh V := filter_add ..

theorem priv_zero (sh : Page → Bool) : priv sh 0 = 0 := filter_zero _

theorem priv_mono {U V : Multiset Page} (h : U ≤ V) : priv sh U ≤ priv sh V :=
  filter_le_filter _ h

theorem priv_le (sh : Page → Bool) (U : Multiset Page) : priv sh U ≤ U := filter_le ..

theorem priv_shm (h : sh pg = true) : priv sh {pg} = 0 := by
  simp [priv, filter_singleton, h]

theorem priv_not_shm (h : sh pg = false) : priv sh {pg} = {pg} := by
  simp [priv, filter_singleton, h]

/-- A user address is in the user half. -/
theorem pdx_lt (h : a < KERNPAGE) : (pdx a).val < USERPDES := by
  have h₁ : a / NPTENTRIES < USERPDES := by
    rw [Nat.div_lt_iff_lt_mul (by decide)]
    exact h
  have h₂ : (pdx a).val = a / NPTENTRIES := Nat.mod_eq_of_lt (h₁.trans (by decide))
  omega

theorem Kmem.mem_free : pg ∈ m.free ↔ pg ∈ m.freelist := mem_coe

theorem kalloc_free (h : kalloc m = some (pg, m')) : m.free = {pg} + m'.free := by
  unfold kalloc at h
  split at h
  · cases h
  · next r rest hr =>
    cases h
    simp [Kmem.free, hr]

/-- `kfree` of a page that is not free. -/
theorem kfree_safe (h : pg ∉ m.free) : Safe (kfree m pg) fun m' => m'.free = {pg} + m.free := by
  unfold kfree
  split
  · exact .panic
  · rw [if_neg (mt Kmem.mem_free.mpr h)]
    exact .ok (by simp [Kmem.free])

/-- `pg` is mapped present at the user page `a`. -/
def UserMap (d : Pgdir) (a : Nat) (pg : Page) : Prop :=
  a < KERNPAGE ∧ ∃ e, walkpgdir d a = some (some e) ∧ e.page = pg

/-- The page number of entry `j` of page table `i`. -/
def pageAt (i : Fin NPDENTRIES) (j : Fin NPTENTRIES) : Nat := i.val * NPTENTRIES + j.val

theorem pdx_pageAt (i : Fin NPDENTRIES) (j : Fin NPTENTRIES) : pdx (pageAt i j) = i := by
  have hi : i.val < 1024 := i.isLt
  have hj : j.val < 1024 := j.isLt
  apply Fin.ext
  simp only [pdx, pageAt, NPTENTRIES, NPDENTRIES] at *
  omega

theorem ptx_pageAt (i : Fin NPDENTRIES) (j : Fin NPTENTRIES) : ptx (pageAt i j) = j := by
  have hj : j.val < 1024 := j.isLt
  apply Fin.ext
  simp only [ptx, pageAt, NPTENTRIES] at *
  omega

theorem mem_pteTally {e : Option Pte} : pg ∈ pteTally e ↔ ∃ x, e = some x ∧ x.page = pg := by
  cases e with
  | none => simp [pteTally]
  | some x => simp [pteTally, eq_comm]

theorem mem_mapped : pg ∈ t.mapped ↔ ∃ j, pg ∈ pteTally (t.pte j) := by
  unfold Ptab.mapped
  simp [mem_sum]

theorem mem_userTally {o : Option Ptab} :
    pg ∈ userTally i o ↔ i.val < USERPDES ∧ ∃ t, o = some t ∧ pg ∈ t.mapped := by
  cases o with
  | none => simp [userTally]
  | some t =>
    by_cases h : i.val < USERPDES
    · simp [userTally, h]
    · simp [userTally, h]

theorem mem_user : pg ∈ d.user ↔ ∃ i, pg ∈ userTally i (d.pde i) := by
  unfold Pgdir.user
  simp [mem_sum]

/-- A page counted for a table is mapped. -/
theorem userMap_of_mem {j : Fin NPTENTRIES} (hi : i.val < USERPDES) (ht : d.pde i = some t)
    (hj : pg ∈ pteTally (t.pte j)) : UserMap d (pageAt i j) pg := by
  obtain ⟨e, he, hp⟩ := mem_pteTally.mp hj
  refine ⟨?_, e, ?_, hp⟩
  · have hj : j.val < 1024 := j.isLt
    simp only [pageAt, USERPDES, KERNPAGE, KERNBASE, PGSIZE, NPTENTRIES] at *
    omega
  · simp [walkpgdir, pdx_pageAt, ptx_pageAt, ht, he]

/-- A mapped page is counted. -/
theorem UserMap.mem_user (h : UserMap d a pg) : pg ∈ d.user := by
  obtain ⟨ha, e, he, hp⟩ := h
  obtain ⟨t, ht, he⟩ : ∃ t, d.pde (pdx a) = some t ∧ t.pte (ptx a) = some e := by
    simpa [walkpgdir] using he
  refine Xv6.mem_user.mpr ⟨pdx a, mem_userTally.mpr ⟨pdx_lt ha, t, ht, ?_⟩⟩
  exact mem_mapped.mpr ⟨ptx a, mem_pteTally.mpr ⟨e, he, hp⟩⟩

theorem userMap_of_mem_user (h : pg ∈ d.user) : ∃ a, UserMap d a pg := by
  obtain ⟨i, hi⟩ := Xv6.mem_user.mp h
  obtain ⟨hu, t, ht, hm⟩ := mem_userTally.mp hi
  obtain ⟨j, hj⟩ := mem_mapped.mp hm
  exact ⟨_, userMap_of_mem hu ht hj⟩

theorem count_pteTally_le (e : Option Pte) (pg : Page) : (pteTally e).count pg ≤ 1 := by
  cases e with
  | none => simp [pteTally]
  | some x => simpa [pteTally] using nodup_iff_count_le_one.mp (nodup_singleton _) _

/-- A page mapped at one address at most is counted once at most. -/
theorem count_user_le (h : ∀ a a', UserMap d a pg → UserMap d a' pg → a = a') :
    d.user.count pg ≤ 1 := by
  unfold Pgdir.user
  refine count_tally_le_one (fun i => ?_) fun i i' hi hi' => ?_
  · cases ht : d.pde i with
    | none => simp [userTally]
    | some t =>
      by_cases hu : i.val < USERPDES
      · simp only [userTally, Option.elim_some, hu, if_true]
        unfold Ptab.mapped
        refine count_tally_le_one (fun j => count_pteTally_le _ _) fun j j' hj hj' => ?_
        have e := h _ _ (userMap_of_mem hu ht hj) (userMap_of_mem hu ht hj')
        rw [← ptx_pageAt i j, ← ptx_pageAt i j', e]
      · simp [userTally, hu]
  · obtain ⟨hu, t, ht, hm⟩ := mem_userTally.mp hi
    obtain ⟨hu', t', ht', hm'⟩ := mem_userTally.mp hi'
    obtain ⟨j, hj⟩ := mem_mapped.mp hm
    obtain ⟨j', hj'⟩ := mem_mapped.mp hm'
    have e := h _ _ (userMap_of_mem hu ht hj) (userMap_of_mem hu' ht' hj')
    rw [← pdx_pageAt i j, ← pdx_pageAt i' j', e]

/-! ### Changing one entry -/

/-- A page-directory entry is replaced. -/
theorem tabs_update (d : Pgdir) (i : Fin NPDENTRIES) (t : Option Ptab) :
    Pgdir.tabs { d with pde := update d.pde i t } + tabTally (d.pde i) = d.tabs + tabTally t := by
  unfold Pgdir.tabs
  exact tally_update (fun _ => tabTally) d.pde i t

theorem user_update (d : Pgdir) (i : Fin NPDENTRIES) (t : Option Ptab) :
    Pgdir.user { d with pde := update d.pde i t } + userTally i (d.pde i) =
      d.user + userTally i t := by
  unfold Pgdir.user
  exact tally_update userTally d.pde i t

/-- A new page table maps nothing. -/
theorem mapped_empty (pg : Page) : Ptab.mapped ⟨pg, fun _ => none⟩ = 0 := by
  unfold Ptab.mapped
  exact Finset.sum_eq_zero fun _ _ => rfl

theorem userTally_empty (i : Fin NPDENTRIES) (pg : Page) :
    userTally i (some ⟨pg, fun _ => none⟩) = 0 := by
  simp [userTally, mapped_empty]

/-- A page taken from the free list becomes a page table that maps no user page. -/
theorem addTab (hk : kalloc m = some (t.page, m')) (hd : d.pde i = none)
    (ht : userTally i (some t) = 0) : core m' { d with pde := update d.pde i (some t) } = core m d ∧
    Pgdir.user { d with pde := update d.pde i (some t) } = d.user := by
  have h₁ := tabs_update d i (some t)
  have h₂ := user_update d i (some t)
  rw [hd, ht] at h₂
  rw [hd] at h₁
  simp only [tabTally, userTally, Option.elim_none, Option.elim_some, add_zero] at h₁ h₂
  refine ⟨?_, h₂⟩
  simp only [core, kalloc_free hk, h₁]
  abel

/-- **A page-table entry is written.**  The tables stay, and the entry that is overwritten stands
on the left. -/
theorem setPte_tally (hd : d.pde (pdx a) = some t) (v : Option Pte) :
    (setPte d a v).page = d.page ∧ (setPte d a v).tabs = d.tabs ∧ (if (pdx a).val < USERPDES
      then (setPte d a v).user + pteTally (t.pte (ptx a)) = d.user + pteTally v
      else (setPte d a v).user = d.user) := by
  let t' : Ptab := { t with pte := update t.pte (ptx a) v }
  have hset : setPte d a v = { d with pde := update d.pde (pdx a) (some t') } := by
    simp only [setPte, hd, t']
  have h₁ := tabs_update d (pdx a) (some t')
  have h₂ := user_update d (pdx a) (some t')
  rw [← hset, hd] at h₁ h₂
  refine ⟨by rw [hset], add_right_cancel h₁, ?_⟩
  have hm : t'.mapped + pteTally (t.pte (ptx a)) = t.mapped + pteTally v := by
    unfold Ptab.mapped
    exact tally_update (fun _ => pteTally) t.pte (ptx a) v
  split
  · next hu =>
    simp only [userTally, Option.elim_some, hu, if_true] at h₂
    -- cancel the entries of the table that stay
    have h₃ : (setPte d a v).user + pteTally (t.pte (ptx a)) + (t.mapped + t'.mapped) =
        d.user + pteTally v + (t.mapped + t'.mapped) := by
      calc _ = ((setPte d a v).user + t.mapped) + (t'.mapped + pteTally (t.pte (ptx a))) := by abel
        _ = (d.user + t'.mapped) + (t.mapped + pteTally v) := by rw [h₂, hm]
        _ = _ := by abel
    exact add_right_cancel h₃
  · next hu =>
    simp only [userTally, Option.elim_some, hu, if_false, add_zero] at h₂
    exact h₂

theorem world_eq (sh : Page → Bool) (m : Kmem) (d : Pgdir) :
    world sh m d = core m d + priv sh d.user := by
  simp only [world, Pgdir.held, core]
  abel

/-! ### Mapping -/

theorem walkpgdirAlloc_spec (h : walkpgdirAlloc m d a = some (m', d')) :
    core m' d' = core m d ∧ d'.user = d.user ∧ ∃ t, d'.pde (pdx a) = some t := by
  unfold walkpgdirAlloc at h
  split at h
  · next t ht => cases h; exact ⟨rfl, rfl, t, ht⟩
  next ht =>
  split at h
  · cases h
  next pg m₁ hk =>
  cases h
  obtain ⟨h₁, h₂⟩ := addTab (t := ⟨pg, fun _ => none⟩) hk ht (userTally_empty _ _)
  exact ⟨h₁, h₂, _, update_self ..⟩

theorem walkpgdirAlloc_none (h : walkpgdirAlloc m d a = none) :
    d.pde (pdx a) = none ∧ m.freelist = [] := by
  unfold walkpgdirAlloc kalloc at h
  split at h
  · cases h
  next hd =>
  cases hf : m.freelist with
  | nil => exact ⟨hd, rfl⟩
  | cons r rest => simp [hf] at h

/-- **`mappages` of one page.**  It maps the page, or leaves everything as it was. -/
theorem mappages_spec {va : Nat} {perm : Perm} (hva : va % PGSIZE = 0) :
    Safe (mappages m d va PGSIZE pa perm) fun x =>
      (x = (false, m, d)) ∨
      (x.1 = true ∧ core x.2.1 x.2.2 = core m d ∧ x.2.2.user ≤ d.user + {pa} ∧
        (va < KERNBASE → x.2.2.user = d.user + {pa})) := by
  have hlast : va % UINT / PGSIZE = (va + PGSIZE - 1) % UINT / PGSIZE := by
    simp only [UINT, PGSIZE] at *
    omega
  unfold mappages
  rw [← hlast, show NPAGES = 1048575 + 1 from rfl, mapLoop]
  generalize hb : va % UINT / PGSIZE = b
  cases hw : walkpgdirAlloc m d b with
  | none => exact .ok (.inl rfl)
  | some x =>
    obtain ⟨m₁, d₁⟩ := x
    obtain ⟨hc, hu, t, ht⟩ := walkpgdirAlloc_spec hw
    have hwalk : walkpgdir d₁ b = some (t.pte (ptx b)) := by simp [walkpgdir, ht]
    simp only [hwalk]
    cases hp : t.pte (ptx b) with
    | some e => exact .panic
    | none =>
      simp only [if_true]
      obtain ⟨h₁, h₂, h₃⟩ := setPte_tally ht (some ⟨pa, perm⟩)
      have huser : va < KERNBASE → (setPte d₁ b (some ⟨pa, perm⟩)).user = d.user + {pa} := by
        intro hlt
        have hk : b < KERNPAGE := by
          simp only [KERNBASE, UINT, PGSIZE, KERNPAGE] at *
          omega
        rw [if_pos (pdx_lt hk), hp, hu] at h₃
        simpa [pteTally] using h₃
      refine .ok (.inr ⟨rfl, ?_, ?_, huser⟩)
      · simp only [core, h₁, h₂] at hc ⊢
        exact hc
      · split at h₃
        · rw [hp, hu] at h₃
          exact le_of_eq (by simpa [pteTally] using h₃)
        · rw [h₃, hu]
          exact le_add_right _ _

/-- The pages after one page has been mapped. -/
theorem world_map (hc : core m' d' = core m d) (hu : d'.user ≤ d.user + {pa}) :
    world sh m' d' ≤ {pa} + world sh m d := by
  have hf : priv sh d'.user ≤ {pa} + priv sh d.user := by
    refine (priv_mono hu).trans ?_
    rw [priv_add, add_comm]
    exact add_le_add (priv_le sh _) le_rfl
  rw [world_eq, world_eq, hc, add_left_comm]
  exact add_le_add le_rfl hf

/-- The page of a segment is not counted when it is mapped. -/
theorem world_map_shm (hpa : sh pa = true) (hc : core m' d' = core m d)
    (hu : d'.user ≤ d.user + {pa}) : world sh m' d' ≤ world sh m d := by
  have hf : priv sh d'.user ≤ priv sh d.user :=
    (priv_mono hu).trans (by rw [priv_add, priv_shm hpa, add_zero])
  rw [world_eq, world_eq, hc]
  exact add_le_add le_rfl hf

end Xv6
