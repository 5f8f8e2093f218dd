import Xv6.Kernel.Pages
import Xv6.Kernel.Exec

/-!
# Kernel — VmSafe

The specifications of the functions of `vm.c` and `exec.c` that work on one address space.  Each is
given a free list and an address space whose pages are distinct, frees no page twice, and leaves at
most the pages it was given: a page may be lost, never made.

* `deallocuvm_safe`, `freevm_safe`: the pages go back to the free list.
* `setupkvm_safe`, `allocuvm_safe`, `copyuvm_safe`: the pages come from it.
* `loadImage_safe`: the new address space of `exec`.
-/

namespace Xv6

open Lib List

variable {sh : Page → Bool} {m m' : Kmem} {d d' src : Pgdir}
  {a sz oldsz newsz size addr offset : Nat} {e : Pte} {shmAt : Nat → Option (Option Page)}
  {file : List UInt8} {argv : List CStr}

theorem walkpgdir_some {e : Option Pte} (h : walkpgdir d a = some e) :
    ∃ t, d.pde (pdx a) = some t ∧ t.pte (ptx a) = e := by
  simpa [walkpgdir] using h

/-- The free pages are among the pages. -/
theorem free_le_world (sh : Page → Bool) (m : Kmem) (d : Pgdir) : m.free ≤ world sh m d :=
  Multiset.le_add_right _ _

/-- A page given back to the free list was not on it, if it is not among the other pages. -/
theorem kfree_le {pg : Page} {P : Multiset Page} (hP : m.free ≤ P) (hn : ({pg} + P).Nodup) :
    Safe (kfree m pg) fun m' => m'.free = {pg} + m.free := by
  refine kfree_safe fun h => ?_
  have := Multiset.disjoint_left.mp (Multiset.nodup_add.mp hn).2.2 (Multiset.mem_singleton_self pg)
  exact this (Multiset.mem_of_le hP h)

/-! ### Unmapping -/

/-- The entry of a user page is cleared. -/
theorem setPte_none (h : walkpgdir d a = some (some e)) (ha : a < KERNPAGE) :
    core m (setPte d a none) = core m d ∧ (setPte d a none).user + {e.page} = d.user := by
  obtain ⟨t, ht, he⟩ := walkpgdir_some h
  obtain ⟨h₁, h₂, h₃⟩ := setPte_tally ht none
  rw [if_pos (pdx_lt ha), he] at h₃
  refine ⟨by simp only [core, h₁, h₂], ?_⟩
  simpa [pteTally] using h₃

/-- One round of `deallocuvm`: the page is freed unless it is of a segment, and unmapped. -/
theorem unmap_safe (hn : (world sh m d).Nodup) (h : walkpgdir d a = some (some e))
    (ha : a < KERNPAGE) : Safe (kfreeUnshared sh m e.page) fun m' =>
      world sh m' (setPte d a none) = world sh m d := by
  obtain ⟨hc, hu⟩ := setPte_none (m := m) h ha
  have hw : world sh m (setPte d a none) + priv sh {e.page} = world sh m d := by
    rw [world_eq, world_eq, hc, ← hu, priv_add, add_assoc]
  unfold kfreeUnshared
  split
  · next hs =>
    rw [priv_shm hs, add_zero] at hw
    exact .ok hw
  next hs =>
  rw [priv_not_shm (by simpa using hs), add_comm] at hw
  refine (kfree_le (free_le_world sh m _) (hw ▸ hn)).mono fun m' hm => ?_
  rw [← hw, world, world, hm, add_assoc]

theorem deallocLoop_safe {last : Nat} (hl : last ≤ KERNPAGE) (n : Nat) :
    ∀ {m d a}, (world sh m d).Nodup →
      Safe (deallocLoop sh last n m d a) fun x => world sh x.1 x.2 = world sh m d := by
  induction n with
  | zero => exact fun _ => .ok rfl
  | succ n ih =>
    intro m d a hn
    rw [deallocLoop]
    split
    · next ha =>
      split
      · split
        · exact ih hn
        · exact .fault
      · exact ih hn
      next e he =>
      split
      · exact .panic
      · refine (unmap_safe hn he (ha.trans_le hl)).bind fun m' hm => ?_
        exact (ih (hm ▸ hn)).mono fun x hx => hx.trans hm
    · exact .ok rfl

theorem pagesOf_le (h : sz ≤ KERNBASE) : pagesOf sz ≤ KERNPAGE := by
  simp only [pagesOf, KERNPAGE, KERNBASE, PGSIZE] at *
  omega

/-- **`deallocuvm`** below `KERNBASE`. -/
theorem deallocuvm_safe (hn : (world sh m d).Nodup) (ho : oldsz ≤ KERNBASE) :
    Safe (deallocuvm sh m d oldsz newsz) fun x => world sh x.2.1 x.2.2 = world sh m d := by
  unfold deallocuvm
  split
  · exact .ok rfl
  refine (deallocLoop_safe (pagesOf_le ho) _ hn).bind fun x hx => ?_
  dsimp only
  split
  · exact .fault
  · exact .ok hx

/-- The page tables `freevm` frees. -/
theorem freeTabs_safe (d : Pgdir) (is : List (Fin NPDENTRIES)) :
    ∀ {m T}, T = (is.map fun i => tabTally (d.pde i)).sum → (m.free + T).Nodup →
      Safe (freeTabs sh d is m) fun m' => m'.free ≤ m.free + T := by
  induction is with
  | nil => exact fun _ _ => .ok (Multiset.le_add_right _ _)
  | cons i is ih =>
    intro m T hT hn
    rw [map_cons, sum_cons] at hT
    rw [freeTabs]
    cases hd : d.pde i with
    | none =>
      have ht : tabTally none = 0 := rfl
      rw [hd, ht, zero_add] at hT
      exact ih hT hn
    | some t =>
      have ht : tabTally (some t) = {t.page} := rfl
      rw [hd, ht] at hT
      subst hT
      rw [add_left_comm] at hn ⊢
      refine Safe.bind (Q := fun m₁ => m₁.free ≤ {t.page} + m.free) ?_ fun m₁ h₁ => ?_
      · unfold kfreeUnshared
        split
        · exact .ok (Multiset.le_add_left _ _)
        · exact (kfree_le (Multiset.le_add_right _ _) hn).mono fun _ h => h.le
      · rw [← add_assoc] at hn ⊢
        have h₂ := add_le_add h₁ (le_refl (is.map fun i => tabTally (d.pde i)).sum)
        exact (ih rfl (Multiset.nodup_of_le h₂ hn)).mono fun m' hm => hm.trans h₂

theorem tabs_eq (d : Pgdir) :
    d.tabs = ((finRange NPDENTRIES).map fun i => tabTally (d.pde i)).sum := by
  unfold Pgdir.tabs
  exact Fin.sum_univ_def _

/-- **`freevm`.**  What becomes free is at most what the address space had. -/
theorem freevm_safe (hn : (world sh m d).Nodup) :
    Safe (freevm sh m d) fun m' => m'.free ≤ world sh m d := by
  unfold freevm
  refine (deallocuvm_safe hn le_rfl).bind fun x hx => ?_
  obtain ⟨_, m₁, d₁⟩ := x
  have hc : {d₁.page} + (m₁.free + d₁.tabs) ≤ world sh m d := by
    rw [← hx, world_eq, core, add_left_comm]
    exact Multiset.le_add_right _ _
  have hn₁ := Multiset.nodup_of_le hc hn
  refine (freeTabs_safe d₁ _ (tabs_eq d₁) (Multiset.nodup_add.mp hn₁).2.1).bind fun m₂ h₂ => ?_
  refine (kfree_le h₂ hn₁).mono fun m' hm => ?_
  rw [hm]
  exact (add_le_add le_rfl h₂).trans hc

/-! ### New address spaces -/

/-- The pages of an address space that may be missing. -/
def heldOpt (sh : Page → Bool) (d : Option Pgdir) : Multiset Page := d.elim 0 (Pgdir.held sh)

theorem kmapPdes_le {i : Fin NPDENTRIES} (h : i ∈ kmapPdes) : USERPDES ≤ i.val := by
  simp only [kmapPdes, mem_filter, decide_eq_true_eq] at h
  simp only [KERNPAGE, KERNBASE, PGSIZE, NPTENTRIES, PHYSTOP, DEVSPACE, USERPDES] at *
  omega

/-- The kernel half takes page tables and maps no user page. -/
theorem mapKernel_spec (is : List (Fin NPDENTRIES)) :
    ∀ {m d}, is.Nodup → (∀ i ∈ is, USERPDES ≤ i.val) → (∀ i ∈ is, d.pde i = none) →
      core (mapKernel is m d).2.1 (mapKernel is m d).2.2 = core m d ∧
      (mapKernel is m d).2.2.user = d.user := by
  induction is with
  | nil => exact fun _ _ _ => ⟨rfl, rfl⟩
  | cons i is ih =>
    intro m d hi hu hd
    rw [mapKernel]
    split
    · exact ⟨rfl, rfl⟩
    next pg m₁ hk =>
    obtain ⟨hi₁, hi₂⟩ := nodup_cons.mp hi
    let t : Ptab := ⟨pg, fun j => kmapPte (i.val * NPTENTRIES + j.val)⟩
    have ht : userTally i (some t) = 0 := by
      simp [userTally, Nat.not_lt.mpr (hu i (by simp))]
    obtain ⟨h₁, h₂⟩ := addTab (t := t) hk (hd i (by simp)) ht
    rw [← h₁, ← h₂]
    refine ih hi₂ (fun j hj => hu j (by simp [hj])) fun j hj => ?_
    have hji : j ≠ i := fun e => hi₁ (e ▸ hj)
    exact (Function.update_of_ne hji _ _).trans (hd j (by simp [hj]))

theorem world_new (sh : Page → Bool) (m : Kmem) (pg : Page) :
    world sh m ⟨pg, fun _ => none⟩ = {pg} + m.free := by
  have ht : Pgdir.tabs ⟨pg, fun _ => none⟩ = 0 := by
    unfold Pgdir.tabs
    exact Finset.sum_eq_zero fun _ _ => rfl
  have hu : Pgdir.user ⟨pg, fun _ => none⟩ = 0 := by
    unfold Pgdir.user
    exact Finset.sum_eq_zero fun _ _ => rfl
  rw [world, Pgdir.held, ht, hu, priv, Multiset.filter_zero, add_zero, add_zero, add_comm]

/-- **`setupkvm`.** -/
theorem setupkvm_safe (hn : m.free.Nodup) :
    Safe (setupkvm sh m) fun x => x.2.free + heldOpt sh x.1 ≤ m.free := by
  unfold setupkvm
  split
  · exact .ok (by simp [heldOpt])
  next pg m₁ hk =>
  have hs := mapKernel_spec kmapPdes (m := m₁) (d := ⟨pg, fun _ => none⟩)
    ((nodup_finRange _).filter _) (fun _ => kmapPdes_le) (fun _ _ => rfl)
  have hw : world sh (mapKernel kmapPdes m₁ ⟨pg, fun _ => none⟩).2.1
      (mapKernel kmapPdes m₁ ⟨pg, fun _ => none⟩).2.2 = m.free := by
    rw [world_eq, hs.1, hs.2, ← world_eq, world_new, kalloc_free hk]
  split
  · next m₂ d₂ he =>
    rw [he] at hw
    exact .ok (le_of_eq hw)
  next m₂ d₂ he =>
  rw [he] at hw
  refine (freevm_safe (hw ▸ hn)).bind fun m' hm => .ok ?_
  simpa [heldOpt, hw] using hm

/-- A fresh page is mapped, or the space is left alone. -/
theorem mapFresh_safe (sh : Page → Bool) {mem : Page} {perm : Perm} {i : Nat}
    (hk : kalloc m = some (mem, m')) : Safe (mappages m' d (i * PGSIZE) PGSIZE mem perm) fun x =>
      (x = (false, m', d)) ∨ (x.1 = true ∧ world sh x.2.1 x.2.2 ≤ world sh m d) := by
  refine (mappages_spec (Nat.mul_mod_left _ _)).mono fun x hx => hx.imp id ?_
  rintro ⟨hr, hc, hu, -⟩
  refine ⟨hr, (world_map hc hu).trans (le_of_eq ?_)⟩
  rw [world, world, kalloc_free hk, add_assoc]

theorem allocLoop_safe (hb : newsz ≤ KERNBASE) (n : Nat) : ∀ {m d a}, (world sh m d).Nodup →
      Safe (allocLoop sh oldsz newsz n m d a) fun x => world sh x.2.1 x.2.2 ≤ world sh m d := by
  induction n with
  | zero => exact fun _ => .ok le_rfl
  | succ n ih =>
    intro m d a hn
    rw [allocLoop]
    split
    · exact (deallocuvm_safe hn hb).bind fun x hx => .ok hx.le
    next mem m₁ hk =>
    refine (mapFresh_safe sh hk).bind fun x hx => ?_
    rcases hx with rfl | ⟨hr, hw⟩
    · -- the page goes back after `deallocuvm`
      have hm : {mem} + world sh m₁ d = world sh m d := by
        rw [world, world, kalloc_free hk, add_assoc]
      rw [← hm] at hn ⊢
      refine (deallocuvm_safe (Multiset.nodup_add.mp hn).2.1 hb).bind fun y hy => ?_
      rw [← hy] at hn ⊢
      refine (kfree_le (free_le_world sh _ y.2.2) hn).bind fun m₂ h₂ => .ok (le_of_eq ?_)
      rw [world, world, h₂, add_assoc]
    · obtain ⟨r, m₂, d₂⟩ := x
      cases hr
      exact (ih (Multiset.nodup_of_le hw hn)).mono fun y hy => hy.trans hw

/-- **`allocuvm`.** -/
theorem allocuvm_safe (hn : (world sh m d).Nodup) :
    Safe (allocuvm sh m d oldsz newsz) fun x => world sh x.2.1 x.2.2 ≤ world sh m d := by
  unfold allocuvm
  split
  · exact .ok le_rfl
  · split
    · exact .ok le_rfl
    · exact allocLoop_safe (by omega) _ hn

theorem freevm_none (hn : (world sh m d).Nodup) :
    Safe (freevm sh m d >>= fun m => (.ok (none, m) : Res (Option Pgdir × Kmem))) fun x =>
      x.2.free + heldOpt sh x.1 ≤ world sh m d :=
  (freevm_safe hn).bind fun m' hm => .ok (by simpa [heldOpt] using hm)

theorem copyLoop_safe (hs : ∀ i mem, shmAt i = some (some mem) → sh mem = true) (n : Nat) :
    ∀ {m d i}, (world sh m d).Nodup →
      Safe (copyLoop sh src shmAt n m d i) fun x => x.2.free + heldOpt sh x.1 ≤ world sh m d := by
  induction n with
  | zero => exact fun _ => .ok le_rfl
  | succ n ih =>
    intro m d i hn
    rw [copyLoop]
    split
    · exact .panic
    · exact .panic
    next e he =>
    -- whichever page it is, mapping it adds no page to `world`
    have hmap : Safe (copyPage m shmAt i) fun o => ∀ mem m₁, o = some (mem, m₁) →
        Safe (mappages m₁ d (i * PGSIZE) PGSIZE mem e.perm) fun x =>
          world sh x.2.1 x.2.2 ≤ world sh m d := by
      unfold copyPage
      split
      · exact .fault
      · next mem ha =>
        refine .ok fun mem' m₁ ho => ?_
        cases ho
        refine (mappages_spec (Nat.mul_mod_left _ _)).mono fun x hx => ?_
        rcases hx with rfl | ⟨-, hc, hu, -⟩
        · exact le_rfl
        · exact world_map_shm (hs i _ ha) hc hu
      · refine .ok fun mem m₁ hk => ?_
        refine (mapFresh_safe sh hk).mono fun x hx => ?_
        rcases hx with rfl | hx
        · rw [world, world, kalloc_free hk, add_assoc]
          exact Multiset.le_add_left _ _
        · exact hx.2
    refine hmap.bind fun o ho => ?_
    cases o with
    | none => exact freevm_none hn
    | some y =>
      obtain ⟨mem, m₁⟩ := y
      refine (ho mem m₁ rfl).bind fun x hx => ?_
      have hn' := Multiset.nodup_of_le hx hn
      obtain ⟨r, m₂, d₂⟩ := x
      cases r with
      | true => exact (ih hn').mono fun y hy => hy.trans hx
      | false => exact (freevm_none hn').mono fun y hy => hy.trans hx

/-- **`copyuvm`.**  The pages of the child's address space come from the free list, but for those
of segments. -/
theorem copyuvm_safe (hs : ∀ i mem, shmAt i = some (some mem) → sh mem = true) (hn : m.free.Nodup) :
    Safe (copyuvm sh m src sz shmAt) fun x => x.2.free + heldOpt sh x.1 ≤ m.free := by
  refine (setupkvm_safe hn).bind fun x hx => ?_
  obtain ⟨o, m₁⟩ := x
  cases o with
  | none => exact .ok hx
  | some d => exact (copyLoop_safe hs _ (Multiset.nodup_of_le hx hn)).mono fun y hy => hy.trans hx

/-! ### `exec` -/

/-- `clearpteu` changes no page. -/
theorem clearpteu_safe (sh : Page → Bool) (m : Kmem) (d : Pgdir) (a : Nat) :
    Safe (clearpteu d a) fun d' => world sh m d' = world sh m d := by
  unfold clearpteu
  split
  · exact .panic
  · exact .ok rfl
  next e he =>
  obtain ⟨t, ht, hp⟩ := walkpgdir_some he
  let e' : Pte := { e with perm := { e.perm with u := false } }
  obtain ⟨h₁, h₂, h₃⟩ := setPte_tally ht (some e')
  have hu : (setPte d a (some e')).user = d.user := by
    by_cases hu : (pdx a).val < USERPDES
    · rw [if_pos hu, hp] at h₃
      exact add_right_cancel h₃
    · rw [if_neg hu] at h₃
      exact h₃
  refine .ok ?_
  rw [world_eq, world_eq, core, core, h₁, h₂, hu]

theorem uva2ka_safe (a : Nat) : Safe (uva2ka d a) fun _ => True := by
  unfold uva2ka
  split
  · exact .fault
  · exact .ok trivial
  · exact .ok trivial

theorem copyoutLoop_safe (n : Nat) : ∀ {va len}, Safe (copyoutLoop d n va len) fun _ => True := by
  induction n with
  | zero =>
    intro va len
    rw [copyoutLoop]
    split
    · exact .ok trivial
    · exact .fault
  | succ n ih =>
    intro va len
    rw [copyoutLoop]
    split
    · exact .ok trivial
    refine (uva2ka_safe _).bind fun b _ => ?_
    split
    · exact ih
    · exact .ok trivial

theorem loaduvmLoop_safe (n : Nat) :
    ∀ {i}, Safe (loaduvmLoop d size addr offset sz n i) fun _ => True := by
  induction n with
  | zero => exact .ok trivial
  | succ n ih =>
    intro i
    rw [loaduvmLoop]
    split
    · split
      · exact .panic
      · dsimp only
        generalize (if sz - i < PGSIZE then sz - i else PGSIZE) = k
        split
        · exact ih
        · exact .ok trivial
    · exact .ok trivial

theorem loaduvm_safe : Safe (loaduvm d size addr offset sz) fun _ => True := by
  unfold loaduvm
  split
  · exact .panic
  · exact loaduvmLoop_safe _

theorem pushArgs_safe (args : List CStr) :
    ∀ {argc sp}, Safe (pushArgs d args argc sp) fun _ => True := by
  induction args with
  | nil => exact .ok trivial
  | cons arg args ih =>
    intro argc sp
    rw [pushArgs]
    split
    · exact .ok trivial
    refine (copyoutLoop_safe _).bind fun b _ => ?_
    split
    · exact ih
    · exact .ok trivial

/-- The segments `exec` loads. -/
theorem loadLoop_safe (n : Nat) : ∀ {off sz m d}, (world sh m d).Nodup →
      Safe (loadLoop sh file n off sz m d) fun x => world sh x.2.1 x.2.2 ≤ world sh m d := by
  induction n with
  | zero => exact fun _ => .ok le_rfl
  | succ n ih =>
    intro off sz m d hn
    rw [loadLoop]
    split
    · exact .ok le_rfl
    dsimp only
    split
    · exact ih hn
    split
    · exact .ok le_rfl
    split
    · exact .ok le_rfl
    refine (allocuvm_safe hn).bind fun x hx => ?_
    obtain ⟨sz, m₁, d₁⟩ := x
    dsimp only
    split
    · exact .ok hx
    split
    · exact .ok hx
    refine loaduvm_safe.bind fun b _ => ?_
    split
    · exact (ih (Multiset.nodup_of_le hx hn)).mono fun y hy => hy.trans hx
    · exact .ok hx

/-- The stack of `exec`. -/
theorem buildStack_safe (hn : (world sh m d).Nodup) :
    Safe (buildStack sh argv sz m d) fun x => world sh x.2.1 x.2.2 ≤ world sh m d := by
  unfold buildStack
  refine (allocuvm_safe hn).bind fun x hx => ?_
  obtain ⟨sz, m₁, d₁⟩ := x
  dsimp only
  split
  · exact .ok hx
  refine (clearpteu_safe sh m₁ d₁ _).bind fun d₂ h₂ => ?_
  have hx' := h₂.trans_le hx
  refine (pushArgs_safe argv).bind fun o _ => ?_
  cases o with
  | none => exact .ok hx'
  | some sp =>
    refine (copyoutLoop_safe _).bind fun b _ => ?_
    split
    · exact .ok hx'
    · exact .ok hx'

theorem loadImage_safe (hn : (world sh m d).Nodup) :
    Safe (loadImage sh file argv m d) fun x => world sh x.2.1 x.2.2 ≤ world sh m d := by
  unfold loadImage
  refine (loadLoop_safe _ hn).bind fun x hx => ?_
  obtain ⟨o, m₁, d₁⟩ := x
  cases o with
  | none => exact .ok hx
  | some sz => exact (buildStack_safe (Multiset.nodup_of_le hx hn)).mono fun y hy => hy.trans hx

end Xv6
