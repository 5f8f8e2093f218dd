import Xv6.Kernel.MemSafe

/-!
# Kernel — SegSafe

The calls on shared segments, and those of `fork2` and `wait` on memory.  `shm_get` moves a free
page to `shm_infos`; mapping it adds no page.  `shm_rem` of the last reference frees the page found
at the recorded address and forgets the page of the segment, which is then a page like any other:
`ReleaseOk` is what makes that harmless.
-/

namespace Xv6

open Lib Multiset Option

/-- The pages of a process but for those mapped at user addresses. -/
def PMem.own (e : PMem) : Multiset Page :=
  pageTally e.kstack + e.pgdir.elim 0 fun d => {d.page} + d.tabs

/-- The pages a process maps at user addresses. -/
def PMem.user (e : PMem) : Multiset Page := e.pgdir.elim 0 Pgdir.user

theorem PMem.held_eq (sh : Page → Bool) (e : PMem) : e.held sh = e.own + priv sh e.user := by
  unfold PMem.held PMem.own PMem.user heldOpt
  cases e.pgdir with
  | none => simp [priv]
  | some d => simp only [elim_some, Pgdir.held, add_assoc]

theorem PMem.mem_user {e : PMem} {pg : Page} :
    pg ∈ e.user ↔ ∃ d a, e.pgdir = some d ∧ UserMap d a pg := by
  unfold PMem.user
  cases e.pgdir with
  | none => simp
  | some d =>
    constructor
    · intro h
      obtain ⟨a, ha⟩ := userMap_of_mem_user h
      exact ⟨d, a, rfl, ha⟩
    · rintro ⟨d', a, hd, ha⟩
      cases hd
      exact ha.mem_user

namespace Vm

variable {u u' : Slot → Bool} {v v₁ v' : Vm} {p q np : Slot} {i : Fin SHM_MAXNUM} {name : CStr}
  {sh sh' : Page → Bool} {d : Pgdir} {pg : Page} {U : Multiset Page}

@[simp] theorem updShm_proc (v : Vm) (i : Fin SHM_MAXNUM) (f : ShmInfo → ShmInfo) :
    (v.updShm i f).proc = v.proc := rfl

@[simp] theorem updShm_mem (v : Vm) (i : Fin SHM_MAXNUM) (f : ShmInfo → ShmInfo) :
    (v.updShm i f).mem = v.mem := rfl

@[simp] theorem updShm_shm (v : Vm) (i j : Fin SHM_MAXNUM) (f : ShmInfo → ShmInfo) :
    (v.updShm i f).shm j = if j = i then f (v.shm i) else v.shm j := by
  simp only [updShm, Function.update_apply]

/-- A change of the reference count. -/
theorem sameSegs_count (v : Vm) (i : Fin SHM_MAXNUM) (f : Int → Int) :
    SameSegs v (v.updShm i fun e => { e with refCount := f e.refCount }) := fun j => by
  by_cases hj : j = i
  · subst hj; simp
  · simp [hj]

theorem MemInv.count (h : MemInv u v) (i : Fin SHM_MAXNUM) (f : Int → Int) :
    MemInv u (v.updShm i fun e => { e with refCount := f e.refCount }) :=
  h.frame (sameSegs_count v i f) rfl fun _ => ⟨rfl, rfl⟩

/-- A change of the fields of `p` that hold no page. -/
theorem MemInv.fields (h : MemInv u v) {f : PMem → PMem} (hk : ∀ e, (f e).kstack = e.kstack)
    (hd : ∀ e, (f e).pgdir = e.pgdir) : MemInv u (v.upd p f) :=
  h.frame (.refl v) rfl fun q => by
    by_cases hq : q = p
    · subst hq; simp [hk, hd]
    · simp [hq]

theorem MemInv.updShms (h : MemInv u v) (f : ShmProcInfo → ShmProcInfo) :
    MemInv u (v.updShms p i f) :=
  h.fields (fun _ => rfl) fun _ => rfl

/-! ### `shm_get` -/

theorem copyName_ne_nil {dst src : CStr} (h : src ≠ []) :
    Safe (copyName dst src) fun n => n ≠ [] := by
  unfold copyName
  split
  · exact .ok (by simp [h])
  · exact .fault

theorem priv_anti (h : ∀ pg, sh pg = true → sh' pg = true) (U : Multiset Page) :
    priv sh' U ≤ priv sh U := by
  refine monotone_filter_right U fun pg hp => ?_
  cases hs : sh pg with
  | false => rfl
  | true => rw [h pg hs] at hp; cases hp

theorem held_anti (h : ∀ pg, sh pg = true → sh' pg = true) (e : PMem) : e.held sh' ≤ e.held sh := by
  refine add_le_add le_rfl ?_
  cases e.pgdir with
  | none => exact le_rfl
  | some d => exact add_le_add le_rfl (priv_anti h _)

theorem procPages_anti (h : ∀ pg, sh pg = true → sh' pg = true) :
    v.procPages u sh' ≤ v.procPages u sh := by
  unfold procPages
  refine Finset.sum_le_sum fun q _ => ?_
  unfold slotPages
  split
  · exact held_anti h _
  · exact le_rfl

/-- **A page becomes the page of a segment.**  `m` has the free pages but for `mem`; `v'` differs
from `v` in the free list, the address space `d'` of `p`, where `mem` may be mapped, and the free
entry `i` of `shm_infos`. -/
theorem MemInv.newSeg {m : Kmem} {mem : Page} {d' : Pgdir} (h : MemInv u v) (hp : u p = true)
    (hk : kalloc v.mem = some (mem, m)) (hi : (v.shm i).name = [])
    (hi' : (v'.shm i).pageAddr = some mem ∧ (v'.shm i).name ≠ [])
    (hj : ∀ j, j ≠ i → v'.shm j = v.shm j) (hq : ∀ q, q ≠ p → v'.proc q = v.proc q)
    (hd : (v.proc p).pgdir = some d) (hd' : (v'.proc p).pgdir = some d')
    (hks : (v'.proc p).kstack = (v.proc p).kstack) (hc : core v'.mem d' = core m d)
    (hu : d'.user ≤ d.user + {mem}) : MemInv u v' := by
  have hseg : v'.segPages = v.segPages + {mem} := by
    have hc := tally_change (f := fun j => pageTally (v.shm j).pageAddr)
      (g := fun j => pageTally (v'.shm j).pageAddr) i fun j hji => by simp only [hj j hji]
    simp only [h.empty i hi, hi'.1, pageTally, elim_none, elim_some, add_zero] at hc
    unfold segPages
    exact hc
  have hle : v'.mem.free + (v'.proc p).held v'.isShm ≤ m.free + (v.proc p).held v'.isShm := by
    rw [held_some _ hd, held_some _ hd', hks, add_left_comm, add_left_comm m.free]
    exact add_le_add le_rfl (world_map_shm (isShm_iff.mpr ⟨i, hi'.1⟩) hc hu)
  have hsh : ∀ pg, v.isShm pg = true → v'.isShm pg = true := fun pg hpg => by
    obtain ⟨j, hpg⟩ := isShm_iff.mp hpg
    have hji : j ≠ i := by
      rintro rfl
      rw [h.empty j hi] at hpg
      cases hpg
    exact isShm_iff.mpr ⟨j, by rw [hj j hji, hpg]⟩
  refine ⟨nodup_of_le ?_ h.nodup, fun j hnil => ?_⟩
  · have hc : v'.procPages u v'.isShm + slotPages v'.isShm (u p) (v.proc p) =
        v.procPages u v'.isShm + slotPages v'.isShm (u p) (v'.proc p) :=
      procPages_change v'.isShm (fun _ _ => rfl) fun q hqp => by rw [hq q hqp]
    simp only [slotPages, hp, if_true] at hc
    calc v'.pages u = v'.mem.free + (v'.procPages u v'.isShm + v'.segPages) := rfl
      _ ≤ m.free + (v.procPages u v'.isShm + v'.segPages) := tally_trade _ hc hle
      _ ≤ m.free + (v.procPages u v.isShm + v'.segPages) := by
          exact add_le_add le_rfl (add_le_add (procPages_anti hsh) le_rfl)
      _ = v.pages u := by rw [pages, hseg, kalloc_free hk]; abel
  · by_cases hji : j = i
    · subst hji; exact absurd hnil hi'.2
    · rw [hj j hji] at hnil ⊢
      exact h.empty j hnil

/-- The address space of `p` after a page was mapped, or not. -/
theorem setSpace_mapped {va : Nat} {pa : Page} (h : MemInv u v) (hp : u p = true)
    (hd : (v.proc p).pgdir = some d) (hva : va % PGSIZE = 0) (hpa : v.isShm pa = true) :
    Safe (mappages v.mem d va PGSIZE pa permWU) fun x =>
      MemInv u { v.upd p fun e => { e with pgdir := some x.2.2 } with mem := x.2.1 } := by
  refine (mappages_spec hva).mono fun x hx => ?_
  refine h.within hp (.space hd rfl rfl ?_)
  rcases hx with rfl | ⟨-, hc, hu, -⟩
  · exact le_rfl
  · exact world_map_shm hpa hc hu

theorem pgroundup_mod (a : Nat) : pgroundup a % PGSIZE = 0 := Nat.mul_mod_left _ _

/-- **`shm_allocuvm`.** -/
theorem shmAllocuvm_safe {oldsz newsz : Nat} (h : MemInv u v) (hp : u p = true) :
    Safe (v.shmAllocuvm p oldsz newsz name) fun x => MemInv u x.2 := by
  unfold shmAllocuvm
  split
  · exact .ok h
  next hname =>
  split
  · exact .ok h
  next hb =>
  split
  · exact .ok h
  refine (pgdirOf_safe v p).bind fun d hd => ?_
  dsimp only
  split
  · next i hi =>
    have h₁ := h.count i (· + 1)
    split
    · exact .fault
    · next pa hpa =>
      refine (setSpace_mapped h₁ hp hd (pgroundup_mod _) (isShm_iff.mpr ⟨i, hpa⟩)).bind fun x hx => ?_
      exact .ok hx
  · next hi =>
    have hn := nodup_of_le (world_le_slot hd) (h.nodup_slot hp)
    split
    · refine (deallocuvm_safe hn (by omega)).bind fun x hx => ?_
      exact .ok (h.within hp (.space hd rfl rfl hx.le))
    next mem m hk =>
    have hw : {mem} + world v.isShm m d = world v.isShm v.mem d := by
      rw [world, world, kalloc_free hk, add_assoc]
    refine (mappages_spec (pgroundup_mod _)).bind fun x hx => ?_
    obtain ⟨r, m₁, d₁⟩ := x
    rcases hx with hx | ⟨hr, hc, hu, -⟩
    · -- the page could not be mapped
      cases hx
      rw [← hw] at hn
      refine (deallocuvm_safe (nodup_add.mp hn).2.1 (by omega)).bind fun y hy => ?_
      obtain ⟨r', m₂, d₂⟩ := y
      dsimp only at hy
      rw [← hy] at hn
      refine (kfree_le (free_le_world v.isShm m₂ d₂) hn).bind fun m₃ h₃ => .ok ?_
      refine h.within hp (.space hd rfl rfl (le_of_eq ?_))
      rw [← hw, ← hy, world, world, h₃, add_assoc]
    · cases hr
      dsimp only at hc hu ⊢
      rw [if_pos rfl]
      split
      · -- no free entry: the page stays with the process
        exact .ok (h.within hp (.space hd rfl rfl ((world_map hc hu).trans hw.le)))
      next i hi =>
      refine (copyName_ne_nil hname).bind fun n hne => .ok ?_
      have hnil := List.find?_some hi
      have hnil : (v.shm i).name = [] := of_decide_eq_true hnil
      exact h.newSeg hp hk hnil ⟨by simp, by simpa using hne⟩ (fun j hj => by simp [hj])
        (fun q hq => by simp [hq]) hd (by simp) (by simp) hc hu

/-- **`shm_get`.** -/
theorem shmGet_safe (h : MemInv u v) (hp : u p = true) :
    Safe (v.shmGet p name) fun x => MemInv u x.2 := by
  unfold shmGet
  split
  · exact .ok h
  refine (shmAllocuvm_safe h hp).bind fun x hx => ?_
  obtain ⟨ret, v₁⟩ := x
  dsimp only at hx ⊢
  split
  · exact .ok hx
  refine Safe.bind (Q := fun _ => True) ?_ fun i _ => ?_
  · unfold shmIndex
    split
    · exact .ok trivial
    · exact .fault
  · refine Safe.bind (Q := fun _ => True) ?_ fun n _ => ?_
    · unfold copyName
      split
      · exact .ok trivial
      · exact .fault
    · generalize ((v.proc p).sz + PGSIZE) % UINT = newsize
      refine .ok (MemInv.fields (hx.updShms _) (f := fun e => { e with sz := newsize }) ?_ ?_)
      · exact fun _ => rfl
      · exact fun _ => rfl

/-! ### `shm_rem` -/

/-- `q` is used and maps `pg` at the user page `a`. -/
def Maps (u : Slot → Bool) (v : Vm) (q : Slot) (a : Nat) (pg : Page) : Prop :=
  u q = true ∧ ∃ d, (v.proc q).pgdir = some d ∧ UserMap d a pg

/-- **When the last reference may be released.**  The page of segment `i` is mapped at one place at
most, and what `p` has at the recorded address is not the page of another segment. -/
def ReleaseOk (u : Slot → Bool) (v : Vm) (p : Slot) (i : Fin SHM_MAXNUM) : Prop :=
  (∀ pg, (v.shm i).pageAddr = some pg →
    ∀ q a q' a', Maps u v q a pg → Maps u v q' a' pg → q = q' ∧ a = a') ∧
  ∀ d e, (v.proc p).pgdir = some d →
    walkpgdir d (((v.proc p).shms i).shmAddr / PGSIZE) = some (some e) →
    ((v.proc p).shms i).shmAddr / PGSIZE < KERNPAGE ∧ ∀ j, j ≠ i → (v.shm j).pageAddr ≠ some e.page

/-- The pages of the used slots but for those mapped at user addresses. -/
@[irreducible] def ownPages (u : Slot → Bool) (v : Vm) : Multiset Page :=
  ∑ q, if u q then (v.proc q).own else 0

/-- The pages the used slots map at user addresses, once for each mapping. -/
@[irreducible] def userPages (u : Slot → Bool) (v : Vm) : Multiset Page :=
  ∑ q, if u q then (v.proc q).user else 0

theorem priv_sum (sh : Page → Bool) (f : Slot → Multiset Page) :
    priv sh (∑ q, f q) = ∑ q, priv sh (f q) :=
  map_sum (⟨⟨priv sh, priv_zero sh⟩, priv_add sh⟩ : Multiset Page →+ Multiset Page) f _

theorem procPages_eq (u : Slot → Bool) (sh : Page → Bool) (v : Vm) :
    v.procPages u sh = v.ownPages u + priv sh (v.userPages u) := by
  unfold procPages ownPages userPages
  rw [priv_sum, ← Finset.sum_add_distrib]
  refine Finset.sum_congr rfl fun q _ => ?_
  unfold slotPages
  split
  · exact PMem.held_eq sh _
  · exact (priv_zero sh).symm

theorem mem_userPages : pg ∈ v.userPages u ↔ ∃ q a, Maps u v q a pg := by
  have hq : ∀ q, (pg ∈ if u q then (v.proc q).user else 0) ↔ ∃ a, Maps u v q a pg := fun q => by
    cases hu : u q with
    | false => simp [Maps, hu]
    | true =>
      simp only [if_true, PMem.mem_user, Maps, hu, true_and]
      exact exists_comm
  unfold userPages
  simp only [mem_sum, Finset.mem_univ, true_and, hq]

/-- A page mapped at one place at most is counted once at most. -/
theorem count_userPages_le (h : ∀ q a q' a', Maps u v q a pg → Maps u v q' a' pg → q = q' ∧ a = a')
    : (v.userPages u).count pg ≤ 1 := by
  have hmem : ∀ q, (pg ∈ if u q then (v.proc q).user else 0) → ∃ a, Maps u v q a pg :=
    fun q hq => by
      cases hu : u q with
      | false => simp [hu] at hq
      | true =>
        rw [if_pos hu] at hq
        obtain ⟨d, a, hd, ha⟩ := PMem.mem_user.mp hq
        exact ⟨a, hu, d, hd, ha⟩
  unfold userPages
  refine count_tally_le_one (fun q => ?_) fun q q' hq hq' => ?_
  · split
    · next hu =>
      cases hd : (v.proc q).pgdir with
      | none => simp [PMem.user, hd]
      | some d =>
        simp only [PMem.user, hd, elim_some]
        exact count_user_le fun a a' ha ha' => (h q a q a' ⟨hu, d, hd, ha⟩ ⟨hu, d, hd, ha'⟩).2
    · exact Nat.zero_le 1
  · obtain ⟨a, ha⟩ := hmem q hq
    obtain ⟨a', ha'⟩ := hmem q' hq'
    exact (h q a q' a' ha ha').1

/-- `v'` is `v` with entry `i` of `shm_infos` cleared. -/
structure Cleared (i : Fin SHM_MAXNUM) (v v' : Vm) : Prop where
  self : (v'.shm i).pageAddr = none
  other : ∀ j, j ≠ i → v'.shm j = v.shm j

/-- The mappings in `U` of the page of segment `i`. -/
def segMaps (v : Vm) (i : Fin SHM_MAXNUM) (U : Multiset Page) : Multiset Page :=
  U.filter fun pg => (v.shm i).pageAddr = some pg

theorem segMaps_le (hU : ∀ pg, (v.shm i).pageAddr = some pg → U.count pg ≤ 1) :
    v.segMaps i U ≤ pageTally (v.shm i).pageAddr := by
  rw [le_iff_count]
  intro x
  rw [segMaps, count_filter]
  split
  · next hx => simpa [pageTally, hx] using hU x hx
  · exact Nat.zero_le _

/-- The page that segment `i` has lost is private where it is mapped. -/
theorem Cleared.priv_le (h : Cleared i v v') (U : Multiset Page) :
    priv v'.isShm U ≤ priv v.isShm U + v.segMaps i U := by
  rw [le_iff_count]
  intro x
  rw [count_add, priv, priv, segMaps, count_filter, count_filter, count_filter]
  cases hx : v.isShm x with
  | false =>
    simp only [if_true]
    split
    · exact Nat.le_add_right _ _
    · exact Nat.zero_le _
  | true =>
    split
    · next hx' =>
      -- the only segment that can have had `x` is `i`
      obtain ⟨j, hj⟩ := isShm_iff.mp hx
      have hji : j = i := by
        by_contra hne
        rw [isShm_iff.mpr ⟨j, by rw [h.other j hne, hj]⟩] at hx'
        cases hx'
      rw [hji] at hj
      rw [if_pos hj]
      exact Nat.le_add_left _ _
    · exact Nat.zero_le _

/-- A page `x` that is of no other segment is unmapped: it was private, or it was the page of
segment `i`. -/
theorem Cleared.unmap_le (h : Cleared i v v') {U' : Multiset Page} {x : Page} (hU : U' + {x} = U)
    (hle : v.segMaps i U ≤ pageTally (v.shm i).pageAddr)
    (hx : ∀ j, j ≠ i → (v.shm j).pageAddr ≠ some x) :
    {x} + priv v'.isShm U' ≤ priv v.isShm U + pageTally (v.shm i).pageAddr := by
  subst hU
  have hadd : v.segMaps i (U' + {x}) = v.segMaps i U' + v.segMaps i {x} := filter_add ..
  rw [hadd] at hle
  refine (add_le_add le_rfl (h.priv_le U')).trans ?_
  by_cases hi : (v.shm i).pageAddr = some x
  · -- the page of the segment, mapped nowhere else
    have hself : v.segMaps i {x} = {x} := by simp [segMaps, filter_singleton, hi]
    rw [hself, add_comm] at hle
    rw [add_left_comm]
    exact add_le_add (priv_mono (le_add_right _ _)) hle
  · -- private, and the page of the segment stays where it is mapped
    have hsh : v.isShm x = false := by
      by_contra hne
      obtain ⟨j, hj⟩ := isShm_iff.mp (by simpa using hne)
      exact hx j (fun e => hi (e ▸ hj)) hj
    rw [priv_add, priv_not_shm hsh, ← add_assoc, add_comm ({x} : Multiset Page)]
    exact add_le_add le_rfl ((le_add_right _ _).trans hle)

theorem Cleared.segPages (h : Cleared i v v') :
    v'.segPages + pageTally (v.shm i).pageAddr = v.segPages := by
  have hc := tally_change (f := fun j => pageTally (v.shm j).pageAddr)
    (g := fun j => pageTally (v'.shm j).pageAddr) i fun j hj => by simp only [h.other j hj]
  unfold Vm.segPages
  refine hc.trans ?_
  rw [h.self]
  exact add_zero _

/-- **A segment is released.**  The pages `X` were unmapped and freed. -/
theorem MemInv.release (h : MemInv u v) (hcl : Cleared i v v') (X : Multiset Page)
    (hf : v'.mem.free = X + v.mem.free) (ho : v'.ownPages u = v.ownPages u)
    (hX : X + priv v'.isShm (v'.userPages u) ≤
      priv v.isShm (v.userPages u) + pageTally (v.shm i).pageAddr) : MemInv u v' := by
  refine ⟨nodup_of_le ?_ h.nodup, fun j hj => ?_⟩
  · calc v'.pages u = v.mem.free + v.ownPages u + v'.segPages +
          (X + priv v'.isShm (v'.userPages u)) := by
            rw [pages, procPages_eq, hf, ho]; abel
      _ ≤ v.mem.free + v.ownPages u + v'.segPages +
          (priv v.isShm (v.userPages u) + pageTally (v.shm i).pageAddr) := add_le_add le_rfl hX
      _ = v.pages u := by rw [pages, procPages_eq, ← hcl.segPages]; abel
  · by_cases hji : j = i
    · rw [hji]; exact hcl.self
    · rw [hcl.other j hji] at hj ⊢
      exact h.empty j hj

/-- A user page of `p` is unmapped. -/
theorem userPages_unmap {a : Nat} {e : Pte} (hp : u p = true) (hd : (v.proc p).pgdir = some d)
    (he : walkpgdir d a = some (some e)) (ha : a < KERNPAGE)
    (hv : v'.proc = (v.upd p fun e => { e with pgdir := some (setPte d a none) }).proc) :
    v'.ownPages u = v.ownPages u ∧ v'.userPages u + {e.page} = v.userPages u := by
  have hq : ∀ q, q ≠ p → v'.proc q = v.proc q := fun q hqp => by simp [hv, hqp]
  have hp' : (v'.proc p).own = (v.proc p).own ∧ (v'.proc p).user + {e.page} = (v.proc p).user := by
    obtain ⟨hc, hu⟩ := setPte_none (m := v.mem) he ha
    simp only [hv, upd_proc, if_true, PMem.own, PMem.user, hd, elim_some]
    exact ⟨by rw [add_left_cancel hc], hu⟩
  constructor
  · unfold ownPages
    refine Finset.sum_congr rfl fun q _ => ?_
    by_cases hqp : q = p
    · rw [hqp, hp'.1]
    · rw [hq q hqp]
  · have hc := tally_change (f := fun q => if u q then (v.proc q).user else 0)
      (g := fun q => if u q then (v'.proc q).user else 0) p fun q hqp => by simp only [hq q hqp]
    simp only [hp, if_true] at hc
    unfold userPages
    refine add_right_cancel (b := (v'.proc p).user) ?_
    rw [add_assoc, add_comm ({e.page} : Multiset Page), hp'.2, hc]

/-- A page mapped by a used slot is not free. -/
theorem MemInv.not_free (h : MemInv u v) (hm : pg ∈ v.userPages u) : pg ∉ v.mem.free := by
  have hmem : pg ∈ v.procPages u v.isShm + v.segPages := by
    cases hs : v.isShm pg with
    | false =>
      refine mem_add.mpr (.inl ?_)
      rw [procPages_eq]
      exact mem_add.mpr (.inr (mem_filter.mpr ⟨hm, hs⟩))
    | true =>
      obtain ⟨j, hj⟩ := isShm_iff.mp hs
      refine mem_add.mpr (.inr ?_)
      unfold segPages
      exact mem_sum.mpr ⟨j, Finset.mem_univ j, by simp [pageTally, hj]⟩
  have hd := (nodup_add.mp h.nodup).2.2
  exact fun hf => disjoint_left.mp hd hf hmem

/-- **`shm_rem` of the last reference.** -/
theorem shmRelease_safe (h : MemInv u v) (hp : u p = true) (hr : ReleaseOk u v p i) :
    Safe (v.shmRelease p i) (MemInv u) := by
  have hle : v.segMaps i (v.userPages u) ≤ pageTally (v.shm i).pageAddr :=
    segMaps_le fun pg hpg => count_userPages_le (hr.1 pg hpg)
  unfold shmRelease
  refine (pgdirOf_safe v p).bind fun d hd => ?_
  dsimp only
  split
  · exact .fault
  · -- nothing is mapped there: the page stays where it is mapped
    have hcl : Cleared i v (v.updShm i fun e => { e with pageAddr := none, name := [] }) :=
      ⟨by simp, fun j hj => by simp [hj]⟩
    have hsame : (v.updShm i fun e => { e with pageAddr := none, name := [] }).ownPages u =
        v.ownPages u ∧ (v.updShm i fun e => { e with pageAddr := none, name := [] }).userPages u =
        v.userPages u := by
      simp only [ownPages, userPages, updShm_proc, and_self]
    refine .ok (h.release hcl 0 (zero_add _).symm hsame.1 ?_)
    rw [zero_add, hsame.2]
    exact (hcl.priv_le _).trans (add_le_add le_rfl hle)
  · next e he =>
    obtain ⟨ha, hother⟩ := hr.2 d e hd he
    split
    · exact .panic
    -- the page there is unmapped and freed
    have hmem : e.page ∈ v.userPages u :=
      mem_userPages.mpr ⟨p, _, hp, d, hd, ha, e, he, rfl⟩
    refine (kfree_safe (h.not_free hmem)).bind fun m hm => .ok ?_
    let w : Vm := v.upd p fun x =>
      { x with pgdir := some (setPte d (((v.proc p).shms i).shmAddr / PGSIZE) none) }
    let w' : Vm := { w with mem := m }.updShm i fun e => { e with pageAddr := none, name := [] }
    have hcl : Cleared i v w' := ⟨by simp [w'], fun j hj => by simp [hj, w, w']⟩
    have hun : w'.ownPages u = v.ownPages u ∧ w'.userPages u + {e.page} = v.userPages u :=
      userPages_unmap hp hd he ha rfl
    refine h.release hcl {e.page} hm hun.1 ?_
    exact hcl.unmap_le hun.2 hle hother

theorem MemInv.detach (h : MemInv u v) : MemInv u (v.detach p i) := by
  unfold Vm.detach
  exact ((h.updShms _).count i (· - 1)).fields (f := fun e =>
    { e with sz := toUint ((e.sz : Int) - PGSIZE) }) (fun _ => rfl) fun _ => rfl

theorem detach_proc (v : Vm) (p q : Slot) (i : Fin SHM_MAXNUM) :
    ((v.detach p i).proc q).pgdir = (v.proc q).pgdir ∧
    (((v.detach p i).proc q).shms i).shmAddr = ((v.proc q).shms i).shmAddr := by
  by_cases hq : q = p
  · subst hq; simp [detach, updShms]
  · simp [detach, updShms, hq]

theorem detach_shm (v : Vm) (p : Slot) (i j : Fin SHM_MAXNUM) :
    ((v.detach p i).shm j).pageAddr = (v.shm j).pageAddr := by
  by_cases hj : j = i
  · subst hj; simp [detach, updShms]
  · simp [detach, updShms, hj]

theorem ReleaseOk.detach (h : ReleaseOk u v p i) : ReleaseOk u (v.detach p i) p i := by
  simpa only [ReleaseOk, Maps, detach_proc, detach_shm] using h

/-- **When `shm_rem(name)` by `p` is harmless**: it does not drop the last reference, or the
segment may be released. -/
def RemOk (u : Slot → Bool) (v : Vm) (p : Slot) (name : CStr) : Prop :=
  ∀ i, ((List.finRange SHM_MAXNUM).find? fun i => ((v.proc p).shms i).name = name) = some i →
    (v.shm i).refCount = 1 → ReleaseOk u v p i

/-- **`shm_rem`.** -/
theorem shmRem_safe (h : MemInv u v) (hp : u p = true) (hr : RemOk u v p name) :
    Safe (v.shmRem p name) fun x => MemInv u x.2 := by
  unfold shmRem
  split
  · exact .ok h
  next i hi =>
  dsimp only
  split
  · next hz =>
    have hone : (v.shm i).refCount = 1 := by
      simp only [detach, updShms, upd_shm, updShm_shm, if_true] at hz
      omega
    refine (shmRelease_safe h.detach hp (hr i hi hone).detach).bind fun v' hv => ?_
    exact .ok (hv.updShms (p := p) (i := i) fun e => { e with shmAddr := 0 })
  · exact .ok (h.detach.updShms (p := p) (i := i) fun e => { e with shmAddr := 0 })

/-- **When `exit` by `p` is harmless** on the entries `js`: each of its calls of `shm_rem` is. -/
def ExitOk (u : Slot → Bool) (p : Slot) : List (Fin SHM_MAXNUM) → Vm → Prop
  | [], _ => True
  | j :: js, v =>
    if ((v.proc p).shms j).name = [] then ExitOk u p js v
    else RemOk u v p ((v.proc p).shms j).name ∧
      ∀ r v', v.shmRem p ((v.proc p).shms j).name = .ok (r, v') → ExitOk u p js v'

theorem exitShm_safe (hp : u p = true) (js : List (Fin SHM_MAXNUM)) :
    ∀ {v}, MemInv u v → ExitOk u p js v → Safe (exitShm p js v) (MemInv u) := by
  induction js with
  | nil => exact fun h _ => .ok h
  | cons j js ih =>
    intro v h ho
    rw [exitShm]
    rw [ExitOk] at ho
    split
    · next hj =>
      rw [if_pos hj] at ho
      exact ih h ho
    next hj =>
    rw [if_neg hj] at ho
    obtain ⟨hr, ho⟩ := ho
    have hs := shmRem_safe h hp hr
    refine ⟨fun v' hv => ?_, fun pg he => ?_⟩
    · obtain ⟨x, hx, hv⟩ := of_bind hv
      exact (ih (hs.post x hx) (ho x.1 x.2 hx)).post v' hv
    · rcases Res.bind_eq_error.mp he with he | ⟨x, hx, he⟩
      · exact hs.noFree pg he
      · exact (ih (hs.post x hx) (ho x.1 x.2 hx)).noFree pg he

/-! ### `fork2`, `wait` and the first process -/

/-- The slot `q` keeps nothing, or what it has but for its kernel stack. -/
theorem freeKstack_safe {P : Multiset Page}
    (hn : (v.mem.free + (pageTally (v.proc q).kstack + P)).Nodup) :
    Safe (v.freeKstack q) fun v' => SameSegs v v' ∧ (∀ p, p ≠ q → v'.proc p = v.proc p) ∧
      (v'.proc q).pgdir = (v.proc q).pgdir ∧
      v'.mem.free = pageTally (v.proc q).kstack + v.mem.free := by
  unfold freeKstack
  split
  · exact .panic
  next pg hk =>
  have hpg : pageTally (v.proc q).kstack = {pg} := by rw [hk]; rfl
  rw [hpg] at hn ⊢
  have hf : pg ∉ v.mem.free := fun hf =>
    disjoint_left.mp (nodup_add.mp hn).2.2 hf (mem_add.mpr (.inl (mem_singleton_self pg)))
  refine (kfree_safe hf).bind fun m hm => .ok ⟨.refl v, fun p hp => by simp [hp], by simp, hm⟩

/-- **Reaping.**  The slot leaves the used ones, and its pages become free. -/
theorem reap_safe (h : MemInv u v) (hq : u q = true) (hu : ∀ p, p ≠ q → u' p = u p)
    (hq' : u' q = false) : Safe (v.reap q) (MemInv u') := by
  have hn := h.nodup_slot hq
  unfold reap
  refine (freeKstack_safe hn).bind fun v₁ h₁ => ?_
  obtain ⟨hs, hp, hd, hm⟩ := h₁
  split
  · exact .panic
  next d hd₁ =>
  have hsh : v₁.isShm = v.isShm := isShm_congr fun j => (hs j).1
  have hw : world v.isShm v₁.mem d = v.mem.free + (v.proc q).held v.isShm := by
    rw [held_some _ (hd ▸ hd₁), world, hm]
    abel
  rw [hsh]
  refine (freevm_safe (hw ▸ hn)).bind fun m h₂ => .ok ?_
  refine h.slot hs hu (fun p hpq => by rw [hp p hpq]) ?_
  simpa only [slotPages, hq, hq', if_true, Bool.false_eq_true, if_false, add_zero, ← hw] using h₂

theorem shmAt_isShm (v : Vm) (p : Slot) (a : Nat) (pg : Page)
    (h : v.shmAt p a = some (some pg)) : v.isShm pg = true := by
  unfold shmAt at h
  generalize List.finRange SHM_MAXNUM = js at h
  have key : ∀ (js : List (Fin SHM_MAXNUM)) (r : Option (Option Page)),
      (r = some (some pg) → v.isShm pg = true) →
      js.foldl (fun r j => if a ≠ 0 ∧ ((v.proc p).shms j).shmAddr = a * PGSIZE
        then some (v.shm j).pageAddr else r) r = some (some pg) → v.isShm pg = true := by
    intro js
    induction js with
    | nil => exact fun r hr h => hr h
    | cons j js ih =>
      intro r hr h
      refine ih _ (fun hj => ?_) h
      dsimp only at hj
      split at hj
      · exact isShm_iff.mpr ⟨j, some.inj hj⟩
      · exact hr hj
  exact key js none (by simp) h

/-- `copyuvm` of the address space of `p`, for `np`. -/
theorem copyMem_safe (hn : v.mem.free.Nodup) :
    Safe (v.copyMem p np) fun x => SameSegs v x.2 ∧ (∀ q, q ≠ np → x.2.proc q = v.proc q) ∧
      (x.2.proc np).kstack = (v.proc np).kstack ∧
      x.2.mem.free + heldOpt v.isShm (x.2.proc np).pgdir ≤ v.mem.free := by
  unfold copyMem
  refine (pgdirOf_safe v p).bind fun d _ => ?_
  refine (copyuvm_safe (shmAt_isShm v p) hn).bind fun x hx => ?_
  obtain ⟨o, m⟩ := x
  cases o with
  | none | some => exact .ok ⟨.refl v, fun q hq => by simp [hq], by simp, by simpa using hx⟩

theorem MemInv.forkShm (js : List (Fin SHM_MAXNUM)) :
    ∀ {v addr}, MemInv u v → MemInv u (forkShm p np js addr v) := by
  induction js with
  | nil => exact fun h => h
  | cons j js ih =>
    intro v addr h
    rw [Vm.forkShm]
    split
    · exact ih h
    · exact ih ((h.count j (· + 1)).updShms _)

/-- The child's size and references hold no page. -/
theorem MemInv.inherit (h : MemInv u v) : MemInv u (v.inherit p np) :=
  MemInv.forkShm _ (h.fields (fun _ => rfl) fun _ => rfl)

/-- **The memory of the first process.** -/
theorem initMem_safe (h : MemInv u v) (hp : u p = true) : Safe (v.initMem p) (MemInv u) := by
  unfold initMem
  have hn := h.nodup_slot hp
  refine (setupkvm_safe (nodup_add.mp hn).1).bind fun x hx => ?_
  obtain ⟨o, m⟩ := x
  cases o with
  | none => exact .panic
  | some d =>
    have hx : world v.isShm m d ≤ v.mem.free := hx
    dsimp only
    split
    · exact .fault
    next mem m₁ hk =>
    have hw : {mem} + world v.isShm m₁ d = world v.isShm m d := by
      rw [world, world, kalloc_free hk, add_assoc]
    refine (mappages_spec (Nat.zero_mod PGSIZE)).bind fun y hy => ?_
    obtain ⟨r, m₂, d₂⟩ := y
    have hle : world v.isShm m₂ d₂ ≤ v.mem.free := by
      refine le_trans ?_ hx
      rcases hy with hy | ⟨-, hc, hu, -⟩
      · cases hy
        exact (le_add_left _ _).trans hw.le
      · exact (world_map hc hu).trans hw.le
    refine .ok (h.within hp ⟨.refl v, fun q hq => by simp [hq], ?_⟩)
    simp only [upd_proc, if_true, PMem.held, heldOpt, elim_some]
    rw [add_left_comm, add_left_comm v.mem.free]
    exact add_le_add le_rfl (hle.trans (le_add_right _ _))

end Vm

end Xv6
