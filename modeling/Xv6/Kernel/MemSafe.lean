import Xv6.Kernel.VmSafe
import Mathlib.Algebra.Order.BigOperators.Group.Finset

/-!
# Kernel — MemSafe

The pages of the whole machine.  `Vm.pages u v` counts every page once for each place it is in: the
free list, the kernel stack and the address space of each slot in `u`, and the entries of
`shm_infos`.  A page of a segment counts for the segment, however many processes map it.
`MemInv` says that no page is in two places.

A call that works on one process (`Vm.Within`) keeps it because the pages of that process and the
free list are no more after it than before.  The calls on segments move a page between a process
and `shm_infos`.
-/

namespace Xv6

open Lib Multiset

/-- The page a pointer points to. -/
def pageTally (pg : Option Page) : Multiset Page := pg.elim 0 fun pg => {pg}

/-- The pages a process owns. -/
def PMem.held (sh : Page → Bool) (e : PMem) : Multiset Page :=
  pageTally e.kstack + heldOpt sh e.pgdir

/-- The pages of a slot, if it is used. -/
def slotPages (sh : Page → Bool) (b : Bool) (e : PMem) : Multiset Page :=
  if b then e.held sh else 0

namespace Vm

/-- The pages of the used slots. -/
@[irreducible] def procPages (u : Slot → Bool) (sh : Page → Bool) (v : Vm) : Multiset Page :=
  ∑ q, slotPages sh (u q) (v.proc q)

/-- The pages of the segments. -/
@[irreducible] def segPages (v : Vm) : Multiset Page := ∑ j, pageTally (v.shm j).pageAddr

/-- Every page, once for each place it is in. -/
def pages (u : Slot → Bool) (v : Vm) : Multiset Page :=
  v.mem.free + (v.procPages u v.isShm + v.segPages)

/-- **No page is in two places**, and a free entry of `shm_infos` has no page. -/
structure MemInv (u : Slot → Bool) (v : Vm) : Prop where
  nodup : (v.pages u).Nodup
  empty : ∀ j, (v.shm j).name = [] → (v.shm j).pageAddr = none

/-- The entries of `shm_infos` keep their names and pages. -/
def SameSegs (v v' : Vm) : Prop :=
  ∀ j, (v'.shm j).pageAddr = (v.shm j).pageAddr ∧ (v'.shm j).name = (v.shm j).name

variable {u u' : Slot → Bool} {v v₁ v' : Vm} {p q : Slot} {i : Fin SHM_MAXNUM} {name : CStr}
  {d : Pgdir} {m' : Kmem} {f : PMem → PMem} {n : Int}

theorem isShm_iff {pg : Page} : v.isShm pg = true ↔ ∃ j, (v.shm j).pageAddr = some pg := by
  simp [isShm]

theorem isShm_congr (h : ∀ j, (v'.shm j).pageAddr = (v.shm j).pageAddr) : v'.isShm = v.isShm := by
  funext pg
  simp only [isShm, h]

theorem segPages_congr (h : ∀ j, (v'.shm j).pageAddr = (v.shm j).pageAddr) :
    v'.segPages = v.segPages := by
  unfold segPages
  exact Finset.sum_congr rfl fun j _ => by rw [h]

theorem SameSegs.refl (v : Vm) : SameSegs v v := fun _ => ⟨rfl, rfl⟩

theorem SameSegs.trans (h : SameSegs v v₁) (h' : SameSegs v₁ v') : SameSegs v v' :=
  fun j => ⟨(h' j).1.trans (h j).1, (h' j).2.trans (h j).2⟩

/-- The slots other than `p` keep their pages. -/
theorem procPages_change (sh : Page → Bool) (hu : ∀ q, q ≠ p → u' q = u q)
    (hq : ∀ q, q ≠ p → (v'.proc q).held sh = (v.proc q).held sh) :
    v'.procPages u' sh + slotPages sh (u p) (v.proc p) =
      v.procPages u sh + slotPages sh (u' p) (v'.proc p) := by
  unfold procPages
  refine tally_change (f := fun q => slotPages sh (u q) (v.proc q))
    (g := fun q => slotPages sh (u' q) (v'.proc q)) p fun q hqp => ?_
  simp only [slotPages, hu q hqp, hq q hqp]

/-- **Pages move between the free list and one slot.** -/
theorem MemInv.slot (h : MemInv u v) (hs : SameSegs v v') (hu : ∀ q, q ≠ p → u' q = u q)
    (hq : ∀ q, q ≠ p → (v'.proc q).held v.isShm = (v.proc q).held v.isShm)
    (hle : v'.mem.free + slotPages v.isShm (u' p) (v'.proc p) ≤
      v.mem.free + slotPages v.isShm (u p) (v.proc p)) : MemInv u' v' := by
  refine ⟨nodup_of_le ?_ h.nodup, fun j hj => ?_⟩
  · rw [pages, pages, isShm_congr fun j => (hs j).1, segPages_congr fun j => (hs j).1]
    exact tally_trade _ (procPages_change v.isShm hu hq) hle
  · rw [(hs j).1]
    exact h.empty j ((hs j).2 ▸ hj)

/-- Nothing that is counted changes. -/
theorem MemInv.frame (h : MemInv u v) (hs : SameSegs v v') (hm : v'.mem = v.mem)
    (hq : ∀ q, (v'.proc q).kstack = (v.proc q).kstack ∧ (v'.proc q).pgdir = (v.proc q).pgdir) :
    MemInv u v' := by
  have hheld : ∀ q, (v'.proc q).held v.isShm = (v.proc q).held v.isShm := fun q => by
    rw [PMem.held, PMem.held, (hq q).1, (hq q).2]
  refine h.slot (p := 0) hs (fun _ _ => rfl) (fun q _ => hheld q) (le_of_eq ?_)
  simp only [hm, slotPages, hheld]

/-- The pages of a used slot are not free, and no page is in it twice. -/
theorem MemInv.nodup_slot (h : MemInv u v) (hp : u p = true) :
    (v.mem.free + (v.proc p).held v.isShm).Nodup := by
  refine nodup_of_le ?_ h.nodup
  have hle : (v.proc p).held v.isShm ≤ v.procPages u v.isShm := by
    unfold procPages
    refine le_trans (le_of_eq ?_)
      (Finset.single_le_sum (f := fun q => slotPages v.isShm (u q) (v.proc q))
        (fun _ _ => zero_le _) (Finset.mem_univ p))
    simp only [slotPages, hp, if_true]
  exact add_le_add le_rfl (hle.trans (le_add_right _ _))

/-! ### Calls on one address space -/

@[simp] theorem upd_proc (v : Vm) (p q : Slot) (f : PMem → PMem) :
    (v.upd p f).proc q = if q = p then f (v.proc p) else v.proc q := by
  simp only [upd, Function.update_apply]

@[simp] theorem upd_shm (v : Vm) (p : Slot) (f : PMem → PMem) : (v.upd p f).shm = v.shm := rfl

@[simp] theorem upd_mem (v : Vm) (p : Slot) (f : PMem → PMem) : (v.upd p f).mem = v.mem := rfl

/-- `v'` differs from `v` in the slot `p` and the free list, and these two have no more pages. -/
structure Within (p : Slot) (v v' : Vm) : Prop where
  segs : SameSegs v v'
  proc : ∀ q, q ≠ p → v'.proc q = v.proc q
  pages : v'.mem.free + (v'.proc p).held v.isShm ≤ v.mem.free + (v.proc p).held v.isShm

theorem MemInv.within (h : MemInv u v) (hp : u p = true) (hw : Within p v v') : MemInv u v' :=
  h.slot hw.segs (fun _ _ => rfl) (fun q hq => by rw [hw.proc q hq])
    (by simpa only [slotPages, hp, if_true] using hw.pages)

theorem pgdirOf_safe (v : Vm) (p : Slot) :
    Safe (v.pgdirOf p) fun d => (v.proc p).pgdir = some d := by
  unfold pgdirOf
  split
  · exact .fault
  · next d hd => exact .ok hd

theorem held_some (sh : Page → Bool) {e : PMem} (hd : e.pgdir = some d) :
    e.held sh = pageTally e.kstack + d.held sh := by
  simp only [PMem.held, hd, heldOpt, Option.elim_some]

theorem world_le_slot (hd : (v.proc p).pgdir = some d) :
    world v.isShm v.mem d ≤ v.mem.free + (v.proc p).held v.isShm := by
  rw [held_some _ hd, world]
  exact add_le_add le_rfl (le_add_left _ _)

/-- The slot `p` with the address space `d'` in place of `d`. -/
theorem Within.space {d' : Pgdir} (hd : (v.proc p).pgdir = some d)
    (hk : (f (v.proc p)).kstack = (v.proc p).kstack) (hf : (f (v.proc p)).pgdir = some d')
    (hw : world v.isShm m' d' ≤ world v.isShm v.mem d) :
    Within p v { v.upd p f with mem := m' } := by
  refine ⟨.refl v, fun q hq => by simp [hq], ?_⟩
  simp only [upd_proc, if_true]
  rw [held_some _ hd, held_some _ hf, hk, add_left_comm, add_left_comm v.mem.free]
  exact add_le_add le_rfl hw

/-- The fields of `p` that hold no page change. -/
theorem Within.fields (h : Within p v v') (hk : ∀ e, (f e).kstack = e.kstack)
    (hf : ∀ e, (f e).pgdir = e.pgdir) : Within p v (v'.upd p f) := by
  refine ⟨h.segs, fun q hq => by simp [hq, h.proc q hq], ?_⟩
  simp only [upd_proc, if_true, upd_mem, PMem.held, hk, hf]
  exact h.pages

theorem resize_safe {sz : Nat} (hn : (world v.isShm v.mem d).Nodup) (hs : n < 0 → sz ≤ KERNBASE) :
    Safe (v.resize d sz n) fun x => world v.isShm x.2.1 x.2.2 ≤ world v.isShm v.mem d := by
  unfold resize
  split
  · exact allocuvm_safe hn
  · split
    · next h => exact (deallocuvm_safe hn (hs h)).mono fun _ h => h.le
    · exact .ok le_rfl

/-- **`growproc`.** -/
theorem growproc_safe (h : MemInv u v) (hp : u p = true) (hs : n < 0 → (v.proc p).sz ≤ KERNBASE) :
    Safe (v.growproc p n) fun x => MemInv u x.2 := by
  unfold growproc
  refine (pgdirOf_safe v p).bind fun d hd => ?_
  have hn := nodup_of_le (world_le_slot hd) (h.nodup_slot hp)
  refine (resize_safe hn hs).bind fun x hx => ?_
  obtain ⟨r, m', d'⟩ := x
  have hw : Within p v { v.upd p fun e => { e with pgdir := some d' } with mem := m' } :=
    .space hd rfl rfl hx
  dsimp only
  split
  · exact .ok (h.within hp hw)
  · exact .ok (h.within hp (hw.fields (f := fun e => { e with sz := r }) (fun _ => rfl) fun _ => rfl))

/-- The free list alone becomes shorter. -/
theorem Within.mem (h : m'.free ≤ v.mem.free) : Within p v { v with mem := m' } :=
  ⟨.refl v, fun _ _ => rfl, add_le_add h le_rfl⟩

/-- **`exec`.**  The new address space is built from free pages, and the old one becomes free. -/
theorem exec_safe {file : Option (List UInt8)} {argv : List CStr} (h : MemInv u v)
    (hp : u p = true) : Safe (v.exec p file argv) fun x => MemInv u x.2 := by
  unfold exec
  cases file with
  | none => exact .ok h
  | some file =>
    dsimp only
    split
    · exact .ok h
    split
    · exact .ok h
    have hn := h.nodup_slot hp
    have hn₀ := (nodup_add.mp hn).1
    refine (setupkvm_safe hn₀).bind fun x hx => ?_
    obtain ⟨o, m₁⟩ := x
    cases o with
    | none => exact .ok (h.within hp (.mem (by simpa [heldOpt] using hx)))
    | some d =>
      refine (loadImage_safe (nodup_of_le hx hn₀)).bind fun y hy => ?_
      obtain ⟨r, m₂, d₂⟩ := y
      have hle : m₂.free + d₂.held v.isShm ≤ v.mem.free := hy.trans hx
      cases r with
      | none =>
        refine (freevm_safe (nodup_of_le hle hn₀)).bind fun m₃ h₃ => ?_
        exact .ok (h.within hp (.mem (h₃.trans hle)))
      | some sz =>
        refine (pgdirOf_safe v p).bind fun d₀ hd => ?_
        rw [held_some _ hd] at hn
        -- what is left of the free list, and the old address space
        have hold : world v.isShm m₂ d₀ + d₂.held v.isShm ≤ world v.isShm v.mem d₀ := by
          rw [world, world, add_right_comm]
          exact add_le_add hle le_rfl
        have hn₂ : (world v.isShm v.mem d₀).Nodup :=
          nodup_of_le (add_le_add le_rfl (le_add_left _ _)) hn
        refine (freevm_safe (nodup_of_le ((le_add_right _ _).trans hold) hn₂)).bind fun m₃ h₃ => ?_
        exact .ok (h.within hp (.space hd rfl rfl ((add_le_add h₃ le_rfl).trans hold)))

end Vm

end Xv6
