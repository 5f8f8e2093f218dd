import Xv6.Kernel.ForkFail

/-!
# Kernel — Account

Is `active_processes` the number of processes of a container?  `fork2(cid)` raises the count of the
container it is called with and `wait` lowers the count of the container the reaped slot has; the
slot has the container that `fork2` was called with, so that both are for the same one.  A `fork2`
that fails for lack of memory raises the count and leaves no process (`Leftover.active`); without
such a failure every step changes the count and the processes alike.

* `Balanced`: the count of every container is the number of its slots that are not UNUSED.
* `container_accounting`: it holds in every state after booting.
-/

namespace Xv6.Kernel

open Lib Finset Sched
variable {k k' : Kernel} {p np : Slot} {op : Op} {c : Fin MAX_NUM_CONTAINERS}

/-- `active_processes` of every container is the number of its slots that are not UNUSED. -/
def Balanced (k : Kernel) : Prop :=
  ∀ c : Fin MAX_NUM_CONTAINERS, (k.con c).activeProcesses = (k.sched.members c).card

instance (k : Kernel) : Decidable k.Balanced := inferInstanceAs (Decidable (∀ _, _))

/-- No page allocation of `fork2` fails: for the slot that it takes, there is a page for the kernel
stack, and then there are pages for the copy of the caller's memory. -/
def PagesOk (k : Kernel) : Op → Prop
  | .fork2 p _ => ∀ i ∈ k.freeSlot, (k.vm.allocKstack i).1 = true ∧
      ((k.vm.allocKstack i).2.copyMem p i).map Prod.fst ≠ .ok false
  | _ => True

instance (k : Kernel) : ∀ op, Decidable (k.PagesOk op) := fun op => by
  rcases op <;> dsimp only [PagesOk] <;> infer_instance

/-- A call after booting; the calls that set the limits of containers do not write the counts. -/
def AfterBoot (k : Kernel) : Op → Prop
  | .allocFirst | .userinit _ => False
  | .containers con => ∀ c, (con c).activeProcesses = (k.con c).activeProcesses
  | _ => True

/-! ### Steps -/

/-- The slot `np` was UNUSED and is in container `cid`; the others stay as they are. -/
theorem members_enter {s s' : Sched} {cid : Int} (hnp : (s.proc np).state = .unused)
    (hnew : (s'.proc np).state ≠ .unused ∧ (s'.proc np).cid = cid)
    (hne : ∀ i, i ≠ np → (s.proc i).Keep (s'.proc i) ∧ (s'.proc i).cid = (s.proc i).cid) (c : Int) :
    (s'.members c).card = (s.members c).card + if cid = c then 1 else 0 := by
  have hout : np ∉ s.members c := fun hm => (mem_members.mp hm).1 hnp
  have hrest : ∀ i, i ≠ np → (i ∈ s'.members c ↔ i ∈ s.members c) := by
    intro i hi
    obtain ⟨hk, hc⟩ := hne i hi
    rw [mem_members, mem_members, ne_eq, hk.unused, hc]
  split
  · next hcid =>
    rw [← card_insert_of_notMem hout]
    congr 1
    ext i
    rw [mem_insert]
    by_cases e : i = np
    · subst e
      exact iff_of_true (mem_members.mpr ⟨hnew.1, hnew.2.trans hcid⟩) (.inl rfl)
    · rw [hrest i e, or_iff_right e]
  · next hcid =>
    rw [Nat.add_zero]
    congr 1
    ext i
    by_cases e : i = np
    · subst e
      refine iff_of_false (fun hm => ?_) hout
      exact hcid (hnew.2.symm.trans (mem_members.mp hm).2)
    · exact hrest i e

/-- A `fork2` that finds the pages it needs changes nothing, or a process enters and is counted. -/
theorem balanced_fork2 {cid r : Int} (hb : k.Balanced) (hok : k.PagesOk (.fork2 p cid))
    (h : k.fork2 p cid = .ok (r, k')) : k'.Balanced := by
  by_cases hearly : FailsEarly k cid
  · rcases fork2_cases h with ha | ⟨np, k₁, ha, -⟩
    · rw [allocproc_early hearly] at ha; cases ha; exact hb
    · rw [allocproc_early hearly] at ha; cases ha
  obtain ⟨o, k₁, ha, hcon⟩ := fork2_con h
  obtain ⟨i, s, hi, hst, he, ⟨v, hv, hset⟩, hrest⟩ := allocproc_late ha hearly
  obtain ⟨hstack, hcopy⟩ := hok i hi
  rcases hrest with ⟨-, hk, -⟩ | ⟨rfl, hk, hs₁⟩
  · rw [hk] at hstack; cases hstack
  rw [hk] at hcopy
  rcases fork2_cases h with ha' | ⟨i', k₂, ha', -, hlast⟩
  · rw [ha] at ha'; cases ha'
  rw [ha] at ha'
  cases ha'
  rcases hlast with ⟨w, hw, -⟩ | ⟨w, -, -, hs⟩
  · rw [hw] at hcopy; exact absurd rfl hcopy
  intro c
  obtain ⟨hcid, hother⟩ := child_cid hs
  have hkeep := child_cases hs
  have hunused : (k'.sched.proc i).state ≠ .unused := by
    rw [ne_eq, (hkeep.entry i).unused, birth_self]
    simp
  rw [members_enter hst ⟨hunused, hcid⟩ (fun j hj => ?_) c]
  · rcases (setnextproc_admits hset hv c).2.2 with ⟨hne, hact⟩ | ⟨heq, hact, -⟩
    · rw [hcon, hact, if_neg hne, hb c]; rfl
    · rw [hcon, hact, if_pos heq, hb c]; rfl
  · have hj₁ := embryo_keep (f := fun e => { e with context := .user }) he hj
    rw [← hs₁] at hj₁
    have hj₂ := hkeep.entry j
    rw [birth_ne hj] at hj₂
    exact ⟨hj₁.1.trans hj₂, (hother j hj).trans hj₁.2⟩

/-- A zombie that is reaped was counted, so the count is positive and goes down by one. -/
theorem balanced_wait {r : Option Int} (hb : k.Balanced)
    (hp : (k.sched.proc p).state = .running) (h : k.wait p = .ok (r, k')) : k'.Balanced := by
  intro c
  rcases wait_con hp h with ⟨hcon, hk, hc⟩ | ⟨q, hz, hleave, hk, hc⟩
  · rw [hcon, hk.members hc, hb c]
  rw [members_reaped hk hc]
  have hin : q ∈ k.sched.members c ↔ (k.sched.proc q).cid = c := by
    rw [mem_members]
    exact and_iff_right (by simp [hz])
  rw [(leaveContainer_spec hleave c).2.2]
  by_cases hq : (k.sched.proc q).cid = c
  · have hcard := card_erase_add_one (hin.mpr hq)
    have hpos : 0 < (k.con c).activeProcesses := by rw [hb c]; omega
    rw [if_pos ⟨hq, hpos⟩, hb c]
    omega
  · rw [if_neg fun h => hq h.1, erase_eq_of_notMem (mt hin.mp hq), hb c]

/-- **One step.** -/
theorem balanced_step (hb : k.Balanced) (hs : Step k op k') (hboot : k.AfterBoot op)
    (hok : k.PagesOk op) : k'.Balanced := by
  by_cases ho : op.isCall
  · cases kind_step hs ho with
    | aside hcon hm => intro c; rw [hcon, hm, hb c]
    | fork2 h => exact balanced_fork2 hb hok h
    | wait hp h => exact balanced_wait hb hp h
  -- the limits of containers are set
  cases op <;> simp only [Op.isCall, not_true_eq_false] at ho
  case allocFirst => exact hboot.elim
  case userinit => exact hboot.elim
  case containers con =>
    obtain ⟨-, r, h⟩ := hs
    cases h
    intro c
    exact (hboot c).trans (hb c)

/-! ### Booting -/

/-- After `allocproc(-1)` at boot, the counts are zero and at most one slot is in use. -/
theorem allocFirst_boot {mem : Kmem} {r : Option Slot}
    (h : (boot mem).allocproc none (-1) = .ok (r, k)) : (∀ c, (k.con c).activeProcesses = 0) ∧
      ∃ i, ∀ j, j ≠ i → (k.sched.proc j).state = .unused := by
  refine ⟨fun c => ?_, ?_⟩
  · rcases allocproc_con h with ⟨-, rfl⟩ | ⟨i, v, hv, hset⟩
    · rfl
    · rcases (setnextproc_admits hset hv c).2.2 with ⟨-, hact⟩ | ⟨hc, -⟩
      · exact hact
      · omega
  · rcases allocproc_cases h with ⟨-, rfl⟩ | ⟨i, s, -, he, hrest⟩
    · exact ⟨0, fun _ _ => rfl⟩
    · refine ⟨i, fun j hj => ?_⟩
      rcases hrest with ⟨-, -, -, hs⟩ | ⟨-, -, -, hs⟩
      · rw [hs]; exact (embryo_keep he hj).1.unused.mpr rfl
      · rw [hs]; exact (embryo_keep he hj).1.unused.mpr rfl

/-- `userinit` puts the first process into no container. -/
theorem balanced_boot {mem : Kmem} {t : List (Kernel × Op)} (hr : Run Step (boot mem) t k)
    (ht : t.map Prod.snd = [.allocFirst, .userinit p]) : k.Balanced := by
  cases hr with
  | refl => cases ht
  | @more _ k₁ _ _ _ h₁ hr =>
    cases hr with
    | refl => cases ht
    | @more _ k₂ _ _ _ h₂ hr =>
      cases hr with
      | more => cases ht
      | refl =>
        cases ht
        obtain ⟨-, r, h₁⟩ := h₁
        obtain ⟨⟨o, k₁'⟩, ha, h₁⟩ := of_bind h₁
        cases h₁
        obtain ⟨hact, i, hi⟩ := allocFirst_boot ha
        obtain ⟨hp, r, h₂⟩ := h₂
        obtain ⟨k₂', hu, h₂⟩ := of_bind h₂
        cases h₂
        obtain ⟨v, -, hu⟩ := of_bind hu
        cases hu
        -- the first process is in the only slot in use
        have hpi : p = i := by
          by_contra e
          have : ProcState.embryo = .unused := (show _ = _ from hp).symm.trans (hi p e)
          cases this
        subst hpi
        intro c
        refine (hact c).trans (Eq.symm ?_)
        rw [Nat.cast_eq_zero, card_eq_zero, eq_empty_iff_forall_notMem]
        intro j hj
        rw [mem_members] at hj
        by_cases e : j = p
        · subst e
          rw [upd_proc_self] at hj
          have hc : (-1 : Int) = c := hj.2
          omega
        · rw [upd_proc_ne e] at hj
          exact hj.1 (hi j e)

/-! ### Runs -/

/-- **Container accounting.**  In every state reached after booting by calls that find the pages
they need, `active_processes` of every container is the number of its slots that are not
UNUSED. -/
theorem container_accounting {mem : Kmem} {k₀ : Kernel} {t₀ t : List (Kernel × Op)}
    (hr₀ : Run Step (boot mem) t₀ k₀) (ht₀ : t₀.map Prod.snd = [.allocFirst, .userinit p])
    (hr : Run Step k₀ t k) (hboot : ∀ x ∈ t, AfterBoot x.1 x.2) (hok : ∀ x ∈ t, PagesOk x.1 x.2) :
    (∀ x ∈ t, ∀ c, (x.1.con c).activeProcesses = (x.1.sched.members c).card) ∧
      ∀ c, (k.con c).activeProcesses = (k.sched.members c).card :=
  hr.inv (I := Balanced)
    (fun k op _ hb hs (h : k.AfterBoot op ∧ k.PagesOk op) => balanced_step hb hs h.1 h.2)
    (balanced_boot hr₀ ht₀) fun x hx => ⟨hboot x hx, hok x hx⟩

/-- A process enters container 3, exits and is reaped, and another enters. -/
theorem container_accounting_three : ∃ k₀ t k, Run Step k₀ t k ∧
    (k.con ⟨3, by decide⟩).activeProcesses = 1 ∧
    (∀ x ∈ t, ∀ c, (x.1.con c).activeProcesses = (x.1.sched.members c).card) ∧
      ∀ c, (k.con c).activeProcesses = (k.sched.members c).card := by
  let ops : List Op := [.scheduler, .fork2 0 3, .scheduler, .exit 1, .wait 0, .fork2 0 3]
  obtain ⟨k₀, hr₀, hrun, hops⟩ := exists_run step_of_exec? (boot smallMem)
    [.allocFirst, .userinit 0] (fun k => (runFn exec? k ops).any
        (fun k' => (k'.con ⟨3, by decide⟩).activeProcesses = 1) = true ∧
      ∀ x ∈ traceFn exec? k ops, x.2 ∈ ops ∧ PagesOk x.1 x.2) (by decide +kernel)
  obtain ⟨k, hr, hk⟩ := exists_run step_of_exec? k₀ ops _ hrun
  refine ⟨k₀, _, k, hr, hk, container_accounting (p := 0) hr₀ (by decide +kernel) hr (fun x hx => ?_)
    fun x hx => (hops x hx).2⟩
  have hx : x.2 ∈ ops := (hops x hx).1
  obtain ⟨y, op⟩ := x
  simp only [ops, List.mem_cons, List.not_mem_nil, or_false] at hx
  obtain rfl | rfl | rfl | rfl | rfl | rfl := hx <;> trivial

end Xv6.Kernel
