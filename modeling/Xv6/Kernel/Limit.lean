import Xv6.Kernel.Life
import Mathlib.Data.Finset.Card

/-!
# Kernel — Limit

The limit on the processes of a container.  `setnextproc` keeps the count `active_processes`:
`allocproc` raises it before anything can fail, and `wait` lowers it for each process it reaps, so
it is never below the number of slots in use (`LimitInv.counted`).  But it refuses a process only
when the count is above `max_proc + 1`: a container can get `max_proc + 2` processes.

* `container_limit`: in a run where no `fork2` into the container is made while `active_processes`
  is `max_proc` or `max_proc + 1`, the container never has more than `max_proc` processes.
* `limit_exceeded`: two processes in a container whose limit is one.
-/

namespace Xv6

open Function Finset Sched

namespace Sched

variable {s s₁ s' : Sched} {p i : Slot} {c : Int}

/-! ### The container of a slot -/

/-- Every slot has the same container in `s'` as in `s`. -/
def SameCid (s s' : Sched) : Prop := ∀ i, (s'.proc i).cid = (s.proc i).cid

theorem SameCid.refl (s : Sched) : SameCid s s := fun _ => rfl

theorem SameCid.trans (h₁ : SameCid s s₁) (h₂ : SameCid s₁ s') : SameCid s s' :=
  fun i => (h₂ i).trans (h₁ i)

theorem Frame.sameCid (h : Frame s s') : SameCid s s' := fun i => by
  show (s'.proc i).core.cid = (s.proc i).core.cid
  rw [h.core i]

theorem cidBy (p : Slot) : Active p (fun _ _ => True) (fun _ e e' => e.Keep e' ∧ e'.cid = e.cid)
    fun s s' => Keep s s' ∧ SameCid s s' where
  trans h₁ h₂ := ⟨h₁.1.trans h₂.1, h₁.2.trans h₂.2⟩
  entries h := ⟨⟨fun i => (h i).1, rfl⟩, fun i => (h i).2⟩
  same _ e := ⟨.refl e, rfl⟩
  woken h := ⟨keep.woken (i := 0) h, rfl⟩
  killed _ _ := ⟨keep.killed 0 _, rfl⟩
  preempted h := ⟨keep.preempted (i := 0) h, rfl⟩
  dispatched h := ⟨keep.dispatched (i := 0) h, rfl⟩
  returns _ := ⟨⟨rfl, .rfl, .rfl, id⟩, rfl⟩
  asleep _ h := ⟨((calmBy p).asleep trivial h).toKeep, rfl⟩

theorem Frame.cid (h : Frame s s') : Keep s s' ∧ SameCid s s' := ⟨h.keep, h.sameCid⟩

theorem sameCid_upd {f : PEntry → PEntry} (h : (f (s.proc p)).cid = (s.proc p).cid) :
    SameCid s (s.upd p f) := upd_field PEntry.cid h

theorem sameCid_embryo (h : s.embryo i = .ok s') : SameCid s s' := by
  have hn : SameCid s (s.newborn i) := sameCid_upd (s := { s with nextpid := s.nextpid + 1 }) rfl
  exact hn.trans (frame_embryo h).sameCid

/-- Only the child gets a container. -/
theorem child_cid {np : Slot} {cid : Int} (h : s.child p np cid = .ok s') :
    (s'.proc np).cid = cid ∧ ∀ i, i ≠ np → (s'.proc i).cid = (s.proc i).cid := by
  have hf := (frame_child h).sameCid
  exact ⟨by rw [hf np, birth_self], fun i hi => by rw [hf i, birth_ne hi]⟩

/-! ### The processes of a container -/

/-- The slots of container `c` that are not UNUSED. -/
def members (s : Sched) (c : Int) : Finset Slot :=
  Finset.univ.filter fun i => (s.proc i).state ≠ .unused ∧ (s.proc i).cid = c

theorem mem_members : i ∈ s.members c ↔ (s.proc i).state ≠ .unused ∧ (s.proc i).cid = c := by
  simp [members]

theorem SameCid.members (hc : SameCid s s')
    (hu : ∀ i, (s'.proc i).state = .unused ↔ (s.proc i).state = .unused) (c : Int) :
    s'.members c = s.members c := by
  ext i
  rw [mem_members, mem_members, ne_eq, hu i, hc i]

theorem Keep.members (h : Keep s s') (hc : SameCid s s') (c : Int) :
    s'.members c = s.members c := hc.members (fun i => (h.entry i).unused) c

/-- A zombie that is reaped leaves its container. -/
theorem members_reaped {q : Slot} (h : Keep (s.upd q PEntry.reaped) s')
    (hc : SameCid (s.upd q PEntry.reaped) s') (c : Int) : s'.members c = (s.members c).erase q := by
  rw [h.members hc]
  ext i
  rw [mem_erase, mem_members, mem_members]
  by_cases e : i = q
  · subst e
    rw [upd_proc_self]
    exact iff_of_false (fun hi => hi.1 rfl) fun hi => hi.1 rfl
  · rw [upd_proc_ne e]
    exact (and_iff_right e).symm

end Sched

namespace Kernel

open Lib
variable {k k₁ k' : Kernel} {p q : Slot} {op : Op} {con con' : Containers}
  {c : Fin MAX_NUM_CONTAINERS} {cid r : Int} {s s' : Sched}

/-! ### The count of a container -/

theorem conIndex_eq_ok (h : conIndex cid = .ok c) : (c.val : Int) = cid := by
  unfold conIndex at h
  split at h
  · cases h; simp; omega
  · cases h

/-- `setnextproc` lets the process in: the count of its container goes up by one. -/
theorem setnextproc_admits {index : Int} {val : Nat} (h : setnextproc con index val = .ok (r, con'))
    (hr : 0 ≤ r) (c : Fin MAX_NUM_CONTAINERS) :
    (con' c).alive = (con c).alive ∧ (con' c).maxProc = (con c).maxProc ∧
      ((index ≠ c ∧ (con' c).activeProcesses = (con c).activeProcesses) ∨
        (index = c ∧ (con' c).activeProcesses = (con c).activeProcesses + 1 ∧
          ¬ ((con c).alive ∧ (con c).activeProcesses > (con c).maxProc + 1))) := by
  unfold setnextproc at h
  split at h
  · obtain ⟨d, hd, h⟩ := of_bind h
    have hcd := conIndex_eq_ok hd
    split at h
    · cases h; omega
    next hlim =>
    cases h
    by_cases e : c = d
    · subst e
      rw [update_self]
      exact ⟨rfl, rfl, .inr ⟨hcd.symm, rfl, hlim⟩⟩
    · rw [update_of_ne e]
      refine ⟨rfl, rfl, .inl ⟨fun hi => e (Fin.ext ?_), rfl⟩⟩
      omega
  · cases h
    exact ⟨rfl, rfl, .inl ⟨by omega, rfl⟩⟩

/-- `allocproc` changes nothing, or passes `setnextproc`. -/
theorem allocproc_con {cur r : Option Slot} (h : k.allocproc cur cid = .ok (r, k')) :
    (r = none ∧ k' = k) ∨ ∃ i v, 0 ≤ v ∧ setnextproc k.con cid i = .ok (v, k'.con) := by
  unfold allocproc at h
  split at h
  · cases h; exact .inl ⟨rfl, rfl⟩
  next i _ =>
  obtain ⟨⟨v, con⟩, hv, h⟩ := of_bind h
  dsimp only at h
  split at h
  · cases h; exact .inl ⟨rfl, rfl⟩
  next hpos =>
  refine .inr ⟨i, v, by omega, ?_⟩
  rw [hv]
  obtain ⟨s, -, h⟩ := of_bind h
  split at h
  · cases h; rfl
  · obtain ⟨mux, -, h⟩ := of_bind h
    cases h; rfl

theorem fork2_con (h : k.fork2 p cid = .ok (r, k')) :
    ∃ np k₁, k.allocproc (some p) cid = .ok (np, k₁) ∧ k'.con = k₁.con := by
  obtain ⟨⟨np, k₁⟩, ha, h⟩ := of_bind h
  refine ⟨np, k₁, ha, ?_⟩
  cases np with
  | none => cases h; rfl
  | some np =>
    dsimp only at h
    obtain ⟨⟨ok, v⟩, -, h⟩ := of_bind h
    cases ok with
    | false => obtain ⟨v', -, h⟩ := of_bind h; cases h; rfl
    | true => obtain ⟨s, -, h⟩ := of_bind h; cases h; rfl

/-- The slot `np` gets container `cid` or stays UNUSED; the others stay as they are. -/
def NewMember (s s' : Sched) (cid : Int) : Prop :=
  ∃ np, (∀ i, i ≠ np → (s.proc i).Keep (s'.proc i) ∧ (s'.proc i).cid = (s.proc i).cid) ∧
    ((s'.proc np).state = .unused ∨ (s'.proc np).cid = cid)

theorem NewMember.members (h : NewMember s s' cid) (c : Int) :
    (cid ≠ c → s'.members c ⊆ s.members c) ∧ (s'.members c).card ≤ (s.members c).card + 1 := by
  obtain ⟨np, hne, hnp⟩ := h
  have hold : ∀ i, i ≠ np → i ∈ s'.members c → i ∈ s.members c := by
    intro i hi hm
    obtain ⟨hk, hc⟩ := hne i hi
    rw [mem_members] at hm ⊢
    exact ⟨fun hu => hm.1 (hk.unused.mpr hu), hc ▸ hm.2⟩
  refine ⟨fun hcid i hm => hold i ?_ hm, ?_⟩
  · rintro rfl
    rw [mem_members] at hm
    exact hnp.elim hm.1 fun hc => hcid (hc.symm.trans hm.2)
  · refine (card_le_card fun i hm => ?_).trans (card_insert_le np (s.members c))
    by_cases e : i = np
    · exact e ▸ mem_insert_self _ _
    · exact mem_insert_of_mem (hold i e hm)

theorem embryo_keep {i j : Slot} {f : PEntry → PEntry} (h : s.embryo i = .ok s') (hj : j ≠ i) :
    (s.proc j).Keep ((s'.upd i f).proc j) ∧ ((s'.upd i f).proc j).cid = (s.proc j).cid := by
  rw [upd_proc_ne hj]
  have hk := (embryo_cases h).entry j
  rw [newborn_ne hj] at hk
  exact ⟨hk, sameCid_embryo h j⟩

/-- What `fork2` does to the containers of the slots. -/
theorem fork2_member (h : k.fork2 p cid = .ok (r, k')) :
    k'.sched = k.sched ∨ NewMember k.sched k'.sched cid := by
  rcases fork2_cases h with ha | ⟨np, k₁, ha, -, hrest⟩
  · rcases allocproc_cases ha with ⟨-, rfl⟩ | ⟨i, s, -, he, ⟨-, -, -, hs⟩ | ⟨hc, -⟩⟩
    · exact .inl rfl
    · refine .inr ⟨i, fun j hj => ?_, .inl ?_⟩
      · rw [hs]; exact embryo_keep he hj
      · rw [hs, upd_proc_self]; rfl
    · cases hc
  · obtain ⟨s, -, he, -, hs₁⟩ := allocproc_some ha
    have h₁ : ∀ j, j ≠ np → (k.sched.proc j).Keep (k₁.sched.proc j) ∧
        (k₁.sched.proc j).cid = (k.sched.proc j).cid := fun j hj => by
      rw [hs₁]; exact embryo_keep he hj
    rcases hrest with ⟨v, -, -, hs⟩ | ⟨v, -, -, hs⟩
    · refine .inr ⟨np, fun j hj => ?_, .inl ?_⟩
      · rw [hs, upd_proc_ne hj]; exact h₁ j hj
      · rw [hs, upd_proc_self]; rfl
    obtain ⟨hnp, hne⟩ := child_cid hs
    refine .inr ⟨np, fun j hj => ⟨(h₁ j hj).1.trans ?_, (hne j hj).trans (h₁ j hj).2⟩, .inr hnp⟩
    have hk := (child_cases hs).entry j
    rwa [birth_ne hj] at hk

/-- What `wait` does to the containers: nothing, or a zombie leaves its container. -/
theorem wait_con {r : Option Int} (hp : (k.sched.proc p).state = .running)
    (h : k.wait p = .ok (r, k')) :
    (k'.con = k.con ∧ Keep k.sched k'.sched ∧ SameCid k.sched k'.sched) ∨
    ∃ q, (k.sched.proc q).state = .zombie ∧ leaveContainer k.con (k.sched.proc q).cid = .ok k'.con ∧
      Keep (k.sched.upd q PEntry.reaped) k'.sched ∧
      SameCid (k.sched.upd q PEntry.reaped) k'.sched := by
  unfold wait at h
  split at h
  · next q hq =>
    have hst : (k.sched.proc q).parent = some p ∧ (k.sched.proc q).state = .zombie := by
      simpa using List.find?_some hq
    obtain ⟨v, -, h⟩ := of_bind h
    obtain ⟨con, hcon, h⟩ := of_bind h
    cases h
    exact .inr ⟨q, hst.2, hcon, (cidBy p).user _⟩
  · split at h <;> cases h
    · exact .inl ⟨rfl, (cidBy p).user _⟩
    · exact .inl ⟨rfl, (cidBy p).sleep trivial hp⟩

/-- A process of container `cid` leaves it. -/
theorem leaveContainer_spec (h : leaveContainer con cid = .ok con') (c : Fin MAX_NUM_CONTAINERS) :
    (con' c).alive = (con c).alive ∧ (con' c).maxProc = (con c).maxProc ∧
      (con' c).activeProcesses = if cid = c ∧ 0 < (con c).activeProcesses
        then (con c).activeProcesses - 1 else (con c).activeProcesses := by
  unfold leaveContainer at h
  split at h
  · obtain ⟨d, hd, h⟩ := of_bind h
    have hcd := conIndex_eq_ok hd
    cases h
    by_cases e : c = d
    · subst e
      simp [hcd]
    · rw [update_of_ne e]
      exact ⟨rfl, rfl, (if_neg fun hc => e (Fin.ext (by omega))).symm⟩
  · cases h
    exact ⟨rfl, rfl, (if_neg fun hc => by omega).symm⟩

/-! ### What a step does to a container -/

/-- What an operation can do to container `c`, as far as its limit goes. -/
inductive ConStep (k k' : Kernel) (c : Fin MAX_NUM_CONTAINERS) : Op → Prop where
  /-- The count stays and no process enters. -/
  | same {op : Op} (ha : (k'.con c).activeProcesses = (k.con c).activeProcesses)
      (hm : (k'.sched.members c).card ≤ (k.sched.members c).card) : ConStep k k' c op
  /-- `fork2` raises the count, and a process may enter. -/
  | enter {p : Slot} (hadm : ¬ ((k.con c).alive ∧
        (k.con c).activeProcesses > (k.con c).maxProc + 1))
      (ha : (k'.con c).activeProcesses = (k.con c).activeProcesses + 1)
      (hm : (k'.sched.members c).card ≤ (k.sched.members c).card + 1) :
      ConStep k k' c (.fork2 p c)
  /-- A zombie is reaped and the count lowered. -/
  | leave {op : Op} (hpos : 0 < (k.con c).activeProcesses)
      (ha : (k'.con c).activeProcesses = (k.con c).activeProcesses - 1)
      (hm : (k'.sched.members c).card + 1 ≤ (k.sched.members c).card) : ConStep k k' c op

/-- The limit of `c` is not touched, and `ConStep` says what happens to its processes. -/
def ConMove (k k' : Kernel) (c : Fin MAX_NUM_CONTAINERS) (op : Op) : Prop :=
  ((k'.con c).alive = (k.con c).alive ∧ (k'.con c).maxProc = (k.con c).maxProc) ∧ ConStep k k' c op

/-- No container changes, and every slot keeps its container. -/
structure Aside (k k' : Kernel) : Prop where
  con : k'.con = k.con
  cid : SameCid k.sched k'.sched

theorem Aside.refl (k : Kernel) : Aside k k := ⟨rfl, .refl _⟩

theorem Aside.trans (h₁ : Aside k k₁) (h₂ : Aside k₁ k') : Aside k k' :=
  ⟨h₂.con.trans h₁.con, h₁.cid.trans h₂.cid⟩

/-- What a call is, for the containers. -/
inductive ConKind (k k' : Kernel) : Op → Prop where
  /-- Neither the containers nor their processes change. -/
  | aside {op : Op} (hcon : k'.con = k.con)
      (hm : ∀ c, k'.sched.members c = k.sched.members c) : ConKind k k' op
  | fork2 {p : Slot} {cid r : Int} (h : k.fork2 p cid = .ok (r, k')) :
      ConKind k k' (.fork2 p cid)
  | wait {op : Op} {p : Slot} {r : Option Int} (hp : (k.sched.proc p).state = .running)
      (h : k.wait p = .ok (r, k')) : ConKind k k' op

theorem Aside.kind (h : Aside k k' ∧ Keep k.sched k'.sched) : ConKind k k' op :=
  .aside h.1.con (h.2.members h.1.cid)

theorem conMove_fork2 (h : k.fork2 p cid = .ok (r, k')) : ConMove k k' c (.fork2 p cid) := by
  obtain ⟨np, k₁, ha, hcon⟩ := fork2_con h
  rcases allocproc_con ha with ⟨rfl, rfl⟩ | ⟨i, v, hv, hset⟩
  · -- refused before anything changed
    have hk : k' = k₁ := by
      obtain ⟨x, hx, h⟩ := of_bind h
      rw [ha] at hx
      cases hx
      cases h
      rfl
    subst hk
    exact ⟨⟨rfl, rfl⟩, .same rfl le_rfl⟩
  · obtain ⟨hal, hmax, hact⟩ := setnextproc_admits hset hv c
    rw [← hcon] at hal hmax hact
    refine ⟨⟨hal, hmax⟩, ?_⟩
    have hmem : (cid ≠ c → (k'.sched.members c).card ≤ (k.sched.members c).card) ∧
        (k'.sched.members c).card ≤ (k.sched.members c).card + 1 := by
      rcases fork2_member h with hs | hn
      · rw [hs]; exact ⟨fun _ => le_rfl, Nat.le_succ _⟩
      · exact ⟨fun hc => card_le_card ((hn.members c).1 hc), (hn.members c).2⟩
    rcases hact with ⟨hne, hact⟩ | ⟨rfl, hact, hadm⟩
    · exact .same hact (hmem.1 hne)
    · exact .enter hadm hact hmem.2

theorem conMove_wait {r : Option Int} (hp : (k.sched.proc p).state = .running)
    (h : k.wait p = .ok (r, k')) : ConMove k k' c op := by
  rcases wait_con hp h with ⟨hcon, hk, hc⟩ | ⟨q, hz, hleave, hk, hc⟩
  · exact ⟨by simp [hcon], .same (by rw [hcon]) (hk.members hc c ▸ le_rfl)⟩
  obtain ⟨hal, hmax, hact⟩ := leaveContainer_spec hleave c
  have hmem := congrArg card (members_reaped hk hc c)
  refine ⟨⟨hal, hmax⟩, ?_⟩
  split at hact
  · next hc =>
    have hq : q ∈ k.sched.members c := mem_members.mpr ⟨by simp [hz], hc.1⟩
    refine .leave hc.2 hact ?_
    have := card_erase_add_one hq
    omega
  · exact .same hact (hmem.le.trans card_erase_le)

theorem aside_deletes (p : Slot) : Deletes p fun k k' => Aside k k' ∧ Keep k.sched k'.sched where
  refl k := ⟨.refl k, .refl _⟩
  trans h₁ h₂ := ⟨h₁.1.trans h₂.1, h₁.2.trans h₂.2⟩
  wakeup _ _ := ⟨⟨rfl, ((cidBy p).wakeup1 _ _).2⟩, (calm.wakeup1 _ _).keep⟩
  unlock _ _ := ⟨⟨rfl, .refl _⟩, .refl _⟩
  count _ _ _ := ⟨⟨rfl, .refl _⟩, .refl _⟩
  handle _ _ _ := ⟨⟨rfl, .refl _⟩, .refl _⟩

theorem aside_locks (p : Slot) : CvLocks p fun k k' => Aside k k' ∧ Keep k.sched k'.sched where
  toUnlocks := (aside_deletes p).toUnlocks
  user _ := ⟨⟨rfl, ((cidBy p).user _).2⟩, (calm_context _ _).keep⟩
  sleep _ hp := ⟨⟨rfl, ((cidBy p).sleep trivial hp).2⟩, (calm_sleep hp).keep⟩
  lock _ _ := ⟨⟨rfl, .refl _⟩, .refl _⟩
  cvCount _ _ _ := ⟨⟨rfl, .refl _⟩, .refl _⟩
  cvSleep _ _ hp := ⟨⟨rfl, ((cidBy p).sleep trivial hp).2⟩, (calm_sleep hp).keep⟩

/-- A process that exits stays in its container until it is reaped. -/
theorem kind_exit (hp : k.inUser p) (h : k.exit p = .ok k') : ConKind k k' op := by
  obtain ⟨-, v, s, -, hr, rfl⟩ := exit_cases h
  obtain ⟨⟨hcon, hc⟩, -⟩ := (aside_deletes p).exitLocks (List.finRange MUX_MAXNUM)
    { k with vm := v, sched := s }
  have hs : SameCid k.sched s := ((cidBy p).wakeParent k.sched p).2.trans
    (((cidBy p).abandon p fun _ _ _ hp => ⟨⟨rfl, .rfl, .rfl, fun h => by
      rw [hp] at h; cases h⟩, rfl⟩).2.trans (frame_removeNode hr).sameCid)
  have hkeep := exit_keep v hr
  refine .aside (by simp [hcon]) (SameCid.members (hs.trans (hc.trans ?_)) fun i => ?_)
  · dsimp only
    exact sameCid_upd rfl
  · by_cases e : i = p
    · subst e; simp [hp.1]
    · rw [upd_proc_ne e]; exact (hkeep.entry i).unused

/-! ### Steps and runs -/

/-- A system call, an interrupt or a round of the scheduler, after booting, that does not set the
limits of containers. -/
def Op.isCall : Op → Bool
  | .allocFirst | .userinit _ | .containers _ => false
  | _ => true

/-- What a step is, for the containers. -/
theorem kind_step (hs : Step k op k') (ho : op.isCall) : ConKind k k' op := by
  obtain ⟨he, r, h⟩ := hs
  cases op with
  | allocFirst | userinit p | containers con => cases ho
  | fork2 p cid =>
    obtain ⟨⟨x, k₁⟩, h₁, h⟩ := of_bind h
    cases h; exact .fork2 h₁
  | exit p =>
    obtain ⟨k₁, h₁, h⟩ := of_bind h
    cases h; exact kind_exit he h₁
  | wait p => exact .wait he.1 h
  | sleep p addr =>
    cases h
    exact Aside.kind ⟨⟨rfl, ((cidBy p).sleep trivial he.1).2⟩, ((cidBy p).sleep trivial he.1).1⟩
  | resume p => exact ((aside_locks p).resume he.1 h).elim Aside.kind (.wait he.1)
  | mutexCreate p name =>
    obtain ⟨x, h₁, h⟩ := of_bind h
    cases h; exact Aside.kind ⟨⟨rfl, .refl _⟩, .refl _⟩
  | mutexGet p name => cases h; exact Aside.kind ⟨⟨rfl, .refl _⟩, .refl _⟩
  | mutexDelete p muxid => cases h; exact Aside.kind ((aside_deletes p).mutexDelete k muxid)
  | mutexLock p muxid =>
    rw [← Res.snd_of_ok h]; exact Aside.kind ((aside_locks p).mutexLock muxid he.1)
  | mutexUnlock p muxid => cases h; exact Aside.kind ((aside_locks p).mutexUnlock k p muxid)
  | cvWait p muxid => exact Aside.kind ((aside_locks p).cvWait he.1 h)
  | cvSignal p muxid => cases h; exact Aside.kind ((aside_locks p).cvSignal k p muxid)
  | _ =>
    obtain ⟨hc, -, hcon⟩ := (cidBy 0).bare Sched.Frame.cid
      (fun _ _ _ _ _ _ => ⟨⟨rfl, .rfl, .rfl, id⟩, rfl⟩) he h rfl
    exact Aside.kind ⟨⟨hcon.resolve_right (by simp), hc.2⟩, hc.1⟩

/-- What a step does to container `c`. -/
theorem conMove_step (hs : Step k op k') (ho : op.isCall) : ConMove k k' c op := by
  cases kind_step hs ho with
  | aside hcon hm => exact ⟨by simp [hcon], .same (by rw [hcon]) (by rw [hm])⟩
  | fork2 h => exact conMove_fork2 h
  | wait hp h => exact conMove_wait hp h

/-- The system calls that set limits do not write the count. -/
def keepsActive (k : Kernel) : Op → Bool
  | .containers con => ∀ c, (con c).activeProcesses = (k.con c).activeProcesses
  | _ => true

/-- The count is never negative. -/
theorem active_nonneg {m : Kmem} {t : List (Kernel × Op)} (hr : Run Step (boot m) t k)
    (hok : ∀ x ∈ t, keepsActive x.1 x.2) (c : Fin MAX_NUM_CONTAINERS) :
    0 ≤ (k.con c).activeProcesses := by
  refine (hr.inv (I := fun k => 0 ≤ (k.con c).activeProcesses)
    (fun k op k' hi hs (hk : k.keepsActive op = true) => ?_) le_rfl hok).2
  by_cases ho : op.isCall
  · obtain ⟨-, hstep⟩ := conMove_step (c := c) hs ho
    cases hstep with
    | same ha _ => omega
    | enter _ ha _ => omega
    | leave hpos ha _ => omega
  · obtain ⟨he, r, h⟩ := hs
    cases op <;> simp only [Op.isCall, not_true_eq_false] at ho
    case allocFirst =>
      obtain ⟨⟨x, k₁⟩, h₁, h⟩ := of_bind h
      cases h
      rcases allocproc_con h₁ with ⟨-, rfl⟩ | ⟨i, v, hv, hset⟩
      · exact hi
      · rcases (setnextproc_admits hset hv c).2.2 with ⟨-, ha⟩ | ⟨hc, -⟩
        · omega
        · have := c.2; omega
    case userinit p =>
      obtain ⟨k₁, h₁, h⟩ := of_bind h
      obtain ⟨v, -, h₁⟩ := of_bind h₁
      cases h₁
      cases h
      exact hi
    case containers con =>
      cases h
      exact (of_decide_eq_true hk c).symm ▸ hi

/-- The count of container `c` is at least its number of processes, which is within the limit
`m`. -/
structure LimitInv (c : Fin MAX_NUM_CONTAINERS) (m : Int) (k : Kernel) : Prop where
  alive : (k.con c).alive = true
  maxProc : (k.con c).maxProc = m
  counted : ((k.sched.members c).card : Int) ≤ (k.con c).activeProcesses
  limit : ((k.sched.members c).card : Int) ≤ m

/-- The condition on a step: no `fork2` into `c` while `active_processes` is `max_proc` or one
more. -/
def LimitOk (c : Fin MAX_NUM_CONTAINERS) (k : Kernel) (op : Op) : Prop :=
  (∃ p, op = .fork2 p c) → (k.con c).activeProcesses < (k.con c).maxProc ∨
    (k.con c).maxProc + 1 < (k.con c).activeProcesses

instance (c : Fin MAX_NUM_CONTAINERS) (k : Kernel) (op : Op) : Decidable (LimitOk c k op) :=
  inferInstanceAs (Decidable (_ → _))

theorem limitInv_step {m : Int} (hi : LimitInv c m k) (hs : Step k op k') (ho : op.isCall)
    (hok : LimitOk c k op) : LimitInv c m k' := by
  obtain ⟨⟨hal, hmax⟩, hstep⟩ := conMove_step (c := c) hs ho
  obtain ⟨h₁, h₂, h₃, h₄⟩ := hi
  refine ⟨hal.trans h₁, hmax.trans h₂, ?_, ?_⟩
  · cases hstep with
    | same ha hm => omega
    | enter _ ha hm => omega
    | leave _ ha hm => omega
  · cases hstep with
    | same _ hm => omega
    | enter hadm _ hm =>
      -- admitted, so the count was not above `max_proc + 1`: it was below `max_proc`
      rcases hok ⟨_, rfl⟩ with hlt | hgt
      · omega
      · exact absurd ⟨h₁, hgt⟩ hadm
    | leave _ _ hm => omega

/-- **The limit of a container.**  From a reachable state in which `c` is alive with limit
`m ≥ 1` and has no process, in every run of calls in which no `fork2` into `c` is made while
`active_processes` is `max_proc` or `max_proc + 1`, the container has at most `m` processes in
every state reached. -/
theorem container_limit {mem : Kmem} {t₀ t : List (Kernel × Op)} {k₀ k : Kernel} {m : Int}
    (hr₀ : Run Step (boot mem) t₀ k₀) (hcalls₀ : ∀ x ∈ t₀, keepsActive x.1 x.2)
    (halive : (k₀.con c).alive = true) (hmax : (k₀.con c).maxProc = m) (hm : 1 ≤ m)
    (hempty : k₀.sched.members c = ∅) (hr : Run Step k₀ t k) (hcalls : ∀ x ∈ t, x.2.isCall)
    (hok : ∀ x ∈ t, LimitOk c x.1 x.2) :
    (∀ x ∈ t, ((x.1.sched.members c).card : Int) ≤ m) ∧ ((k.sched.members c).card : Int) ≤ m := by
  have hpos := active_nonneg hr₀ hcalls₀ c
  have h₀ : LimitInv c m k₀ :=
    ⟨halive, hmax, by simpa [hempty] using hpos, by simp [hempty]; omega⟩
  have hinv := hr.inv (I := LimitInv c m)
    (fun k op k' hi hs (hok : op.isCall ∧ LimitOk c k op) => limitInv_step hi hs hok.1 hok.2) h₀
    fun x hx => ⟨hcalls x hx, hok x hx⟩
  exact ⟨fun x hx => (hinv.1 x hx).limit, hinv.2.limit⟩

/-- 210 free pages, enough for three processes. -/
def threeMem : Kmem := ⟨1024, List.range' 1024 210⟩

/-- Container 0. -/
def con0 : Fin MAX_NUM_CONTAINERS := ⟨0, by decide⟩

/-- Container 0 is alive with `max_proc = m`. -/
def limitedTo (m : Int) : Containers :=
  update (fun _ => ⟨false, 0, 0, 0⟩) con0 ⟨true, m, 0, 0⟩

/-- The first process has made container 0 alive, with the limit `m`. -/
def limitOps (m : Int) : List Op := [.allocFirst, .userinit 0, .scheduler, .containers (limitedTo m)]

/-- With the limit 1, a process enters the container, exits and is reaped, and another enters. -/
theorem container_limit_one : ∃ k₀ t k, Run Step k₀ t k ∧ (k.sched.members con0).card = 1 ∧
    (∀ x ∈ t, ((x.1.sched.members con0).card : Int) ≤ 1) ∧
    ((k.sched.members con0).card : Int) ≤ 1 := by
  let ops : List Op := [.fork2 0 0, .scheduler, .exit 1, .wait 0, .fork2 0 0]
  obtain ⟨k₀, hr₀, ⟨ha, hm, he⟩, hrun, hops⟩ := exists_run step_of_exec? (boot smallMem) (limitOps 1)
    (fun k => ((k.con con0).alive = true ∧ (k.con con0).maxProc = 1 ∧ k.sched.members con0 = ∅) ∧
      (runFn exec? k ops).any (fun k' => (k'.sched.members con0).card = 1) = true ∧
      ∀ x ∈ traceFn exec? k ops, x.2.isCall = true ∧ LimitOk con0 x.1 x.2) (by decide +kernel)
  obtain ⟨k, hr, hk⟩ := exists_run step_of_exec? k₀ ops _ hrun
  exact ⟨k₀, _, k, hr, hk, container_limit hr₀ (by decide +kernel) ha hm le_rfl he hr
    (fun x hx => (hops x hx).1) fun x hx => (hops x hx).2⟩

/-- **Over the limit.**  Two processes enter a container whose limit is 1. -/
theorem limit_exceeded : ∃ t₀ k₀ t k, Run Step (boot threeMem) t₀ k₀ ∧
    (∀ x ∈ t₀, x.1.keepsActive x.2 = true) ∧
    ((k₀.con con0).alive = true ∧ (k₀.con con0).maxProc = 1 ∧ k₀.sched.members con0 = ∅) ∧
    Run Step k₀ t k ∧ (∀ x ∈ t, x.2 = .fork2 0 0) ∧ 1 < (k.sched.members con0).card := by
  obtain ⟨k₀, hr₀, hk₀, hrun, hops⟩ := exists_run step_of_exec? (boot threeMem) (limitOps 1)
    (fun k => ((k.con con0).alive = true ∧ (k.con con0).maxProc = 1 ∧ k.sched.members con0 = ∅) ∧
      (runFn exec? k [.fork2 0 0, .fork2 0 0]).any
        (fun k' => 1 < (k'.sched.members con0).card) = true ∧
      ∀ x ∈ traceFn exec? k [.fork2 0 0, .fork2 0 0], x.2 = .fork2 0 0) (by decide +kernel)
  obtain ⟨k, hr, hk⟩ := exists_run step_of_exec? k₀ [.fork2 0 0, .fork2 0 0] _ hrun
  exact ⟨_, k₀, _, k, hr₀, by decide +kernel, hk₀, hr, hops, hk⟩

end Kernel

end Xv6
