import Xv6.Kernel.Life

/-!
# Kernel — Sections

The kernel at the granularity of `ptable.lock`.  The operations of `System.lean` are one section
each, except `fork2` and `exit`, which let go of the lock and take it again:

* `fork2` finds and marks its slot in one section (`forkBegin`), fills it without the lock
  (`forkBody`), and makes the child RUNNABLE in another (`forkEnd`);
* `exit` wakes its parent, gives its children away and walks over its handles; at a mutex that it
  owns it lets go of the lock (`exitBegin`), releases the mutex (`exitRelease`), takes the lock
  again and walks on (`exitEnd`).  It becomes a ZOMBIE at the end of the walk.

`Place` says where in these two functions a process is.  A step of `System.lean` is a run of this
system in which the process is not interrupted (`sections_of_step`).
-/

namespace Xv6

open Lib Sched

/-- What `fork2` does to the scheduling fields of the child without `ptable.lock`. -/
def Sched.childSetup (s : Sched) (p np : Slot) (cid : Int) : Res Sched :=
  let priority := s.childPriority p np
  pq1Enqueue (s.upd np fun e => { e with cid := cid, parent := some p, priority := priority })
    np priority

theorem child_eq (s : Sched) (p np : Slot) (cid : Int) : s.child p np cid = (do
      let s ← s.childSetup p np cid
      return s.upd np fun e => { e with state := .runnable }) := rfl

/-- Where a process is in `fork2` or `exit`, without `ptable.lock`. -/
inductive Place where
  | outside
  /-- `fork2`, with the slot that `allocproc` marked. -/
  | fork (np : Slot) (cid : Int)
  /-- `fork2`, before its last section. -/
  | forked (np : Slot)
  /-- `exit`, to release the mutex of handle `i`; then the handles `is` are left. -/
  | exit (i : Fin MUX_MAXNUM) (is : List (Fin MUX_MAXNUM))
  /-- `exit`, before it takes the lock again. -/
  | exited (is : List (Fin MUX_MAXNUM))
  deriving DecidableEq

/-- `fork2` is at work on slot `np`. -/
def Place.Forking (np : Slot) : Place → Prop
  | .fork m _ => m = np
  | .forked m => m = np
  | _ => False

/-- `exit` has let go of the lock. -/
def Place.Walking : Place → Prop
  | .exit _ _ => True
  | .exited _ => True
  | _ => False

instance : ∀ pl : Place, Decidable pl.Walking
  | .exit _ _ | .exited _ => inferInstanceAs (Decidable True)
  | .outside | .fork _ _ | .forked _ => inferInstanceAs (Decidable False)

/-- The kernel, and where each process is. -/
structure Fine where
  kernel : Kernel
  place : Slot → Place

/-- A section. -/
inductive FineOp where
  | call (op : Kernel.Op)
  | forkBegin (p : Slot) (cid : Int)
  | forkBody (p : Slot)
  | forkEnd (p : Slot)
  | exitBegin (p : Slot)
  | exitRelease (p : Slot)
  | exitEnd (p : Slot)
  deriving DecidableEq

namespace Kernel

/-! ### The sections of `fork2` -/

/-- The section of `allocproc`: a slot is marked. -/
def allocSection (k : Kernel) (cid : Int) : Res (Option Slot × Kernel) := do
  match (List.finRange NPROC).find? fun i => (k.sched.proc i).state = .unused with
  | none => return (none, k)
  | some i =>
    let (r, con) ← setnextproc k.con cid i
    if r < 0 then return (none, k)
    let s ← k.sched.embryo i
    return (some i, { k with sched := s, con := con })

/-- The rest of `allocproc`, and `fork2` up to its last section; `false` when memory runs out. -/
def forkBody (k : Kernel) (p np : Slot) (cid : Int) : Res (Bool × Kernel) := do
  match k.vm.allocKstack np with
  | (false, vm) => return (false, { k with sched := k.sched.upd np PEntry.free, vm := vm })
  | (true, vm) =>
    let mux ← k.mux.initLocks (some p) np (k.sched.proc np).pid
    let s := k.sched.upd np fun e => { e with context := .user }
    match ← vm.copyMem p np with
    | (false, vm) =>
      let vm ← vm.freeKstack np
      return (false, { k with sched := s.upd np PEntry.free, vm := vm, mux := mux })
    | (true, vm) =>
      let s ← s.childSetup p np cid
      return (true, { k with sched := s, vm := vm.inherit p np, mux := mux })

/-- The last section of `fork2`. -/
def forkEnd (k : Kernel) (np : Slot) : Kernel :=
  { k with sched := k.sched.upd np fun e => { e with state := .runnable } }

/-! ### The sections of `exit` -/

/-- `curproc->state = ZOMBIE`. -/
def zombie (k : Kernel) (p : Slot) : Kernel :=
  { k with sched := k.sched.upd p fun e => { e with state := .zombie } }

/-- The walk of `exit` over the handles `is` of `p`, up to the first mutex that it owns. -/
def exitWalk (p : Slot) : List (Fin MUX_MAXNUM) → Kernel → Kernel × Place
  | [], k => (k.zombie p, .outside)
  | i :: is, k =>
    match k.mux.locks p i with
    | none => exitWalk p is k
    | some g =>
      let k := { k with mux := k.mux.addCount g (-1) }
      if k.owns p g then (k, .exit i is) else exitWalk p is k

/-- `exit()` called by `p`, up to the first time it lets go of `ptable.lock`. -/
def exitBegin (k : Kernel) (p : Slot) : Res (Kernel × Place) := do
  if k.sched.initproc = some p then throw (.panic "init exiting")
  let vm ← Vm.exitShm p (List.finRange SHM_MAXNUM) k.vm
  let s ← ((k.sched.wakeParent p).abandon p).removeNode p
  return exitWalk p (List.finRange MUX_MAXNUM) { k with vm := vm, sched := s }

end Kernel

namespace Fine

open Kernel

/-- A process moves to another place. -/
def put (f : Fine) (p : Slot) (k : Kernel) (pl : Place) : Fine :=
  ⟨k, Function.update f.place p pl⟩

/-- Where the process that makes the call has to be. -/
def callFrom (f : Fine) : Op → Prop
  | .fork2 _ _ | .exit _ => False
  | .allocFirst | .scheduler | .wakeup _ | .containers _ => True
  | .userinit _ => f.kernel.sched.initproc = none
  -- a clock interrupt can come in `fork2`; `exit` lets go of the lock with interrupts off
  | .yield p => ¬ (f.place p).Walking
  | .wait p | .kill p _ | .prioSet p _ _ | .sleep p _ | .resume p | .growproc p _ | .exec p _ _
  | .shmGet p _ | .shmRem p _ | .mutexCreate p _ | .mutexGet p _ | .mutexDelete p _
  | .mutexLock p _ | .mutexUnlock p _ | .cvWait p _ | .cvSignal p _ => f.place p = .outside

instance (f : Fine) : ∀ op, Decidable (f.callFrom op) := fun op => by
  rcases op <;> dsimp only [callFrom] <;> infer_instance

/-- When a section can be executed. -/
def Enabled (f : Fine) : FineOp → Prop
  | .call op => f.kernel.Enabled op ∧ f.callFrom op
  | .forkBegin p _ =>
    f.kernel.inUser p ∧ f.place p = .outside ∧ f.kernel.sched.initproc ≠ none
  | .exitBegin p => f.kernel.inUser p ∧ f.place p = .outside
  | .forkBody p => (f.kernel.sched.proc p).state = .running ∧ ∃ np cid, f.place p = .fork np cid
  | .forkEnd p => (f.kernel.sched.proc p).state = .running ∧ ∃ np, f.place p = .forked np
  | .exitRelease p => (f.kernel.sched.proc p).state = .running ∧ ∃ i is, f.place p = .exit i is
  | .exitEnd p => (f.kernel.sched.proc p).state = .running ∧ ∃ is, f.place p = .exited is

/-- The next section of a process in `fork2` or `exit`. -/
def next (p : Slot) : Place → Option FineOp
  | .outside => none
  | .fork _ _ => some (.forkBody p)
  | .forked _ => some (.forkEnd p)
  | .exit _ _ => some (.exitRelease p)
  | .exited _ => some (.exitEnd p)

instance (f : Fine) : ∀ op, Decidable (f.Enabled op)
  | .call _ => inferInstanceAs (Decidable (_ ∧ _))
  | .forkBegin _ _ => inferInstanceAs (Decidable (_ ∧ _))
  | .exitBegin _ => inferInstanceAs (Decidable (_ ∧ _))
  | .forkBody p => decidable_of_iff (_ ∧ next p (f.place p) = some (.forkBody p))
      (and_congr_right' (by cases f.place p <;> simp [next]))
  | .forkEnd p => decidable_of_iff (_ ∧ next p (f.place p) = some (.forkEnd p))
      (and_congr_right' (by cases f.place p <;> simp [next]))
  | .exitRelease p => decidable_of_iff (_ ∧ next p (f.place p) = some (.exitRelease p))
      (and_congr_right' (by cases f.place p <;> simp [next]))
  | .exitEnd p => decidable_of_iff (_ ∧ next p (f.place p) = some (.exitEnd p))
      (and_congr_right' (by cases f.place p <;> simp [next]))

/-- The state after a section. -/
def step (f : Fine) : FineOp → Res Fine
  | .call op => do
    let (_, k) ← f.kernel.step op
    return { f with kernel := k }
  | .forkBegin p cid => do
    match ← f.kernel.allocSection cid with
    | (none, k) => return { f with kernel := k }
    | (some np, k) => return f.put p k (.fork np cid)
  | .forkBody p =>
    match f.place p with
    | .fork np cid => do
      let (ok, k) ← f.kernel.forkBody p np cid
      return f.put p k (if ok then .forked np else .outside)
    | _ => .ok f
  | .forkEnd p =>
    match f.place p with
    | .forked np => .ok (f.put p (f.kernel.forkEnd np) .outside)
    | _ => .ok f
  | .exitBegin p => do
    let (k, pl) ← f.kernel.exitBegin p
    return f.put p k pl
  | .exitRelease p =>
    match f.place p with
    | .exit i is =>
      match f.kernel.mux.locks p i with
      | none => .error (.fault "mutexes: index out of range")
      | some g => .ok (f.put p (f.kernel.releasesleep g) (.exited is))
    | _ => .ok f
  | .exitEnd p =>
    match f.place p with
    | .exited is =>
      let (k, pl) := exitWalk p is f.kernel
      .ok (f.put p k pl)
    | _ => .ok f

/-- One section of the kernel. -/
def Step (f : Fine) (op : FineOp) (f' : Fine) : Prop := f.Enabled op ∧ f.step op = .ok f'

/-- No process is in `fork2` or `exit`. -/
def quiet (k : Kernel) : Fine := ⟨k, fun _ => .outside⟩

/-- The state after a section that can be executed. -/
def exec? (f : Fine) (op : FineOp) : Option Fine :=
  if f.Enabled op then
    match f.step op with
    | .ok f' => some f'
    | .error _ => none
  else none

theorem step_of_exec? (f : Fine) (op : FineOp) (f' : Fine) (h : f.exec? op = some f') :
    Step f op f' := by
  unfold exec? at h
  split at h
  · next he =>
    split at h
    · next f₁ hs => cases h; exact ⟨he, hs⟩
    · cases h
  · cases h

/-! ### Uninterrupted sections -/

variable {k k' : Kernel} {p : Slot} {op : Op}

theorem put_outside (k k' : Kernel) (p : Slot) : (quiet k).put p k' .outside = quiet k' := by
  simp [put, quiet]

theorem put_put (f : Fine) (p : Slot) (k k' : Kernel) (pl pl' : Place) :
    (f.put p k pl).put p k' pl' = f.put p k' pl' := by simp [put]

theorem put_place (f : Fine) (p : Slot) (k : Kernel) (pl : Place) :
    (f.put p k pl).place p = pl := by
  simp [put]

/-- A section of the call `op` in the state `c`: of `fork2` or of `exit`, or the call itself. -/
def Part (c : Kernel) (op : Op) (f : Fine) (o : FineOp) (f' : Fine) : Prop :=
  Step f o f' ∧ ∀ o', o = .call o' → o' = op ∧ f = quiet c

/-- From the place `pl`, the sections of `p` alone lead out of the call and to the kernel `k'`. -/
def Leads (c : Kernel) (op : Op) (p : Slot) (k : Kernel) (pl : Place) (k' : Kernel) : Prop :=
  Reach (Part c op) ((quiet k).put p k pl) (quiet k')

variable {c k₁ : Kernel} {pl pl' : Place} {o : FineOp}

theorem Leads.done : Leads c op p k .outside k := ⟨[], by rw [put_outside]; exact .refl _⟩

/-- From a place in the walk of `exit`, its sections one after the other do the whole loop. -/
theorem Leads.exitWalk (p : Slot) : ∀ (is : List (Fin MUX_MAXNUM)) (k : Kernel),
    (k.sched.proc p).state = .running →
    Leads c op p (exitWalk p is k).1 (exitWalk p is k).2 ((exitLocks p is k).zombie p)
  | [], k, _ => .done
  | i :: is, k, hp => by
    have hlock : exitLocks p (i :: is) k = exitLocks p is (exitLock p k i) := rfl
    rw [hlock]
    cases hg : k.mux.locks p i with
    | none =>
      simp only [Kernel.exitWalk, exitLock, hg]
      exact exitWalk p is k hp
    | some g =>
      simp only [Kernel.exitWalk, exitLock, hg]
      split
      · -- the mutex is released between two sections
        let k₁ : Kernel := { k with mux := k.mux.addCount g (-1) }
        have hp₂ : ((k₁.releasesleep g).sched.proc p).state = .running := by
          simp [k₁, releasesleep, wakeup1, hp]
        have h₂ : Leads c op p (k₁.releasesleep g) (.exited is)
            ((exitLocks p is (k₁.releasesleep g)).zombie p) := by
          refine Reach.step (a := .exitEnd p) ⟨⟨⟨hp₂, is, put_place _ _ _ _⟩, ?_⟩, by simp⟩
            (exitWalk p is (k₁.releasesleep g) hp₂)
          simp only [step, put_place, put_put]
          rfl
        show Leads c op p k₁ (.exit i is) _
        refine Reach.step (a := .exitRelease p) ⟨⟨⟨hp, i, is, put_place _ _ _ _⟩, ?_⟩, by simp⟩ h₂
        have hl : ((quiet k₁).put p k₁ (.exit i is)).kernel.mux.locks p i = some g := hg
        simp only [step, put_place, hl, put_put]
        rfl
      · exact exitWalk p is { k with mux := k.mux.addCount g (-1) } hp

theorem wakeup1_running {s : Sched} (chan : Chan) (h : (s.proc p).state = .running) :
    ((s.wakeup1 chan).proc p).state = .running := by
  simp [wakeup1, h]

theorem reparent_state (s : Sched) (p i : Slot) :
    ((s.reparent p).proc i).state = (s.proc i).state := by
  simp only [reparent]
  split <;> rfl

/-- Waking its parent and giving its children away does not stop a process. -/
theorem abandon_running {s : Sched} (h : (s.proc p).state = .running) :
    (((s.wakeParent p).abandon p).proc p).state = .running := by
  have h₁ : ((s.wakeParent p).proc p).state = .running := by
    unfold wakeParent
    split
    · exact h
    · exact wakeup1_running _ h
  have h₂ := (reparent_state (s.wakeParent p) p p).trans h₁
  unfold abandon
  split
  · split
    · exact h₂
    · exact wakeup1_running _ h₂
  · exact h₂

/-- The sections of `exit`. -/
theorem exit_sections (hp : k.inUser p) (h : k.exit p = .ok k') :
    Reach (Part c op) (quiet k) (quiet k') := by
  obtain ⟨hi, v, s, hv, hs, rfl⟩ := exit_cases h
  have hrun : (s.proc p).state = .running := by
    rw [(frame_removeNode hs).state]
    exact abandon_running hp.1
  refine Reach.step (a := .exitBegin p) ⟨⟨⟨hp, rfl⟩, ?_⟩, nofun⟩
    (Leads.exitWalk p (List.finRange MUX_MAXNUM) { k with vm := v, sched := s } hrun)
  have hb : k.exitBegin p =
      .ok (exitWalk p (List.finRange MUX_MAXNUM) { k with vm := v, sched := s }) := by
    unfold exitBegin
    rw [if_neg hi, hv]
    simp only [Res.ok_bind, hs]
    rfl
  show (do
    let (k₁, pl) ← k.exitBegin p
    return (quiet k).put p k₁ pl) = _
  rw [hb]
  rfl

theorem embryo_state {s s' : Sched} {i j : Slot} (h : s.embryo i = .ok s') (hj : j ≠ i) :
    (s'.proc j).state = (s.proc j).state := by
  rw [(frame_embryo h).state, newborn_ne hj]

/-- `forkBegin` that finds no slot. -/
theorem forkBegin_none (cid : Int) (hp : k.inUser p) (hi : k.sched.initproc ≠ none)
    (h : k.allocSection cid = .ok (none, k')) : Reach (Part c op) (quiet k) (quiet k') := by
  refine Reach.one (a := .forkBegin p cid) ⟨⟨⟨hp, rfl, hi⟩, ?_⟩, nofun⟩
  have hs : (quiet k).kernel.allocSection cid = .ok (none, k') := h
  simp only [step, hs]
  rfl

theorem Leads.forkBegin {cid : Int} {np : Slot} (h : Leads c op p k₁ (.fork np cid) k')
    (hp : k.inUser p) (hi : k.sched.initproc ≠ none)
    (hs : k.allocSection cid = .ok (some np, k₁)) : Reach (Part c op) (quiet k) (quiet k') := by
  refine Reach.step (a := .forkBegin p cid) ⟨⟨⟨hp, rfl, hi⟩, ?_⟩, nofun⟩ h
  have hs : (quiet k).kernel.allocSection cid = .ok (some np, k₁) := hs
  simp only [step, hs]
  rfl

theorem Leads.forkBody {np : Slot} {cid : Int} (b : Bool)
    (h : Leads c op p k₁ (if b then .forked np else .outside) k')
    (hp : (k.sched.proc p).state = .running) (hs : k.forkBody p np cid = .ok (b, k₁)) :
    Leads c op p k (.fork np cid) k' := by
  refine Reach.step (a := .forkBody p) ⟨⟨⟨hp, np, cid, put_place _ _ _ _⟩, ?_⟩, nofun⟩ h
  have hs : ((quiet k).put p k (.fork np cid)).kernel.forkBody p np cid = .ok (b, k₁) := hs
  simp only [step, put_place, hs, Res.ok_bind, put_put]
  rfl

theorem Leads.forkEnd {np : Slot} (hp : (k.sched.proc p).state = .running) :
    Leads c op p k (.forked np) (k.forkEnd np) := by
  refine Reach.step (a := .forkEnd p) ⟨⟨⟨hp, np, put_place _ _ _ _⟩, ?_⟩, nofun⟩ (done (p := p))
  simp only [step, put_place, put_put]
  rfl

/-- The sections of `fork2`. -/
theorem fork2_sections {cid r : Int} (hp : k.inUser p) (hi : k.sched.initproc ≠ none)
    (h : k.fork2 p cid = .ok (r, k')) : Reach (Part c op) (quiet k) (quiet k') := by
  obtain ⟨⟨o, k₁⟩, ha, h⟩ := of_bind h
  unfold allocproc at ha
  split at ha
  · next hfind =>
    cases ha
    cases h
    refine forkBegin_none cid hp hi ?_
    simp only [allocSection, hfind]
    rfl
  · next i hfind =>
    have hst : (k.sched.proc i).state = .unused := by simpa using List.find?_some hfind
    have hne : p ≠ i := by rintro rfl; rw [hp.1] at hst; cases hst
    obtain ⟨⟨v, con⟩, hset, ha⟩ := of_bind ha
    dsimp only at ha
    split at ha
    · next hneg =>
      cases ha
      cases h
      refine forkBegin_none cid hp hi ?_
      simp only [allocSection, hfind, hset, Res.ok_bind, if_pos hneg]
      rfl
    · next hpos =>
      obtain ⟨s, hs, ha⟩ := of_bind ha
      have hsec : k.allocSection cid = .ok (some i, { k with sched := s, con := con }) := by
        simp only [allocSection, hfind, hset, Res.ok_bind, if_neg hpos, hs]
        rfl
      have hrun : (s.proc p).state = .running := (embryo_state hs hne).trans hp.1
      refine Leads.forkBegin ?_ hp hi hsec
      split at ha
      · next vm hk =>
        cases ha
        cases h
        exact .forkBody false .done hrun (by simp only [forkBody, hk]; rfl)
      · next vm hk =>
        obtain ⟨mux, hm, ha⟩ := of_bind ha
        cases ha
        dsimp only at h
        obtain ⟨⟨ok, vm₂⟩, hc, h⟩ := of_bind h
        cases ok with
        | false =>
          obtain ⟨vm₃, hf, h⟩ := of_bind h
          cases h
          exact .forkBody false .done hrun
            (by simp only [forkBody, hk, hm, hc, hf, Res.ok_bind]; rfl)
        | true =>
          obtain ⟨s₂, hs₂, h⟩ := of_bind h
          cases h
          rw [child_eq] at hs₂
          obtain ⟨s₁, hs₁, hs₂⟩ := of_bind hs₂
          cases hs₂
          have hrun₁ : (s₁.proc p).state = .running := by
            have hf := (frame_enqueue hs₁).state p
            rw [upd_proc_ne hne, upd_proc_ne hne] at hf
            exact hf.trans hrun
          exact .forkBody true (.forkEnd hrun₁) hrun
            (by simp only [forkBody, hk, hm, hc, hs₁, Res.ok_bind]; rfl)

/-- **Uninterrupted sections.**  A step of the kernel is a run of sections, if `userinit` is
called before there is a first process and `fork2` after. -/
theorem sections_of_step (h : Kernel.Step k op k')
    (hu : ∀ q, op = .userinit q → k.sched.initproc = none)
    (hf : ∀ q cid, op = .fork2 q cid → k.sched.initproc ≠ none) :
    Reach (Part k op) (quiet k) (quiet k') := by
  obtain ⟨he, r, hs⟩ := h
  have hcall : (quiet k).callFrom op → Reach (Part k op) (quiet k) (quiet k') := fun hc => by
    refine .one (a := .call op) ⟨⟨⟨he, hc⟩, ?_⟩, fun o e => ⟨(FineOp.call.inj e).symm, rfl⟩⟩
    have hs' : (quiet k).kernel.step op = .ok (r, k') := hs
    simp only [step, hs']
    rfl
  cases op with
  | fork2 p cid =>
    obtain ⟨⟨c, k₁⟩, h₁, hs⟩ := of_bind hs
    cases hs; exact fork2_sections he (hf p cid rfl) h₁
  | exit p =>
    obtain ⟨k₁, h₁, hs⟩ := of_bind hs
    cases hs; exact exit_sections he h₁
  | userinit q => exact hcall (hu q rfl)
  | yield p => exact hcall fun hw => hw.elim
  | allocFirst | scheduler | wakeup addr | containers con => exact hcall trivial
  | wait p | kill p pid | prioSet p pid priority | sleep p addr | resume p | growproc p n
  | exec p file argv | shmGet p name | shmRem p name | mutexCreate p name | mutexGet p name
  | mutexDelete p muxid | mutexLock p muxid | mutexUnlock p muxid | cvWait p muxid
  | cvSignal p muxid => exact hcall rfl

end Fine

end Xv6
