import Xv6.Kernel.Forest

/-!
# Kernel — Family

Priority is confined to a family.  The family of a process is the process and the processes it has
created, transitively.  As `exit` hands children over to the first process, the parent links do not
record who created whom; `Lineage` does, as history beside the kernel: the pids of the creators of
each process.

If only the family executes `fork2`, `prio_set`, `exit` and `wait`, and pid 2 is not given out,
then the members keep to the priorities that the family started with or higher numbers, and nobody
else has its priority changed (`priority_confined`).  What makes `prio_set` safe is that its
ancestor walk, over the parent links, does not leave the family (`family_of_ancestor`): a link that
is not to the first process is one of creation (`LineageInv`).

The numbers of the family are not bounded below by the priority of its root: a process that has
lowered its own priority has children with the old one (`lowered_below_child`).
-/

namespace Xv6

namespace Kernel

open Lib PEntry Sched
/-- For each slot, the pids of the creators of its process, the last one first. -/
abbrev Lineage := Slot → List Int

/-- The lineages after `op`: a slot that comes into use holds a child of the caller of `fork2`. -/
def lineage (k : Kernel) (op : Op) (k' : Kernel) (L : Lineage) : Lineage := fun i =>
  if (k.sched.proc i).state = .unused ∧ (k'.sched.proc i).state ≠ .unused then
    match op with
    | .fork2 p _ => k.pid p :: L p
    | _ => []
  else L i

/-- One step of the kernel, with the lineages. -/
def LStep (x : Kernel × Lineage) (op : Op) (y : Kernel × Lineage) : Prop :=
  Step x.1 op y.1 ∧ y.2 = lineage x.1 op y.1 x.2

/-- The kernel at boot, without processes. -/
def lboot (m : Kmem) : Kernel × Lineage := (boot m, fun _ => [])

/-- The slot `i` is in use, by the process `pid` or one created by it, transitively. -/
def Family (x : Kernel × Lineage) (pid : Int) (i : Slot) : Prop :=
  (x.1.sched.proc i).state ≠ .unused ∧ (x.1.pid i = pid ∨ pid ∈ x.2 i)

instance (x : Kernel × Lineage) (pid : Int) (i : Slot) : Decidable (Family x pid i) :=
  inferInstanceAs (Decidable (_ ∧ _))

/-- The slot `i` is in use, by a process outside the family of `pid`. -/
def Outside (x : Kernel × Lineage) (pid : Int) (i : Slot) : Prop :=
  (x.1.sched.proc i).state ≠ .unused ∧ ¬ Family x pid i

/-- The process `a` executes `fork2`, `prio_set`, `exit` or `wait`. -/
def Acts (k : Kernel) (a : Slot) : Op → Prop
  | .fork2 p _ | .prioSet p _ _ | .exit p | .wait p => p = a
  | .resume p => p = a ∧ (k.sched.proc p).context = .wait
  | _ => False

/-- Only the family of `pid` executes `fork2`, `prio_set`, `exit` and `wait`, and pid 2 is not
given out. -/
structure Within (pid : Int) (x : (Kernel × Lineage) × Op) : Prop where
  family : ∀ a, Acts x.1.1 a x.2 → Family x.1 pid a
  pid : ∀ p cid, x.2 = .fork2 p cid → x.1.1.sched.nextpid ≠ 2

variable {k k' : Kernel} {L L' : Lineage} {x y : Kernel × Lineage} {p q i j np : Slot} {op : Op}
  {pid cid f : Int} {s : Sched}

/-! ### Lineages and parents -/

/-- A parent is the creator of its child, or the first process, which has created everybody. -/
structure LineageInv (x : Kernel × Lineage) : Prop where
  link : ∀ i q, (x.1.sched.proc i).parent = some q →
    x.1.sched.initproc = some q ∨ x.2 i = x.1.pid q :: x.2 q
  first : ∀ i, (x.1.sched.proc i).state ≠ .unused → x.1.pid i = 1 → x.2 i = []
  all : ∀ i, (x.1.sched.proc i).state ≠ .unused → x.1.pid i = 1 ∨ 1 ∈ x.2 i

/-- The invariant of a kernel with its lineages. -/
structure KinInv (x : Kernel × Lineage) : Prop where
  pids : PidInv x.1.sched
  parents : ParentInv x.1.sched
  lineages : LineageInv x

theorem kinInv_boot (m : Kmem) : KinInv (lboot m) where
  pids := .pinit
  parents := .pinit
  lineages := ⟨fun _ _ h => (by cases h), fun _ h => absurd rfl h, fun _ h => absurd rfl h⟩

/-- The lineage of a slot changes only when it comes into use. -/
theorem lineage_of_not (h : ¬ ((k.sched.proc i).state = .unused ∧
    (k'.sched.proc i).state ≠ .unused)) : lineage k op k' L i = L i := if_neg h

/-- The child of `p` in slot `i`. -/
theorem lineage_birth (hi : (k.sched.proc i).state = .unused)
    (hi' : (k'.sched.proc i).state ≠ .unused) :
    lineage k (.fork2 p cid) k' L i = k.pid p :: L p := if_pos ⟨hi, hi'⟩

namespace LineageInv

/-- Every slot keeps its process; a parent link is an old one or leads to the first process. -/
theorem quiet (h : LineageInv x) (hpid : ∀ i, y.1.pid i = x.1.pid i)
    (hu : ∀ i, (y.1.sched.proc i).state = .unused ↔ (x.1.sched.proc i).state = .unused)
    (hL : y.2 = lineage x.1 op y.1 x.2)
    (hlink : ∀ i q, (y.1.sched.proc i).parent = some q → y.1.sched.initproc = some q ∨
      (x.1.sched.proc i).parent = some q ∧ x.1.sched.initproc ≠ some q) : LineageInv y := by
  have hL : ∀ i, y.2 i = x.2 i := fun i => by
    rw [hL]; exact lineage_of_not fun hi => hi.2 ((hu i).mpr hi.1)
  refine ⟨fun i q hq => ?_, fun i hi h1 => ?_, fun i hi => ?_⟩
  · rcases hlink i q hq with hinit | ⟨hq', hne⟩
    · exact .inl hinit
    · right
      rw [hL, hL, hpid]
      exact (h.link i q hq').resolve_left hne
  · rw [hL]; exact h.first i (fun hc => hi ((hu i).mpr hc)) (hpid i ▸ h1)
  · rw [hL, hpid]; exact h.all i fun hc => hi ((hu i).mpr hc)

/-- One slot changes hands; it was and is nobody's parent. -/
theorem slot (h : LineageInv x) (hparent : ∀ j, (x.1.sched.proc j).parent ≠ some i)
    (hinit : y.1.sched.initproc = x.1.sched.initproc)
    (hne : ∀ j, j ≠ i → (y.1.sched.proc j).ident = (x.1.sched.proc j).ident)
    (hL : ∀ j, j ≠ i → y.2 j = x.2 j)
    (hlink : ∀ q, (y.1.sched.proc i).parent = some q → q ≠ i ∧ y.2 i = x.1.pid q :: x.2 q)
    (hfirst : (y.1.sched.proc i).state ≠ .unused → y.1.pid i = 1 → y.2 i = [])
    (hall : (y.1.sched.proc i).state ≠ .unused → y.1.pid i = 1 ∨ 1 ∈ y.2 i) : LineageInv y := by
  have hpid : ∀ j, j ≠ i → y.1.pid j = x.1.pid j := fun j hj => congrArg Ident.pid (hne j hj)
  have hu : ∀ j, j ≠ i → (y.1.sched.proc j).state ≠ .unused →
      (x.1.sched.proc j).state ≠ .unused := fun j hj hy hx => hy (by
    have hph : (y.1.sched.proc j).state.phase = (x.1.sched.proc j).state.phase :=
      congrArg Ident.phase (hne j hj)
    rw [← ProcState.phase_unused, hph, hx]; rfl)
  refine ⟨fun j q hq => ?_, fun j hj h1 => ?_, fun j hj => ?_⟩
  · by_cases e : j = i
    · subst e
      obtain ⟨hqj, hl⟩ := hlink q hq
      exact .inr (by rw [hl, hpid q hqj, hL q hqj])
    · have hq' : (x.1.sched.proc j).parent = some q :=
        (congrArg Ident.parent (hne j e)).symm.trans hq
      have hqi : q ≠ i := fun e => hparent j (e ▸ hq')
      rw [hinit, hL j e, hL q hqi, hpid q hqi]
      exact h.link j q hq'
  · by_cases e : j = i
    · exact e ▸ hfirst (e ▸ hj) (e ▸ h1)
    · rw [hL j e]; exact h.first j (hu j e hj) (hpid j e ▸ h1)
  · by_cases e : j = i
    · exact e ▸ hall (e ▸ hj)
    · rw [hL j e, hpid j e]; exact h.all j (hu j e hj)

end LineageInv

theorem parent_ne_of_unused (h : ParentInv k.sched) (hi : (k.sched.proc i).state = .unused)
    (j : Slot) : (k.sched.proc j).parent ≠ some i := fun hj => (h.live j i hj).1.1 hi

/-- A slot other than `i` keeps its process when only `i` is filled or given up. -/
theorem ident_of_upd {f : PEntry → PEntry} (hk : Kin (s.upd i f) k'.sched) (hj : j ≠ i) :
    (k'.sched.proc j).ident = (s.proc j).ident := by
  rw [hk.ident j, upd_proc_ne hj]

theorem ident_of_newborn (hk : Kin (k.sched.newborn i) k'.sched) (hj : j ≠ i) :
    (k'.sched.proc j).ident = (k.sched.proc j).ident := by
  rw [hk.ident j, newborn_ne hj]

theorem not_unused_of_ident (h : (k'.sched.proc j).ident = (k.sched.proc j).ident) :
    ¬ ((k.sched.proc j).state = .unused ∧ (k'.sched.proc j).state ≠ .unused) := by
  rintro ⟨hx, hy⟩
  refine hy ?_
  have hph : (k'.sched.proc j).state.phase = (k.sched.proc j).state.phase := congrArg Ident.phase h
  rw [← ProcState.phase_unused, hph, hx]
  rfl

theorem birth_ident : (((s.newborn np).birth p np cid).proc np).ident =
      ⟨s.nextpid, some p, (s.newborn np).childPriority p np, cid, .alive⟩ := by
  rw [birth_self, newborn_self]
  rfl

theorem ident_of_birth (hk : Kin ((k.sched.newborn np).birth p np cid) k'.sched) (hj : j ≠ np) :
    (k'.sched.proc j).ident = (k.sched.proc j).ident := by
  rw [hk.ident j, birth_ne hj, newborn_ne hj]

theorem exited_unused (hp : (s.proc p).state = .running) :
    ((s.exited p).proc i).state = .unused ↔ (s.proc i).state = .unused := by
  rw [exited_entry]
  dsimp only
  split
  · next e => simp [e, hp]
  · rfl

theorem lineageInv_step (h : KinInv x) (hs : LStep x op y) : LineageInv y := by
  obtain ⟨hs, hL⟩ := hs
  have hLne : ∀ {j}, (y.1.sched.proc j).ident = (x.1.sched.proc j).ident → y.2 j = x.2 j :=
    fun hj => by rw [hL]; exact lineage_of_not (not_unused_of_ident hj)
  cases step_kin hs with
  | kin hk =>
    refine h.lineages.quiet hk.pid hk.unused hL fun i q hq => ?_
    rw [hk.initproc, ← hk.parent i]
    by_cases e : x.1.sched.initproc = some q
    · exact .inl e
    · exact .inr ⟨hq, e⟩
  | @first i _ hn hi hk =>
    have hne := fun j (hj : j ≠ i) => ident_of_newborn hk hj
    have hident : (y.1.sched.proc i).ident = ((x.1.sched.newborn i).proc i).ident := hk.ident i
    rw [newborn_self] at hident
    refine h.lineages.slot (parent_ne_of_unused h.parents hi) hk.initproc hne
      (fun j hj => hLne (hne j hj)) (fun q hq => ?_) (fun hu _ => ?_) fun _ => ?_
    · have : (y.1.sched.proc i).parent = (x.1.sched.proc i).parent :=
        congrArg Ident.parent hident
      rw [this, h.pids.parent i hi] at hq
      cases hq
    · rw [hL]; exact if_pos ⟨hi, hu⟩
    · exact .inl ((congrArg Ident.pid hident).trans hn)
  | @init p _ he hk =>
    refine h.lineages.quiet (fun i => ?_) (fun i => ?_) hL fun i q hq => ?_
    · rw [pid, hk.pid i, upd_field PEntry.pid rfl]; rfl
    · rw [hk.unused i, upd_field (·.state = .unused) (by simp [he])]
    · rw [hk.parent i] at hq
      have hq' : (x.1.sched.proc i).parent = some q := by
        rwa [upd_field parent rfl] at hq
      by_cases e : x.1.sched.initproc = some q
      · -- `initproc` can only have been set to this very process
        have hpq : q = p := h.pids.inj q p
          (((h.parents.init q e).2).trans (h.parents.embryo p he).symm)
          (by rw [(h.parents.init q e).2]; decide)
        exact .inl (by rw [hk.initproc, hpq])
      · exact .inr ⟨hq', e⟩
  | @stillborn _ i _ _ hi hk =>
    have hne : ∀ j, j ≠ i → (y.1.sched.proc j).ident = (x.1.sched.proc j).ident :=
      fun j hj => by rw [ident_of_upd hk hj, newborn_ne hj]
    have hident : (y.1.sched.proc i).ident =
        (((x.1.sched.newborn i).upd i free).proc i).ident := hk.ident i
    rw [upd_proc_self, newborn_self] at hident
    have hu : (y.1.sched.proc i).state = .unused := by
      rw [← ProcState.phase_unused]; exact congrArg Ident.phase hident
    refine h.lineages.slot (parent_ne_of_unused h.parents hi) hk.initproc hne
      (fun j hj => hLne (hne j hj)) (fun q hq => ?_) (fun hc => absurd hu hc) fun hc => absurd hu hc
    have : (y.1.sched.proc i).parent = (x.1.sched.proc i).parent := congrArg Ident.parent hident
    rw [this, h.pids.parent i hi] at hq
    cases hq
  | @birth p np cid _ hp hi hk =>
    have hne := fun j (hj : j ≠ np) => ident_of_birth hk hj
    have hident := (hk.ident np).trans birth_ident
    have hu : (y.1.sched.proc np).state ≠ .unused := fun hc => by
      have : (y.1.sched.proc np).state.phase = .alive := congrArg Ident.phase hident
      rw [hc] at this
      cases this
    have hp' : (x.1.sched.proc p).state ≠ .unused := by simp [hp.1]
    have hpnp : p ≠ np := fun e => hp' (e ▸ hi)
    have hLnp : y.2 np = x.1.pid p :: x.2 p := by rw [hL]; exact lineage_birth hi hu
    have hpid : y.1.pid np = x.1.sched.nextpid := congrArg Ident.pid hident
    refine h.lineages.slot (parent_ne_of_unused h.parents hi) hk.initproc hne
      (fun j hj => hLne (hne j hj)) (fun q hq => ?_) (fun _ h1 => ?_) fun _ => .inr ?_
    · have hpar : (y.1.sched.proc np).parent = some p := congrArg Ident.parent hident
      obtain rfl := Option.some.inj (hpar.symm.trans hq)
      exact ⟨hpnp, hLnp⟩
    · -- a child has a pid above that of its parent
      have hpos := h.pids.pos p hp'
      have hlt := (h.pids.bound p).2
      omega
    · rw [hLnp, List.mem_cons]
      rcases h.lineages.all p hp' with e | e
      · exact .inl e.symm
      · exact .inr e
  | @exit p _ hp hne hk =>
    refine h.lineages.quiet (fun i => ?_) (fun i => ?_) hL fun i q hq => ?_
    · rw [pid, hk.pid i, exited_entry]; rfl
    · exact (hk.unused i).trans (exited_unused hp.1)
    · rw [hk.parent i, exited_entry] at hq
      have hq' : (if (x.1.sched.proc i).parent = some p then x.1.sched.initproc
          else (x.1.sched.proc i).parent) = some q := hq
      have hinit : y.1.sched.initproc = x.1.sched.initproc := hk.initproc
      rw [hinit]
      split at hq'
      · exact .inl hq'
      · by_cases e : x.1.sched.initproc = some q
        · exact .inl e
        · exact .inr ⟨hq', e⟩
  | @reap _ _ q _ _ _ hz hk =>
    have hne : ∀ j, j ≠ q → (y.1.sched.proc j).ident = (x.1.sched.proc j).ident :=
      fun j hj => ident_of_upd hk hj
    have hident : (y.1.sched.proc q).ident = ((x.1.sched.upd q reaped).proc q).ident :=
      hk.ident q
    rw [upd_proc_self] at hident
    have hu : (y.1.sched.proc q).state = .unused := by
      rw [← ProcState.phase_unused]; exact congrArg Ident.phase hident
    refine h.lineages.slot (fun j hj => (h.parents.live j q hj).1.2 hz) hk.initproc hne
      (fun j hj => hLne (hne j hj)) (fun r hr => ?_) (fun hc => absurd hu hc) fun hc => absurd hu hc
    have : (y.1.sched.proc q).parent = none := congrArg Ident.parent hident
    rw [this] at hr
    cases hr
  | @prio _ q _ v _ _ _ hk =>
    have hsame : ∀ i, let e := (x.1.sched.upd q fun e => { e with priority := v }).proc i
        e.pid = (x.1.sched.proc i).pid ∧ e.state = (x.1.sched.proc i).state ∧
          e.parent = (x.1.sched.proc i).parent := fun i => by
      by_cases e : i = q
      · subst e; simp
      · simp [upd_proc_ne e]
    refine h.lineages.quiet (fun i => ?_) (fun i => ?_) hL fun i r hr => ?_
    · exact (hk.pid i).trans (hsame i).1
    · rw [hk.unused i, (hsame i).2.1]
    · rw [hk.parent i, (hsame i).2.2] at hr
      have hinit : y.1.sched.initproc = x.1.sched.initproc := hk.initproc
      rw [hinit]
      by_cases e : x.1.sched.initproc = some r
      · exact .inl e
      · exact .inr ⟨hr, e⟩

theorem kinInv_step (h : KinInv x) (hs : LStep x op y) : KinInv y :=
  ⟨pidInv_step h.pids hs.1, parentInv_step h.parents h.pids hs.1, lineageInv_step h hs⟩

/-! ### The family along parent links -/

/-- A child of a member is a member. -/
theorem family_child (h : KinInv x) (hi : (x.1.sched.proc i).parent = some q)
    (hq : Family x pid q) : Family x pid i := by
  have hu : (x.1.sched.proc i).state ≠ .unused := fun hc => by
    rw [h.pids.parent i hc] at hi; cases hi
  refine ⟨hu, ?_⟩
  rcases h.lineages.link i q hi with hinit | hL
  · -- the first process has no creators, so the family is that of the first process
    have h1 := (h.parents.init q hinit).2
    rcases hq.2 with e | e
    · have : pid = 1 := e.symm.trans h1
      subst this
      exact h.lineages.all i hu
    · rw [h.lineages.first q hq.1 h1] at e
      cases e
  · rw [hL, List.mem_cons]
    rcases hq.2 with e | e
    · exact .inr (.inl e.symm)
    · exact .inr (.inr e)

/-- What the ancestor walk of a member finds is a member. -/
theorem family_of_ancestor {a : Slot} (h : KinInv x) (ha : Family x pid a) : ∀ {n : Nat} {i : Slot},
      ancestorLoop x.1.sched (x.1.sched.proc a).pid n (some i) = .ok true → Family x pid i := by
  have hself : ∀ i, (x.1.sched.proc i).pid = (x.1.sched.proc a).pid → Family x pid i :=
    fun i hi => by
      have hpos := h.pids.pos a ha.1
      rwa [h.pids.inj i a hi (by omega)]
  intro n
  induction n with
  | zero =>
    intro i hw
    rw [ancestorLoop] at hw
    split at hw
    · next e => exact hself i e
    · cases hw
  | succ n ih =>
    intro i hw
    rw [ancestorLoop] at hw
    split at hw
    · next e => exact hself i e
    · cases hq : (x.1.sched.proc i).parent with
      | none => rw [hq, ancestorLoop] at hw; cases hw
      | some q => rw [hq] at hw; exact family_child h hq (ih hw)

/-! ### Confinement -/

/-- At most the slots of `S` change hands or get another priority. -/
structure Only (x y : Kernel × Lineage) (S : Slot → Prop) : Prop where
  unused : ∀ j, ¬ S j → ((y.1.sched.proc j).state = .unused ↔ (x.1.sched.proc j).state = .unused)
  same : ∀ j, ¬ S j → (x.1.sched.proc j).state ≠ .unused →
    y.1.pid j = x.1.pid j ∧ (y.1.sched.proc j).priority = (x.1.sched.proc j).priority ∧
      y.2 j = x.2 j

namespace Only

variable {S : Slot → Prop}

theorem family (h : Only x y S) {j : Slot} (hj : ¬ S j) : Family y pid j ↔ Family x pid j := by
  unfold Family
  rw [ne_eq, h.unused j hj]
  refine and_congr_right fun hu => ?_
  obtain ⟨hp, -, hl⟩ := h.same j hj hu
  rw [hp, hl]

/-- Every slot whose process is the same, up to its parent. -/
theorem of_ident (hL : y.2 = lineage x.1 op y.1 x.2)
    (h : ∀ j, ¬ S j → (y.1.sched.proc j).ident = (x.1.sched.proc j).ident) : Only x y S where
  unused j hj := by
    have hph : (y.1.sched.proc j).state.phase = (x.1.sched.proc j).state.phase :=
      congrArg Ident.phase (h j hj)
    rw [← ProcState.phase_unused, hph, ProcState.phase_unused]
  same j hj hu := by
    refine ⟨congrArg Ident.pid (h j hj), congrArg Ident.priority (h j hj), ?_⟩
    rw [hL]
    exact lineage_of_not (not_unused_of_ident (h j hj))

/-- No slot changes hands. -/
theorem of_unused (hL : y.2 = lineage x.1 op y.1 x.2)
    (hu : ∀ j, (y.1.sched.proc j).state = .unused ↔ (x.1.sched.proc j).state = .unused)
    (h : ∀ j, (x.1.sched.proc j).state ≠ .unused → y.1.pid j = x.1.pid j ∧
      (y.1.sched.proc j).priority = (x.1.sched.proc j).priority) :
    Only x y fun _ => False where
  unused j _ := hu j
  same j _ hj := ⟨(h j hj).1, (h j hj).2, by
    rw [hL]; exact lineage_of_not fun hc => hc.2 ((hu j).mpr hc.1)⟩

end Only

/-- **One step within the family.**  The slots that change hands or get another priority were and
are members, with priorities from `f` on. -/
theorem only_step (h : KinInv x) (hn : 1 < x.1.sched.nextpid) (hs : LStep x op y)
    (hw : Within pid (x, op)) (hf : ∀ i, Family x pid i → f ≤ (x.1.sched.proc i).priority) :
    ∃ S, Only x y S ∧ ∀ i, S i → ((x.1.sched.proc i).state ≠ .unused → Family x pid i) ∧
      ((y.1.sched.proc i).state ≠ .unused → Family y pid i ∧ f ≤ (y.1.sched.proc i).priority) := by
  obtain ⟨hs, hL⟩ := hs
  cases step_kin hs with
  | kin hk =>
    exact ⟨_, .of_unused hL hk.unused fun j _ => ⟨hk.pid j, hk.priority j⟩, fun _ hi => hi.elim⟩
  | first h1 => exact absurd h1 (by omega)
  | @init p _ he hk =>
    refine ⟨_, .of_unused hL (fun j => ?_) (fun j _ => ⟨?_, ?_⟩), fun _ hi => hi.elim⟩
    · rw [hk.unused j, upd_field (·.state = .unused) (by simp [he])]
    · rw [Kernel.pid, hk.pid j, upd_field PEntry.pid rfl]; rfl
    · rw [hk.priority j, upd_field priority rfl]
  | @stillborn _ i _ _ hi hk =>
    have hne : ∀ j, j ≠ i → (y.1.sched.proc j).ident = (x.1.sched.proc j).ident :=
      fun j hj => by rw [ident_of_upd hk hj, newborn_ne hj]
    have hu : (y.1.sched.proc i).state = .unused := by
      rw [hk.unused i, upd_proc_self]; rfl
    exact ⟨_, .of_ident hL hne, fun j hj => hj ▸ ⟨fun hc => absurd hi hc, fun hc => absurd hu hc⟩⟩
  | @birth p np cid _ hp hi hk =>
    have hne := fun j (hj : j ≠ np) => ident_of_birth hk hj
    have hident := (hk.ident np).trans birth_ident
    have hmem : Family x pid p := hw.family p rfl
    have hpnp : p ≠ np := fun e => hmem.1 (e ▸ hi)
    refine ⟨_, .of_ident hL hne, fun j hj => hj ▸ ⟨fun hc => absurd hi hc, fun hu => ⟨⟨hu, ?_⟩, ?_⟩⟩⟩
    · right
      rw [hL, lineage_birth hi hu, List.mem_cons]
      rcases hmem.2 with e | e
      · exact .inl e.symm
      · exact .inr e
    · have hprio : (y.1.sched.proc np).priority = (x.1.sched.newborn np).childPriority p np :=
        congrArg Ident.priority hident
      have h2 := hw.pid p cid rfl
      have hnp : ((x.1.sched.newborn np).proc np).pid = x.1.sched.nextpid := by
        rw [newborn_self]
      rw [hprio, childPriority, hnp, if_neg (by omega), if_neg h2, newborn_ne hpnp]
      exact hf p hmem
  | @exit p _ hp _ hk =>
    refine ⟨_, .of_unused hL (fun j => (hk.unused j).trans (exited_unused hp.1))
      (fun j _ => ⟨?_, ?_⟩), fun _ hi => hi.elim⟩
    · rw [Kernel.pid, hk.pid j, exited_entry]; rfl
    · rw [hk.priority j, exited_entry]
  | @reap op a q _ hop hq hz hk =>
    have hmem : Family x pid a := by
      rcases hop with rfl | ⟨rfl, hc⟩
      · exact hw.family a rfl
      · exact hw.family a ⟨rfl, hc⟩
    have hu : (y.1.sched.proc q).state = .unused := by
      rw [hk.unused q, upd_proc_self]; rfl
    exact ⟨_, .of_ident hL fun j (hj : j ≠ q) => ident_of_upd hk hj, fun j hj =>
      hj ▸ ⟨fun _ => family_child h hq hmem, fun hc => absurd hu hc⟩⟩
  | @prio a q target v _ _ ha hk =>
    have hmem : Family x pid a := hw.family a rfl
    have hq : Family x pid q := family_of_ancestor h hmem ha.ancestor
    have hpid : y.1.pid q = x.1.pid q := by
      rw [Kernel.pid, hk.pid q, upd_proc_self]; rfl
    have hu : (y.1.sched.proc q).state = .unused ↔ (x.1.sched.proc q).state = .unused := by
      rw [hk.unused q, upd_proc_self]
    refine ⟨_, .of_ident hL fun j (hj : j ≠ q) => ident_of_upd hk hj, fun j hj =>
      hj ▸ ⟨fun _ => hq, fun hc => ⟨⟨hc, ?_⟩, ?_⟩⟩⟩
    · rw [hpid, hL, lineage_of_not fun hi => hi.2 (hu.mpr hi.1)]
      exact hq.2
    · rw [hk.priority q, upd_proc_self]
      have hlow := ha.lower
      have hfa := hf a hmem
      dsimp only
      omega

/-- The family of `pid` keeps to priorities from `f` on, and the processes outside it are those of
`x₀`, with the pids and priorities they had there. -/
structure Confined (x₀ : Kernel × Lineage) (pid f : Int) (x : Kernel × Lineage) : Prop where
  floor : ∀ i, Family x pid i → f ≤ (x.1.sched.proc i).priority
  outside : ∀ i, Outside x pid i ↔ Outside x₀ pid i
  same : ∀ i, Outside x₀ pid i → x.1.pid i = x₀.1.pid i ∧
    (x.1.sched.proc i).priority = (x₀.1.sched.proc i).priority

theorem Only.outside {S : Slot → Prop} (h : Only x y S)
    (hS : ∀ i, S i → ((x.1.sched.proc i).state ≠ .unused → Family x pid i) ∧
      ((y.1.sched.proc i).state ≠ .unused → Family y pid i)) (i : Slot) :
    Outside y pid i ↔ Outside x pid i := by
  by_cases hi : S i
  · exact iff_of_false (fun ho => ho.2 ((hS i hi).2 ho.1)) fun ho => ho.2 ((hS i hi).1 ho.1)
  · unfold Outside
    rw [h.family hi, ne_eq, h.unused i hi]

theorem confined_step {x₀ : Kernel × Lineage} (h : KinInv x) (hn : 1 < x.1.sched.nextpid)
    (hc : Confined x₀ pid f x) (hs : LStep x op y) (hw : Within pid (x, op)) :
    Confined x₀ pid f y := by
  obtain ⟨S, ho, hS⟩ := only_step h hn hs hw hc.floor
  have hout := ho.outside fun i hi => ⟨(hS i hi).1, fun hu => ((hS i hi).2 hu).1⟩
  refine ⟨fun i hi => ?_, fun i => (hout i).trans (hc.outside i), fun i hi => ?_⟩
  · by_cases hiS : S i
    · exact ((hS i hiS).2 hi.1).2
    · have hx := (ho.family hiS).mp hi
      rw [(ho.same i hiS hx.1).2.1]
      exact hc.floor i hx
  · have hx := (hc.outside i).mpr hi
    have hiS : ¬ S i := fun hs => hx.2 ((hS i hs).1 hx.1)
    obtain ⟨hp, hq, -⟩ := ho.same i hiS hx.1
    rw [hp, hq]
    exact hc.same i hi

theorem nextpid_step (hs : Step k op k') : k.sched.nextpid ≤ k'.sched.nextpid := by
  cases step_kin hs with
  | kin hk => exact hk.nextpid.ge
  | first _ _ hk | stillborn _ _ hk | birth _ _ hk => rw [hk.nextpid]; exact (Int.lt_succ _).le
  | init _ hk => exact hk.nextpid.ge
  | exit _ _ hk => exact hk.nextpid.ge
  | reap _ _ _ hk => exact hk.nextpid.ge
  | prio _ _ hk => exact hk.nextpid.ge

/-- **Priority is confined.**  Let `p` be a process of a reachable state, none of whose family has
a priority below its own there.  In every run from that state in which only the family executes
`fork2`, `prio_set`, `exit` and `wait` and pid 2 is not given out, the family keeps to priorities
from that of `p` on, and the processes outside it stay, with their priorities. -/
theorem priority_confined {m : Kmem} {x₀ : Kernel × Lineage} {t₀ t : List ((Kernel × Lineage) × Op)}
    (hr₀ : Run LStep (lboot m) t₀ x₀) (hp : (x₀.1.sched.proc p).state ≠ .unused)
    (hlow : ∀ i, Family x₀ (x₀.1.pid p) i →
      (x₀.1.sched.proc p).priority ≤ (x₀.1.sched.proc i).priority)
    (hr : Run LStep x₀ t x) (hw : ∀ z ∈ t, Within (x₀.1.pid p) z) :
    (∀ z ∈ t, Confined x₀ (x₀.1.pid p) (x₀.1.sched.proc p).priority z.1) ∧
      Confined x₀ (x₀.1.pid p) (x₀.1.sched.proc p).priority x := by
  have h₀ : KinInv x₀ := (hr₀.inv_all (fun _ _ _ h hs => kinInv_step h hs) (kinInv_boot m)).2
  have hn : 1 < x₀.1.sched.nextpid := by
    have hpos := h₀.pids.pos p hp
    have hlt := (h₀.pids.bound p).2
    omega
  have hinv := hr.inv (I := fun x => KinInv x ∧ 1 < x.1.sched.nextpid ∧
      Confined x₀ (x₀.1.pid p) (x₀.1.sched.proc p).priority x)
    (fun x op y h hs (ho : Within (x₀.1.pid p) (x, op)) =>
      ⟨kinInv_step h.1 hs, h.2.1.trans_le (nextpid_step hs.1), confined_step h.1 h.2.1 h.2.2 hs ho⟩)
    ⟨h₀, hn, hlow, fun _ => .rfl, fun _ _ => ⟨rfl, rfl⟩⟩ hw
  exact ⟨fun z hz => (hinv.1 z hz).2.2, hinv.2.2.2⟩

/-! ### Runs -/

/-- One step with the lineages, as a function. -/
def lexec? (x : Kernel × Lineage) (op : Op) : Option (Kernel × Lineage) :=
  (x.1.exec? op).map fun k => (k, lineage x.1 op k x.2)

theorem lstep_of_lexec? (x : Kernel × Lineage) (op : Op) (y : Kernel × Lineage)
    (h : lexec? x op = some y) : LStep x op y := by
  obtain ⟨k, hk, rfl⟩ := Option.map_eq_some_iff.mp h
  exact ⟨step_of_exec? _ _ _ hk, rfl⟩

/-- A step that is computed, to a state with a property that can be evaluated. -/
theorem lstep_of_any {P : Kernel × Lineage → Prop} [DecidablePred P]
    (h : (lexec? x op).any (fun y => P y) = true) : ∃ y, LStep x op y ∧ P y := by
  cases hs : lexec? x op with
  | none => rw [hs] at h; cases h
  | some y => exact ⟨y, lstep_of_lexec? _ _ _ hs, by simpa [hs] using h⟩

/-- The child of the first process, slot 1 with pid 2, forks slot 2 with pid 3. -/
def familyOps : List Op := forkOps ++ [.fork2 1 (-1)]

/-- The child lowers its own child. -/
theorem priority_confined_familyOps : ∃ t₀ x₀ t x, Run LStep (lboot largerMem) t₀ x₀ ∧
    Run LStep x₀ t x ∧ (x.1.sched.proc 2).priority = 7 ∧ Confined x₀ 2 5 x := by
  obtain ⟨x₀, hr₀, ⟨hu, hp, hq⟩, hlow, hs⟩ := exists_run lstep_of_lexec? (lboot largerMem) familyOps
    (fun x => ((x.1.sched.proc 1).state ≠ .unused ∧ x.1.pid 1 = 2 ∧
        (x.1.sched.proc 1).priority = 5) ∧
      (∀ i, Family x 2 i → 5 ≤ (x.1.sched.proc i).priority) ∧
      (lexec? x (.prioSet 1 3 7)).any (fun y => (y.1.sched.proc 2).priority = 7) = true)
    (by decide +kernel)
  obtain ⟨x, hs, h7⟩ := lstep_of_any hs
  refine ⟨_, x₀, _, x, hr₀, .one hs, h7, ?_⟩
  have h := priority_confined (p := 1) hr₀ hu (by rw [hp, hq]; exact hlow) (.one hs) fun z hz => by
    obtain rfl := List.mem_singleton.mp hz
    refine ⟨fun a (ha : 1 = a) => ?_, fun _ _ e => (by cases e)⟩
    subst ha
    exact ⟨hu, .inl rfl⟩
  rw [hp, hq] at h
  exact h.2

/-- **A parent below its child.**  The child of the first process forks, and lowers its own
priority to 7; its child, which still has priority 5, is in its family.  Nor does it help to count
only the processes created from here on: the old child is then outside the family, and its priority
is changed by `prio_set`. -/
theorem lowered_below_child :
    (¬ ∀ (m : Kmem) (t₀ : List ((Kernel × Lineage) × Op)) (x₀ : Kernel × Lineage) (p : Slot)
        (t : List ((Kernel × Lineage) × Op)) (x : Kernel × Lineage),
      Run LStep (lboot m) t₀ x₀ → (x₀.1.sched.proc p).state ≠ .unused → Run LStep x₀ t x →
        (∀ z ∈ t, Within (x₀.1.pid p) z) →
        Confined x₀ (x₀.1.pid p) (x₀.1.sched.proc p).priority x) ∧
    ¬ ∀ (m : Kmem) (t₀ : List ((Kernel × Lineage) × Op)) (x₀ : Kernel × Lineage) (p : Slot)
        (t : List ((Kernel × Lineage) × Op)) (x : Kernel × Lineage),
      Run LStep (lboot m) t₀ x₀ → (x₀.1.sched.proc p).state ≠ .unused →
        Run LStep (x₀.1, fun _ => []) t x → (∀ z ∈ t, Within (x₀.1.pid p) z) →
        Confined (x₀.1, fun _ => []) (x₀.1.pid p) (x₀.1.sched.proc p).priority x := by
  obtain ⟨x₀, hr₀, ⟨hu, hp, hq, hu₂, hp₂, hq₂, hL₂⟩, hs⟩ := exists_run lstep_of_lexec?
    (lboot largerMem) (familyOps ++ [.prioSet 1 2 7])
    (fun x => ((x.1.sched.proc 1).state ≠ .unused ∧ x.1.pid 1 = 2 ∧
        (x.1.sched.proc 1).priority = 7 ∧ (x.1.sched.proc 2).state ≠ .unused ∧ x.1.pid 2 = 3 ∧
        (x.1.sched.proc 2).priority = 5 ∧ 2 ∈ x.2 2) ∧
      (lexec? (x.1, fun _ => []) (.prioSet 1 3 9)).any
        (fun y => (y.1.sched.proc 2).priority = 9) = true) (by decide +kernel)
  refine ⟨fun h => ?_, fun h => ?_⟩
  · have hc := h _ _ x₀ 1 [] x₀ hr₀ hu (.refl _) (by simp)
    have hlow := hc.floor 2 ⟨hu₂, .inr (hp ▸ hL₂)⟩
    omega
  · obtain ⟨x, hs, h9⟩ := lstep_of_any hs
    have hc := h _ _ x₀ 1 _ x hr₀ hu (.one hs) fun z hz => by
      obtain rfl := List.mem_singleton.mp hz
      refine ⟨fun a (ha : 1 = a) => ?_, fun _ _ e => (by cases e)⟩
      subst ha
      exact ⟨hu, .inl rfl⟩
    have hout : Outside (x₀.1, fun _ => []) (x₀.1.pid 1) 2 := by
      refine ⟨hu₂, fun hf => ?_⟩
      rcases hf.2 with e | e
      · have he : x₀.1.pid 2 = x₀.1.pid 1 := e
        omega
      · cases e
    have hsame : (x.1.sched.proc 2).priority = (x₀.1.sched.proc 2).priority := (hc.same 2 hout).2
    omega

end Kernel

end Xv6
