import Xv6.Kernel.System

/-!
# Container — Create

Two processes that make containers with `cm_create_and_enter` or `io_container` of `cm.h`, one
system call at a time.  Both functions ask `get_new_cid` for the first container that is not alive
and make it alive by a later call, `setalive`; in between they set its name.

`get_new_cid` does not reserve what it returns.  The two processes get different containers, and
neither writes into one that was alive before, exactly when neither calls `get_new_cid` while the
other is between its own `get_new_cid` and its `setalive` (`cids_differ_iff`).

`init_dir` returns 0 when it succeeds and -1 when it does not, and `cm_create_and_enter` gives up
when the result is not positive: it never gets to `setname` (`createAndEnter_gives_up`).  The value
it then returns, `INIT_DIR_ERROR`, is 0, like that of a call that has made a container
(`all_or_nothing_iff`).
-/

namespace Xv6

open Lib Function

/-- The fields of `struct container` that the two functions read or set.  `setname` does not look at
the size of `name`; what does not fit runs on into `vc` and `path` of the same container. -/
structure ConInfo where
  alive : Int
  name : CStr
  maxProc : Int
  deriving DecidableEq

/-- `manager.containers`. -/
abbrev ConTable := Fin MAX_NUM_CONTAINERS → ConInfo

namespace ConTable

/-- `get_new_cid()`. -/
def getNewCid (m : ConTable) : Int :=
  match (List.finRange MAX_NUM_CONTAINERS).find? fun c => (m c).alive = 0 with
  | some c => c
  | none => -1

/-- `manager.containers[index]` changed; there is no check of `index`. -/
def modify (m : ConTable) (index : Int) (f : ConInfo → ConInfo) : Res ConTable := do
  let c ← Kernel.conIndex index
  return update m c (f (m c))

/-- `setname(index, name)`. -/
def setname (m : ConTable) (index : Int) (name : CStr) : Res ConTable :=
  m.modify index fun e => { e with name := name }

/-- `setalive(index, val)`. -/
def setalive (m : ConTable) (index val : Int) : Res ConTable :=
  m.modify index fun e => { e with alive := val }

/-- `setmaxproc(index, max_proc)`. -/
def setmaxproc (m : ConTable) (index maxProc : Int) : Res ConTable :=
  m.modify index fun e => { e with maxProc := maxProc }

end ConTable

/-- Which of the two functions a process executes. -/
inductive MakeFn where
  | cmCreateAndEnter
  | ioContainer
  deriving DecidableEq

/-- A process that makes a container: the function, the result of `parse_spec` and the `fs` and
`nproc` it has read, and the result of the `mkdir` in `init_dir`. -/
structure Maker where
  fn : MakeFn
  retcode : Int
  fs : CStr
  nproc : Int
  mkdir : Int

/-- `init_dir(fs)`, when it returns: a file that cannot be copied ends the process. -/
def Maker.initDir (d : Maker) : Int := if d.mkdir ≠ 0 then -1 else 0

/-- Where a process is: the next system call it makes. -/
inductive MakePc where
  /-- the calls of `parse_spec` -/
  | parse
  | getNewCid
  /-- the calls of `init_dir` -/
  | initDir (cid : Int)
  | setname (cid : Int)
  | setalive (cid : Int)
  | setmaxproc (cid : Int)
  /-- the rest: pipes, `setvc`, `fork2` -/
  | made (cid : Int)
  /-- the function has returned early -/
  | returned
  deriving DecidableEq

namespace MakePc

/-- What `get_new_cid` returned. -/
def cid : MakePc → Option Int
  | .initDir c | .setname c | .setalive c | .setmaxproc c | .made c => some c
  | .parse | .getNewCid | .returned => none

/-- The container a process has got and not yet made alive. -/
def claiming : MakePc → Option Int
  | .initDir c | .setname c | .setalive c => some c
  | .parse | .getNewCid | .setmaxproc _ | .made _ | .returned => none

/-- The container a process has made alive. -/
def claimed : MakePc → Option Int
  | .setmaxproc c | .made c => some c
  | .parse | .getNewCid | .initDir _ | .setname _ | .setalive _ | .returned => none

/-- The container whose name or process limit the next call sets. -/
def writes : MakePc → Option Int
  | .setname c | .setmaxproc c => some c
  | .parse | .getNewCid | .initDir _ | .setalive _ | .made _ | .returned => none

/-- The process has not called `get_new_cid` yet. -/
def early : MakePc → Bool
  | .parse | .getNewCid => true
  | _ => false

variable {pc : MakePc} {c : Int}

/-- A process that has called `get_new_cid` has a container or has returned. -/
theorem early_eq_false_iff : pc.early = false ↔ pc.cid ≠ none ∨ pc = .returned := by
  cases pc <;> simp [early, cid]

theorem cid_of_claiming (h : pc.claiming = some c) : pc.cid = some c := by
  cases pc <;> first | exact h | cases h

theorem cid_of_claimed (h : pc.claimed = some c) : pc.cid = some c := by
  cases pc <;> first | exact h | cases h

end MakePc

/-- The container table, and where the two processes are. -/
structure Making where
  table : ConTable
  pc : Fin 2 → MakePc

namespace Making

/-- Process `p` moves on. -/
def put (w : Making) (p : Fin 2) (m : ConTable) (pc : MakePc) : Making :=
  ⟨m, update w.pc p pc⟩

/-- The next system call of `p`.  The calls after `setmaxproc`, and what a process does after an
early return, leave the table as it is. -/
def step (d : Fin 2 → Maker) (w : Making) (p : Fin 2) : Res Making :=
  match w.pc p with
  | .parse => .ok (w.put p w.table (if (d p).retcode ≠ 0 then .returned else .getNewCid))
  | .getNewCid =>
    let cid := w.table.getNewCid
    match (d p).fn with
    | .cmCreateAndEnter => .ok (w.put p w.table (if cid < 0 then .returned else .initDir cid))
    | .ioContainer => .ok (w.put p w.table (.setname cid))
  | .initDir cid =>
    .ok (w.put p w.table (if (d p).initDir ≤ 0 then .returned else .setname cid))
  | .setname cid => do
    let m ← w.table.setname cid (d p).fs
    return w.put p m (.setalive cid)
  | .setalive cid => do
    let m ← w.table.setalive cid 1
    return w.put p m (.setmaxproc cid)
  | .setmaxproc cid => do
    let m ← w.table.setmaxproc cid (d p).nproc
    return w.put p m (.made cid)
  | .made _ | .returned => .ok w

/-- One system call. -/
def Step (d : Fin 2 → Maker) (w : Making) (p : Fin 2) (w' : Making) : Prop := w.step d p = .ok w'

/-- Both processes are at the start of their function. -/
def init (m : ConTable) : Making := ⟨m, fun _ => .parse⟩

/-- Container `c` was alive at the start, or another process than `p` has made it alive. -/
def AliveBefore (m₀ : ConTable) (w : Making) (p : Fin 2) (c : Fin MAX_NUM_CONTAINERS) : Prop :=
  (m₀ c).alive ≠ 0 ∨ ∃ q, q ≠ p ∧ (w.pc q).claimed = some (c : Int)

/-- The next call of `p` sets no name or process limit of a container that was alive before. -/
def WritesFresh (m₀ : ConTable) (w : Making) (p : Fin 2) : Prop :=
  ∀ c : Fin MAX_NUM_CONTAINERS, (w.pc p).writes = some (c : Int) → ¬ AliveBefore m₀ w p c

/-- `p` does not call `get_new_cid` while the other process is between its own and `setalive`. -/
def Apart (w : Making) (p : Fin 2) : Prop :=
  w.pc p = .getNewCid → ∀ q, q ≠ p → ∀ c ∈ (w.pc q).claiming, c < 0

/-- The two processes have got the same container. -/
def SameCid (w : Making) : Prop :=
  ∃ p q c, q ≠ p ∧ 0 ≤ c ∧ (w.pc p).cid = some c ∧ (w.pc q).cid = some c

/-! ### What one call does -/

variable {d : Fin 2 → Maker} {m₀ m m' : ConTable} {w w' : Making} {p q : Fin 2} {c c₀ c₁ : Int}
  {i : Fin MAX_NUM_CONTAINERS} {t : List (Making × Fin 2)}

/-- The other process stays where it is. -/
theorem put_pc_ne {w : Making} {m : ConTable} {pc : MakePc} (h : q ≠ p) :
    (w.put p m pc).pc q = w.pc q := update_of_ne h ..

@[simp] theorem put_pc_self (w : Making) (m : ConTable) (pc : MakePc) :
    (w.put p m pc).pc p = pc := update_self ..

@[simp] theorem put_table (w : Making) (m : ConTable) (pc : MakePc) :
    (w.put p m pc).table = m := rfl

/-- A call on a container: it exists, and it alone changes. -/
theorem modify_eq_ok {f : ConInfo → ConInfo} (h : m.modify c f = .ok m') :
    ∃ i : Fin MAX_NUM_CONTAINERS, c = i ∧ m' = update m i (f (m i)) := by
  obtain ⟨i, hi, h⟩ := of_bind h
  unfold Kernel.conIndex at hi
  split at hi
  · next hc =>
    cases hi
    cases h
    exact ⟨_, (Int.toNat_of_nonneg hc.1).symm, rfl⟩
  · cases hi

/-- What a call can do to the table and to the place of its process. -/
inductive Move (w : Making) (p : Fin 2) : Making → Prop where
  /-- the table stays, and the process has got no container or keeps the one it has -/
  | stay {m : ConTable} {pc : MakePc} (hm : ∀ i, (m i).alive = (w.table i).alive)
      (hcid : pc.cid = none ∨ pc.cid = (w.pc p).cid)
      (hclaiming : pc.claiming = none ∨ pc.claiming = (w.pc p).claiming)
      (hclaimed : pc.claimed = (w.pc p).claimed) (hearly : pc.early → (w.pc p).early) :
      Move w p (w.put p m pc)
  /-- `get_new_cid` -/
  | get {pc : MakePc} (h : w.pc p = .getNewCid)
      (hpc : pc = .initDir w.table.getNewCid ∨ pc = .setname w.table.getNewCid) :
      Move w p (w.put p w.table pc)
  /-- `setalive` -/
  | claim {i : Fin MAX_NUM_CONTAINERS} (h : w.pc p = .setalive i) :
      Move w p (w.put p (update w.table i { w.table i with alive := 1 }) (.setmaxproc i))

theorem move_stutter (w : Making) (p : Fin 2) : Move w p w := by
  have h : w.put p w.table (w.pc p) = w := by rw [put, update_eq_self]
  have hm : Move w p (w.put p w.table (w.pc p)) :=
    .stay (fun _ => rfl) (.inr rfl) (.inr rfl) rfl id
  rwa [h] at hm

theorem alive_update {j : Fin MAX_NUM_CONTAINERS} {e : ConInfo} (h : e.alive = (m i).alive) :
    (update m i e j).alive = (m j).alive := by
  by_cases hj : j = i
  · subst hj; rw [update_self, h]
  · rw [update_of_ne hj]

theorem move_of_step (h : Step d w p w') : Move w p w' := by
  unfold Step step at h
  cases hpc : w.pc p with
  | parse =>
    simp only [hpc] at h
    cases h
    refine .stay (fun _ => rfl) (.inl ?_) (.inl ?_) ?_ fun _ => by rw [hpc]; rfl
    · split <;> rfl
    · split <;> rfl
    · rw [hpc]; split <;> rfl
  | getNewCid =>
    simp only [hpc] at h
    split at h
    · cases h
      split
      · exact .stay (fun _ => rfl) (.inl rfl) (.inl rfl) (by rw [hpc]; rfl) fun h => by cases h
      · exact .get hpc (.inl rfl)
    · cases h; exact .get hpc (.inr rfl)
  | initDir c =>
    simp only [hpc] at h
    cases h
    split
    · exact .stay (fun _ => rfl) (.inl rfl) (.inl rfl) (by rw [hpc]; rfl) fun h => by cases h
    · exact .stay (fun _ => rfl) (.inr (by rw [hpc]; rfl)) (.inr (by rw [hpc]; rfl))
        (by rw [hpc]; rfl) fun h => by cases h
  | setname c =>
    simp only [hpc] at h
    obtain ⟨m, hm, h⟩ := of_bind h
    cases h
    obtain ⟨i, -, rfl⟩ := modify_eq_ok hm
    exact .stay (fun _ => alive_update rfl) (.inr (by rw [hpc]; rfl)) (.inr (by rw [hpc]; rfl))
      (by rw [hpc]; rfl) fun h => by cases h
  | setalive c =>
    simp only [hpc] at h
    obtain ⟨m, hm, h⟩ := of_bind h
    cases h
    obtain ⟨i, rfl, rfl⟩ := modify_eq_ok hm
    exact .claim hpc
  | setmaxproc c =>
    simp only [hpc] at h
    obtain ⟨m, hm, h⟩ := of_bind h
    cases h
    obtain ⟨i, -, rfl⟩ := modify_eq_ok hm
    exact .stay (fun _ => alive_update rfl) (.inr (by rw [hpc]; rfl)) (.inl rfl)
      (by rw [hpc]; rfl) fun h => by cases h
  | made | returned => simp only [hpc] at h; cases h; exact move_stutter w p

/-- `get_new_cid` returns a container that is not alive. -/
theorem getNewCid_free (h : m.getNewCid = i) : (m i).alive = 0 := by
  unfold ConTable.getNewCid at h
  split at h
  · next j hj =>
    obtain rfl : j = i := Fin.ext (by exact_mod_cast h)
    simpa using List.find?_some hj
  · omega

/-- It looks at `alive` only. -/
theorem getNewCid_congr (h : ∀ i, (m' i).alive = (m i).alive) : m'.getNewCid = m.getNewCid := by
  simp only [ConTable.getNewCid, h]

/-! ### The invariant -/

/-- The containers that processes are about to make alive are not alive, and those they have made
alive are, and were not at the start.  While one process has not called `get_new_cid`, it would get
what the other has got and not yet made alive. -/
structure Inv (m₀ : ConTable) (w : Making) : Prop where
  alive : ∀ i, (m₀ i).alive ≠ 0 → (w.table i).alive ≠ 0
  free : ∀ p (i : Fin MAX_NUM_CONTAINERS), (w.pc p).claiming = some (i : Int) →
    (w.table i).alive = 0
  apart : ∀ p q, q ≠ p → ∀ c c', (w.pc p).claiming = some c → (w.pc q).claiming = some c' →
    c < 0 ∨ c' < 0
  claimed : ∀ p c, (w.pc p).claimed = some c → ∃ i : Fin MAX_NUM_CONTAINERS, c = i ∧
    (w.table i).alive ≠ 0 ∧ (m₀ i).alive = 0
  distinct : ∀ p q, q ≠ p → ∀ c, (w.pc p).claimed = some c → (w.pc q).claimed ≠ some c
  next : ∀ p q, q ≠ p → (w.pc p).early = true → ∀ c, (w.pc q).claiming = some c →
    w.table.getNewCid = c

theorem inv_init (m : ConTable) : Inv m (init m) where
  alive _ h := h
  free _ _ h := by cases h
  apart _ _ _ _ _ h := by cases h
  claimed _ _ h := by cases h
  distinct _ _ _ _ h := by cases h
  next _ _ _ _ _ h := by cases h

/-- No two processes have got the same container. -/
theorem Inv.not_sameCid (hi : Inv m₀ w) : ¬ SameCid w := by
  rintro ⟨p, q, c, hne, hc, hp, hq⟩
  have hcases : ∀ r, (w.pc r).cid = some c →
      (w.pc r).claiming = some c ∨ (w.pc r).claimed = some c := by
    intro r h
    cases hr : w.pc r <;> rw [hr] at h <;> first | exact .inl h | exact .inr h
  have hmix : ∀ r r', (w.pc r).claiming = some c → (w.pc r').claimed = some c → False := by
    intro r r' h h'
    obtain ⟨i, rfl, ha, -⟩ := hi.claimed r' c h'
    exact ha (hi.free r i h)
  rcases hcases p hp with hp | hp <;> rcases hcases q hq with hq | hq
  · have := hi.apart p q hne c c hp hq
    omega
  · exact hmix p q hp hq
  · exact hmix q p hq hp
  · exact hi.distinct p q hne c hp hq

/-- **One call.** -/
theorem inv_step (hi : Inv m₀ w) (hs : Step d w p w') (hok : Apart w p) : Inv m₀ w' := by
  cases move_of_step hs with
  | @stay m pc hm hcid hclaiming hclaimed hearly =>
    -- nobody gets or makes alive a container
    have hg : ∀ r c, ((w.put p m pc).pc r).claiming = some c → (w.pc r).claiming = some c := by
      intro r c h
      by_cases e : r = p
      · subst e
        rw [put_pc_self] at h
        rcases hclaiming with h' | h' <;> rw [h'] at h
        · cases h
        · exact h
      · rwa [put_pc_ne e] at h
    have hd : ∀ r, ((w.put p m pc).pc r).claimed = (w.pc r).claimed := by
      intro r
      by_cases e : r = p
      · subst e; rw [put_pc_self, hclaimed]
      · rw [put_pc_ne e]
    have he : ∀ r, ((w.put p m pc).pc r).early = true → (w.pc r).early = true := by
      intro r h
      by_cases e : r = p
      · subst e; rw [put_pc_self] at h; exact hearly h
      · rwa [put_pc_ne e] at h
    refine ⟨fun i h => ?_, fun r i h => ?_, fun r r' hne c c' h h' => ?_, fun r c h => ?_,
      fun r r' hne c h => ?_, fun r r' hne h c h' => ?_⟩
    · rw [put_table, hm]; exact hi.alive i h
    · rw [put_table, hm]; exact hi.free r i (hg r _ h)
    · exact hi.apart r r' hne c c' (hg r c h) (hg r' c' h')
    · rw [hd] at h
      obtain ⟨i, rfl, ha⟩ := hi.claimed r c h
      exact ⟨i, rfl, by rw [put_table, hm]; exact ha⟩
    · rw [hd] at h ⊢; exact hi.distinct r r' hne c h
    · rw [put_table, getNewCid_congr hm]
      exact hi.next r r' hne (he r h) c (hg r' c h')
  | @get pc h hpc =>
    have hg : pc.claiming = some w.table.getNewCid := by rcases hpc with rfl | rfl <;> rfl
    have hd : pc.claimed = none := by rcases hpc with rfl | rfl <;> rfl
    have he : pc.early = false := by rcases hpc with rfl | rfl <;> rfl
    refine ⟨hi.alive, fun r i hr => ?_, fun r r' hne c c' hr hr' => ?_, fun r c hr => ?_,
      fun r r' hne c hr hr' => ?_, fun r r' hne hr c hr' => ?_⟩
    · by_cases e : r = p
      · subst e
        rw [put_pc_self, hg] at hr
        exact getNewCid_free (Option.some.inj hr)
      · rw [put_pc_ne e] at hr
        exact hi.free r i hr
    · by_cases e : r = p
      · subst e
        rw [put_pc_ne hne] at hr'
        exact .inr (hok h r' hne c' hr')
      · rw [put_pc_ne e] at hr
        exact .inl (hok h r e c hr)
    · by_cases e : r = p
      · subst e; rw [put_pc_self, hd] at hr; cases hr
      · rw [put_pc_ne e] at hr; exact hi.claimed r c hr
    · by_cases e : r = p
      · subst e; rw [put_pc_self, hd] at hr; cases hr
      · obtain rfl : r' = p := by omega
        rw [put_pc_self, hd] at hr'
        cases hr'
    · by_cases e : r = p
      · subst e; rw [put_pc_self, he] at hr; cases hr
      · obtain rfl : r' = p := by omega
        rw [put_pc_self, hg] at hr'
        exact Option.some.inj hr'
  | @claim i h =>
    have hfree : (w.table i).alive = 0 := hi.free p i (by rw [h]; rfl)
    have hmono : ∀ j, (w.table j).alive ≠ 0 →
        (update w.table i { w.table i with alive := 1 } j).alive ≠ 0 := by
      intro j hj
      have e : j ≠ i := by rintro rfl; exact hj hfree
      rwa [update_of_ne e]
    have hstart : (m₀ i).alive = 0 := by
      by_contra hn
      exact hi.alive i hn hfree
    refine ⟨fun j hj => hmono j (hi.alive j hj), fun r j hr => ?_, fun r r' hne c c' hr hr' => ?_,
      fun r c hr => ?_, fun r r' hne c hr hr' => ?_, fun r r' hne hr c hr' => ?_⟩
    · by_cases e : r = p
      · subst e; rw [put_pc_self] at hr; cases hr
      · rw [put_pc_ne e] at hr
        have := hi.apart p r e i j (by rw [h]; rfl) hr
        omega
    · by_cases e : r = p
      · subst e; rw [put_pc_self] at hr; cases hr
      · obtain rfl : r' = p := by omega
        rw [put_pc_self] at hr'
        cases hr'
    · by_cases e : r = p
      · subst e
        rw [put_pc_self] at hr
        cases hr
        refine ⟨i, rfl, ?_, hstart⟩
        rw [put_table, update_self]
        exact one_ne_zero
      · rw [put_pc_ne e] at hr
        obtain ⟨j, rfl, ha, hj⟩ := hi.claimed r c hr
        exact ⟨j, rfl, hmono j ha, hj⟩
    · -- who has made `i` alive before would have found it alive
      have hno : ∀ q, (w.pc q).claimed ≠ some (i : Int) := by
        intro q hq
        obtain ⟨j, hj, ha, -⟩ := hi.claimed q i hq
        obtain rfl : i = j := Fin.ext (by exact_mod_cast hj)
        exact ha hfree
      by_cases e : r = p
      · subst e
        rw [put_pc_self] at hr
        cases hr
        rw [put_pc_ne hne] at hr'
        exact hno r' hr'
      · obtain rfl : r' = p := by omega
        rw [put_pc_self] at hr'
        cases hr'
        rw [put_pc_ne e] at hr
        exact hno r hr
    · by_cases e : r = p
      · subst e; rw [put_pc_self] at hr; cases hr
      · obtain rfl : r' = p := by omega
        rw [put_pc_self] at hr'
        cases hr'

/-- A call of `get_new_cid` at the wrong moment gives both processes the same container. -/
theorem apart_of_step (hi : Inv m₀ w) (hs : Step d w p w') (hd : ¬ SameCid w') : Apart w p := by
  intro hpc q hne c hq
  by_contra hc
  have hnew : w.table.getNewCid = c := hi.next p q hne (by rw [hpc]; rfl) c hq
  refine hd ⟨p, q, c, hne, not_lt.mp hc, ?_, ?_⟩
  all_goals
    unfold Step step at hs
    simp only [hpc, hnew] at hs
    split at hs
  · rw [if_neg hc] at hs; cases hs; rw [put_pc_self]; rfl
  · cases hs; rw [put_pc_self]; rfl
  · cases hs; rw [put_pc_ne hne]; exact MakePc.cid_of_claiming hq
  · cases hs; rw [put_pc_ne hne]; exact MakePc.cid_of_claiming hq

/-- What a process has got it keeps, or it has returned. -/
theorem keeps_step (hs : Step d w p w') (h : (w.pc q).cid = some c ∨ w.pc q = .returned) :
    (w'.pc q).cid = some c ∨ w'.pc q = .returned := by
  have hlate : (w.pc q).early = false := MakePc.early_eq_false_iff.mpr <|
    h.imp_left fun h => by rw [h]; exact Option.some_ne_none c
  cases move_of_step hs with
  | @stay m pc hm hcid hclaiming hclaimed hearly =>
    by_cases e : q = p
    · subst e
      rw [put_pc_self]
      have hpc : pc.early = false := by
        by_contra hn
        rw [hearly (by simpa using hn)] at hlate
        cases hlate
      rcases MakePc.early_eq_false_iff.mp hpc with hc | hc
      · rcases hcid with h' | h'
        · exact absurd h' hc
        · rcases h with h | h
          · exact .inl (h'.trans h)
          · rw [h] at h'; exact absurd h' hc
      · exact .inr hc
    · rwa [put_pc_ne e]
  | get hpc _ =>
    by_cases e : q = p
    · subst e; rw [hpc] at hlate; cases hlate
    · rwa [put_pc_ne e]
  | claim hpc =>
    by_cases e : q = p
    · subst e
      rw [hpc] at h
      rw [put_pc_self]
      rcases h with h | h
      · exact .inl h
      · cases h
    · rwa [put_pc_ne e]

/-! ### Runs -/

/-- Two processes that have got the same container both have it at the end, or one of them has
returned. -/
theorem sameCid_run (hr : Run (Step d) w t w') (h₀ : (w'.pc 0).claimed = some c₀)
    (h₁ : (w'.pc 1).claimed = some c₁) (h : SameCid w) : c₀ = c₁ := by
  obtain ⟨p, q, c, hne, -, hp, hq⟩ := h
  have hkeep : ∀ r, (w.pc r).cid = some c → ∀ c', (w'.pc r).claimed = some c' → c' = c := by
    intro r h c' h'
    have hend := (hr.inv_all (I := fun w => (w.pc r).cid = some c ∨ w.pc r = .returned)
      (fun _ _ _ h hs => keeps_step hs h) (.inl h)).2
    rcases hend with hend | hend
    · exact Option.some.inj ((MakePc.cid_of_claimed h').symm.trans hend)
    · rw [hend] at h'; cases h'
  have hboth : ∀ r, (w.pc r).cid = some c := by
    intro r
    by_cases e : r = p
    · rw [e]; exact hp
    · obtain rfl : r = q := by omega
      exact hq
  rw [hkeep 0 (hboth 0) c₀ h₀, hkeep 1 (hboth 1) c₁ h₁]

/-- A state of a run of two processes that end up with different containers. -/
theorem not_sameCid_mem (hr : Run (Step d) w t w') (h₀ : (w'.pc 0).claimed = some c₀)
    (h₁ : (w'.pc 1).claimed = some c₁) (hne : c₀ ≠ c₁) :
    (∀ x ∈ t, ¬ SameCid x.1) ∧ ¬ SameCid w' := by
  induction hr with
  | refl => exact ⟨by simp, fun h => hne (sameCid_run (d := d) (.refl _) h₀ h₁ h)⟩
  | more h r ih =>
    obtain ⟨ht, hw⟩ := ih h₀ h₁
    exact ⟨List.forall_mem_cons.mpr ⟨fun hs => hne (sameCid_run (.more h r) h₀ h₁ hs), ht⟩, hw⟩

/-- In a state of the invariant no name or limit of a container that was alive before is set. -/
theorem Inv.writesFresh (hi : Inv m₀ w) (p : Fin 2) : WritesFresh m₀ w p := by
  intro i hw hb
  cases hpc : w.pc p <;> rw [hpc] at hw <;> try cases hw
  case setname =>
    have hfree : (w.table i).alive = 0 := hi.free p i (by rw [hpc]; rfl)
    rcases hb with hb | ⟨q, -, hq⟩
    · exact hi.alive i hb hfree
    · obtain ⟨j, hj, ha, -⟩ := hi.claimed q i hq
      obtain rfl : i = j := Fin.ext (by exact_mod_cast hj)
      exact ha hfree
  case setmaxproc =>
    have hcl : (w.pc p).claimed = some (i : Int) := by rw [hpc]; rfl
    rcases hb with hb | ⟨q, hne, hq⟩
    · obtain ⟨j, hj, -, ha⟩ := hi.claimed p i hcl
      obtain rfl : i = j := Fin.ext (by exact_mod_cast hj)
      exact hb ha
    · exact hi.distinct p q hne i hcl hq

/-- **Container ids are unique.**  In every run from any table in which both processes make a
container alive, the two containers differ and no container that was alive before gets a new name
or process limit, iff no process calls `get_new_cid` while the other is between its own call and its
`setalive`. -/
theorem cids_differ_iff {t : List (Making × Fin 2)} {c₀ c₁ : Int} (hr : Run (Step d) (init m₀) t w)
    (h₀ : (w.pc 0).claimed = some c₀) (h₁ : (w.pc 1).claimed = some c₁) :
    (c₀ ≠ c₁ ∧ ∀ x ∈ t, WritesFresh m₀ x.1 x.2) ↔ ∀ x ∈ t, Apart x.1 x.2 := by
  have hiff := hr.inv_iff (I := Inv m₀) (P := fun w => ¬ SameCid w) (fun _ hi => hi.not_sameCid)
    (fun w p _ hi hs (hok : Apart w p) => inv_step hi hs hok)
    (fun _ _ _ hi hs hd => apart_of_step hi hs hd) (inv_init m₀)
  refine ⟨fun h => hiff.mp (not_sameCid_mem hr h₀ h₁ h.1), fun hok => ?_⟩
  obtain ⟨hall, hend⟩ := hr.inv (I := Inv m₀)
    (fun w p _ hi hs (hok : Apart w p) => inv_step hi hs hok) (inv_init m₀) hok
  refine ⟨fun e => hend.distinct 0 1 (by decide) c₀ h₀ (by rw [e]; exact h₁), fun x hx => ?_⟩
  exact (hall x hx).writesFresh x.2

instance (w : Making) (p : Fin 2) : Decidable (Apart w p) :=
  inferInstanceAs (Decidable (_ → ∀ q, q ≠ p → ∀ c ∈ (w.pc q).claiming, c < 0))

instance (m₀ : ConTable) (w : Making) (p : Fin 2) : Decidable (WritesFresh m₀ w p) :=
  inferInstanceAs (Decidable (∀ c : Fin MAX_NUM_CONTAINERS, _ →
    ¬ ((m₀ c).alive ≠ 0 ∨ ∃ q, q ≠ p ∧ (w.pc q).claimed = some (c : Int))))

/-- A process whose `parse_spec` returns 0, in `io_container`. -/
def ioMaker (fs : CStr) (nproc : Int) : Maker := ⟨.ioContainer, 0, fs, nproc, 0⟩

/-- `Step` as a function. -/
def exec? (d : Fin 2 → Maker) (w : Making) (p : Fin 2) : Option Making :=
  match w.step d p with
  | .ok w' => some w'
  | .error _ => none

theorem step_of_exec? (d : Fin 2 → Maker) (w : Making) (p : Fin 2) (w' : Making)
    (h : w.exec? d p = some w') : Step d w p w' := by
  unfold exec? at h
  split at h
  · next hs => cases h; exact hs
  · cases h

/-- Two calls of `io_container`, by processes with the root directories `a` and `b`. -/
def twoMakers : Fin 2 → Maker := fun p => if p.val = 0 then ioMaker [97] 3 else ioMaker [98] 7

/-- No container is alive. -/
def noContainers : ConTable := fun _ => ⟨0, [], 0⟩

/-- One process after the other: they make the containers 0 and 1. -/
theorem cids_differ_sequential : ∃ t w, Run (Step twoMakers) (init noContainers) t w ∧
    ((0 : Int) ≠ 1 ∧ ∀ x ∈ t, WritesFresh noContainers x.1 x.2) := by
  obtain ⟨w, hr, h₀, h₁⟩ := exists_run (step_of_exec? twoMakers) (init noContainers)
    [0, 0, 0, 0, 0, 1, 1, 1, 1, 1]
    (fun w => (w.pc 0).claimed = some 0 ∧ (w.pc 1).claimed = some 1) (by decide +kernel)
  exact ⟨_, w, hr, (cids_differ_iff hr h₀ h₁).mpr (by decide +kernel)⟩

/-- **Two processes make the same container.**  Both call `get_new_cid` before either has called
`setalive`: both get container 0, and the second gives the container of the first another name and
process limit. -/
theorem cid_given_twice : ∃ t w, Run (Step twoMakers) (init noContainers) t w ∧
    ((w.pc 0).claimed = some 0 ∧ (w.pc 1).claimed = some 0) ∧
    ∃ x ∈ t, ¬ WritesFresh noContainers x.1 x.2 := by
  obtain ⟨w, hr, hw⟩ := exists_run (step_of_exec? twoMakers) (init noContainers)
    [0, 0, 1, 1, 0, 0, 0, 1, 1, 1]
    (fun w => (w.pc 0).claimed = some 0 ∧ (w.pc 1).claimed = some 0) (by decide +kernel)
  exact ⟨_, w, hr, hw, by decide +kernel⟩

/-! ### `cm_create_and_enter` -/

theorem initDir_nonpos (d : Maker) : d.initDir ≤ 0 := by
  unfold Maker.initDir
  split <;> decide

/-- Before `setname`, or returned. -/
def givesUp : MakePc → Prop
  | .parse | .getNewCid | .initDir _ | .returned => True
  | .setname _ | .setalive _ | .setmaxproc _ | .made _ => False

theorem givesUp_step (hfn : (d p).fn = .cmCreateAndEnter) (h : givesUp (w.pc p))
    (hs : Step d w p w') : givesUp (w'.pc p) ∧ w'.table = w.table := by
  unfold Step step at hs
  cases hpc : w.pc p with
  | parse =>
    simp only [hpc] at hs
    cases hs
    exact ⟨by rw [put_pc_self]; split <;> trivial, rfl⟩
  | getNewCid =>
    simp only [hpc, hfn] at hs
    cases hs
    exact ⟨by rw [put_pc_self]; split <;> trivial, rfl⟩
  | initDir c =>
    simp only [hpc, if_pos (initDir_nonpos (d p))] at hs
    cases hs
    exact ⟨by rw [put_pc_self]; trivial, rfl⟩
  | returned => simp only [hpc] at hs; cases hs; exact ⟨h, rfl⟩
  | setname c | setalive c | setmaxproc c | made c => rw [hpc] at h; exact h.elim

end Making

/-- What the calls of `cm_create_and_enter` return: `parse_spec`, with the `fs` and `nproc` it has
read, `mkdir`, whether all files could be copied, both calls of `pipe`, `fork2` in the parent. -/
structure CmCalls where
  retcode : Int
  fs : CStr
  nproc : Int
  mkdir : Int
  copied : Bool
  pipes : Int × Int
  fork2 : Int

/-- The containers, the directories made and the containers of the processes forked. -/
structure CmState where
  table : ConTable
  dirs : List CStr
  forked : List Int

namespace CmCalls

def INIT_DIR_ERROR : Int := 0

variable {x : CmCalls} {s s' : CmState} {r : Int}

/-- `init_dir(fs)`; there is no result when a file cannot be copied and the process exits. -/
def initDir (x : CmCalls) (s : CmState) : Option Int × CmState :=
  if x.mkdir ≠ 0 then (some (-1), s)
  else (if x.copied then some 0 else none, { s with dirs := x.fs :: s.dirs })

/-- `cm_create_and_enter`, in the process that calls it.  `setvc` sets fields that are not shown. -/
def cmCreateAndEnter (x : CmCalls) (s : CmState) : Res (Option Int × CmState) :=
  if x.retcode ≠ 0 then .ok (some x.retcode, s)
  else
    let cid := s.table.getNewCid
    if cid < 0 then .ok (some cid, s)
    else match x.initDir s with
      | (none, s) => .ok (none, s)
      | (some r, s) =>
        if r ≤ 0 then .ok (some INIT_DIR_ERROR, s)
        else do
          let t ← s.table.setname cid x.fs
          let t ← t.setalive cid 1
          let t ← t.setmaxproc cid x.nproc
          let s := { s with table := t }
          if x.pipes.1 ≠ 0 then return (some (-1), s)
          if x.pipes.2 ≠ 0 then return (some (-1), s)
          return (some 0, if x.fork2 > 0 then { s with forked := cid :: s.forked } else s)

/-- A call that returns 0 has made one container, its directory and a process in it; one with another
result has changed no container. -/
def AllOrNothing (x : CmCalls) (s : CmState) (r : Int) (s' : CmState) : Prop :=
  (r = 0 → ∃ c : Fin MAX_NUM_CONTAINERS, (s.table c).alive = 0 ∧ (s'.table c).alive ≠ 0 ∧
    (s'.table c).name = x.fs ∧ (s'.table c).maxProc = x.nproc ∧
    (∀ c', c' ≠ c → s'.table c' = s.table c') ∧ x.fs ∈ s'.dirs ∧ (c : Int) ∈ s'.forked) ∧
  (r ≠ 0 → s'.table = s.table)

theorem initDir_spec {o : Option Int} (h : x.initDir s = (o, s')) :
    (∀ r ∈ o, r ≤ 0) ∧ s'.table = s.table := by
  unfold initDir at h
  split at h
  · cases h
    exact ⟨fun r hr => by cases hr; decide, rfl⟩
  cases h
  refine ⟨fun r hr => ?_, rfl⟩
  split at hr
  · cases hr; decide
  · cases hr

/-- **Container creation is all or nothing** exactly when `cm_create_and_enter` gives up before it
calls `init_dir`. -/
theorem all_or_nothing_iff (h : x.cmCreateAndEnter s = .ok (some r, s')) :
    AllOrNothing x s r s' ↔ x.retcode ≠ 0 ∨ s.table.getNewCid < 0 := by
  unfold cmCreateAndEnter at h
  split at h
  · next hret =>
    cases h
    exact ⟨fun _ => .inl hret, fun _ => ⟨fun h => absurd h hret, fun _ => rfl⟩⟩
  next hret =>
  dsimp only at h
  split at h
  · next hcid =>
    cases h
    exact ⟨fun _ => .inr hcid, fun _ => ⟨fun h => by omega, fun _ => rfl⟩⟩
  next hcid =>
  refine ⟨fun hall => ?_, fun h => (h.elim hret hcid).elim⟩
  split at h
  · cases h
  next r₀ s₁ hinit =>
  obtain ⟨hle, htable⟩ := initDir_spec hinit
  rw [if_pos (hle r₀ rfl)] at h
  cases h
  -- it returns 0, and no container has changed
  obtain ⟨c, hdead, halive, -⟩ := hall.1 rfl
  rw [htable] at halive
  exact absurd hdead halive

/-- A specification for the root directory `a` and three processes, and calls that all succeed. -/
def allSucceed : CmCalls := ⟨0, [97], 3, 0, true, (0, 0), 4⟩

/-- The specification cannot be read. -/
theorem all_or_nothing_unread : AllOrNothing { allSucceed with retcode := -1 }
    ⟨Making.noContainers, [], []⟩ (-1) ⟨Making.noContainers, [], []⟩ :=
  (all_or_nothing_iff (x := { allSucceed with retcode := -1 }) rfl).mpr (.inl (by decide))

/-- **Success without a container.**  All calls succeed; `cm_create_and_enter` returns 0, with a
directory and no container. -/
theorem created_nothing : allSucceed.cmCreateAndEnter ⟨Making.noContainers, [], []⟩ =
      .ok (some 0, ⟨Making.noContainers, [[97]], []⟩) ∧
    ¬ AllOrNothing allSucceed ⟨Making.noContainers, [], []⟩ 0
      ⟨Making.noContainers, [[97]], []⟩ := by
  refine ⟨rfl, fun h => ?_⟩
  obtain ⟨c, hdead, halive, -⟩ := h.1 rfl
  exact halive hdead

end CmCalls

end Xv6
