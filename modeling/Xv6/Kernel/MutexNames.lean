import Xv6.Kernel.Life

/-!
# Kernel — MutexNames

Which mutex `mutex_get(name)` gives.  `created` is the history the names are about: the name with
which each slot of `mutexes` was last created.

* `names_step`: no step but `mutex_create` changes a name buffer.
* `prefixes_run`: the name a slot was last created with starts its buffer; what an earlier, longer
  name left behind may follow, as `strncpy` is given the length without the NUL.
* `mutexGet_iff`: `mutex_get` compares only that many bytes of the buffers, of free slots too, and
  stops at the first free handle before it has seen them all.  So it does what it is for exactly
  where these make no difference (`GetCond`).
-/

namespace Xv6

open Lib Function List Mux

namespace Mux

variable {m : Mux} {p : Slot} {g : Mid} {name : CStr}

/-! ### The names -/

/-- The name buffers. -/
def names (m : Mux) (g : Mid) : CStr := (m.mutexes g).name

/-! ### The loop of `mutex_get` -/

/-- Has `p` a free handle? -/
def HasFree (m : Mux) (p : Slot) : Prop := ∃ i, m.locks p i = none

/-- Has `p` a handle to `g`? -/
def Holds (m : Mux) (p : Slot) (g : Mid) : Prop := ∃ i, m.locks p i = some g

/-- What the loop over the handles can do. -/
theorem getLoop_cases (m : Mux) (p : Slot) (g : Mid) : ∀ is : List (Fin MUX_MAXNUM),
    (getLoop m p g is = (-1, m) ∧ ∀ i ∈ is, m.locks p i ≠ none) ∨
    (getLoop m p g is = (-2, m) ∧ ∃ i ∈ is, m.locks p i = some g) ∨
    ∃ i, m.locks p i = none ∧ getLoop m p g is = ((i.val : Int), m.setLock p i (some g))
  | [] => .inl ⟨rfl, fun _ h => by cases h⟩
  | i :: is => by
    rw [getLoop]
    split
    · next h => exact .inr (.inl ⟨rfl, i, mem_cons_self, h⟩)
    split
    · next h => exact .inr (.inr ⟨i, h, rfl⟩)
    next h =>
    rcases getLoop_cases m p g is with ⟨he, hn⟩ | ⟨he, j, hj, hg⟩ | ⟨j, hj, he⟩
    · exact .inl ⟨he, forall_mem_cons.mpr ⟨h, hn⟩⟩
    · exact .inr (.inl ⟨he, j, mem_cons_of_mem _ hj, hg⟩)
    · exact .inr (.inr ⟨j, hj, he⟩)

/-- The loop sees the handle to `g` when no free handle stands before it. -/
theorem getLoop_held_iff : ∀ {is : List (Fin MUX_MAXNUM)}, is.Pairwise (· < ·) →
    (getLoop m p g is = (-2, m) ↔
      ∃ j ∈ is, m.locks p j = some g ∧ ∀ i ∈ is, i < j → m.locks p i ≠ none)
  | [], _ => ⟨fun h => (by cases h), fun ⟨_, h, _⟩ => (by cases h)⟩
  | i :: is, hs => by
    obtain ⟨hlt, hs⟩ := pairwise_cons.mp hs
    have ih := getLoop_held_iff hs
    rw [getLoop]
    split
    · next h =>
      refine ⟨fun _ => ⟨i, mem_cons_self, h, fun j hj hji => ?_⟩, fun _ => rfl⟩
      rcases mem_cons.mp hj with rfl | hj
      · exact absurd hji (lt_irrefl _)
      · exact absurd (hlt j hj) (lt_asymm hji)
    · next hg =>
      split
      · next hf =>
        refine ⟨fun h => ?_, ?_⟩
        · have := congrArg Prod.fst h
          dsimp only at this
          omega
        · rintro ⟨j, hj, hjg, hbefore⟩
          rcases mem_cons.mp hj with rfl | hj
          · exact absurd hjg hg
          · exact absurd hf (hbefore i mem_cons_self (hlt j hj))
      · next hf =>
        rw [ih]
        constructor
        · rintro ⟨j, hj, hjg, hbefore⟩
          exact ⟨j, mem_cons_of_mem _ hj, hjg, forall_mem_cons.mpr ⟨fun _ => hf, hbefore⟩⟩
        · rintro ⟨j, hj, hjg, hbefore⟩
          rcases mem_cons.mp hj with rfl | hj
          · exact absurd hjg hg
          · exact ⟨j, hj, hjg, fun i hi => hbefore i (mem_cons_of_mem _ hi)⟩

/-- The first slot of `mutexes` with a property. -/
def First (P : Mid → Prop) (g : Mid) : Prop := P g ∧ ∀ g' < g, ¬ P g'

/-- Does the buffer of `g` start with `name`? -/
def Matches (m : Mux) (name : CStr) (g : Mid) : Prop := name <+: m.names g

theorem findMutex_eq_none : m.findMutex name = none ↔ ∀ g, ¬ m.Matches name g := by
  simp [findMutex, Matches, names]

theorem findMutex_eq_some : m.findMutex name = some g ↔ First (m.Matches name) g := by
  unfold findMutex
  rw [find?_eq_some_iff_append]
  have hsorted := pairwise_lt_finRange MUX_MAXNUM
  constructor
  · rintro ⟨hg, l₁, l₂, hl, hn⟩
    refine ⟨by simpa [Matches, names] using hg, fun g' hlt => ?_⟩
    rw [hl, pairwise_append] at hsorted
    obtain ⟨-, h₂, -⟩ := hsorted
    have hmem : g' ∈ l₁ ++ g :: l₂ := hl ▸ mem_finRange g'
    rcases mem_append.mp hmem with h | h
    · simpa [Matches, names] using hn g' h
    · rcases mem_cons.mp h with rfl | h
      · exact absurd hlt (lt_irrefl _)
      · exact absurd ((pairwise_cons.mp h₂).1 g' h) (lt_asymm hlt)
  · rintro ⟨hg, hn⟩
    refine ⟨by simpa [Matches, names] using hg, ?_⟩
    obtain ⟨l₁, l₂, hl⟩ := append_of_mem (mem_finRange g)
    refine ⟨l₁, l₂, hl, fun g' hg' => ?_⟩
    rw [hl, pairwise_append] at hsorted
    simpa [Matches, names] using hn g' (hsorted.2.2 g' hg' g mem_cons_self)

end Mux

namespace Kernel

variable {k k' : Kernel} {p : Slot} {op : Op} {m : Mux} {name : CStr} {g : Mid}

/-! ### The steps that leave the names alone -/

theorem same_name : Mux.EachRel fun e e' => e'.name = e.name where
  same _ := rfl
  next h₁ h₂ := h₂.trans h₁
  count _ _ := rfl

theorem name_locks (p : Slot) : CvLocks p fun k k' =>
    Mux.Each (fun e e' => e'.name = e.name) k.mux k'.mux :=
  same_name.cvLocks p (fun _ _ => rfl) fun _ _ => rfl

/-- **The names.**  Only `mutex_create` writes them. -/
theorem names_step (hs : Step k op k') (hop : ∀ p name, op ≠ .mutexCreate p name) :
    k'.mux.names = k.mux.names := by
  have hkind := step_kind hs
  obtain ⟨he, r, hs⟩ := hs
  refine funext ?_
  cases hkind with
  | scheduler | prioSet | growproc | exec | shmGet | shmRem => exact same_name.refl _
  | mutexCreate => exact absurd rfl (hop _ _)
  | mutexGet => exact same_name.mutexGet _ _ _
  | mutexDelete => exact (same_name.deletes _ fun _ => rfl).mutexDelete _ _
  | allocFirst _ h => exact each_alloc same_name h
  | userinit hp h => rw [(userinit_cases hp h).2.2]; exact same_name.refl _
  | fork2 _ h => exact each_fork2 same_name h
  | exit _ h => exact each_exit same_name (fun _ => rfl) h
  | reap _ _ _ hm => rw [hm]; exact same_name.refl _
  | still ho =>
    cases op with
    | wait p => exact each_wait same_name hs
    | kill | yield | sleep | wakeup | containers => cases hs; exact same_name.refl _
    | resume p => exact ((name_locks p).resume he.1 hs).elim id (each_wait same_name)
    | mutexLock p muxid => rw [← Res.snd_of_ok hs]; exact (name_locks p).mutexLock muxid he.1
    | mutexUnlock p muxid => cases hs; exact (name_locks p).mutexUnlock k p muxid
    | cvWait p muxid => exact (name_locks p).cvWait he.1 hs
    | cvSignal p muxid => cases hs; exact (name_locks p).cvSignal k p muxid
    | _ => exact absurd ho id

/-! ### The history -/

/-- The name with which each slot was last created, after one more operation. -/
def created (h : Mid → Option CStr) : Kernel × Op → Mid → Option CStr
  | (k, .mutexCreate _ name) =>
    match k.mux.freeMutex with
    | none => h
    | some g => update h g (some name)
  | _ => h

/-- The name with which each slot was last created, along a trace. -/
def lastCreated (t : List (Kernel × Op)) : Mid → Option CStr := t.foldl created fun _ => none

/-- The buffer of a slot starts with the name it was last created with. -/
def Prefixes (h : Mid → Option CStr) (m : Mux) : Prop :=
  ∀ g name, h g = some name → m.Matches name g

/-- `mutex_create` writes the name of the slot it takes. -/
theorem names_mutexCreate {m' : Mux} {r : Int} (h : m.mutexCreate p name = .ok (r, m')) :
    (m.freeMutex = none ∧ m'.names = m.names) ∨ ∃ g, m.freeMutex = some g ∧
      m'.names = update m.names g (name ++ (m.names g).drop name.length) := by
  unfold mutexCreate at h
  cases hg : m.freeMutex with
  | none => rw [hg] at h; cases h; exact .inl ⟨rfl, rfl⟩
  | some g =>
    refine .inr ⟨g, rfl, ?_⟩
    rw [hg] at h
    obtain ⟨buf, hb, h⟩ := of_bind h
    obtain rfl : name ++ (m.names g).drop name.length = buf := by
      unfold copyName at hb
      split at hb
      · exact Except.ok.inj hb
      · cases hb
    have hnames : (m.upd g fun e => { e with
        name := name ++ (m.names g).drop name.length, count := e.count + 1,
        slp := ⟨false, 0⟩ }).names =
        update m.names g (name ++ (m.names g).drop name.length) := by
      funext j
      unfold names
      rw [upd_mutexes, update_apply]
      split <;> rfl
    dsimp only at h
    split at h
    · cases h; exact hnames
    · cases h; exact hnames

theorem prefixes_step {h : Mid → Option CStr} (hi : Prefixes h k.mux) (hs : Step k op k') :
    Prefixes (created h (k, op)) k'.mux := by
  by_cases hop : ∃ p name, op = .mutexCreate p name
  · obtain ⟨p, name, rfl⟩ := hop
    obtain ⟨-, r, hs⟩ := hs
    obtain ⟨⟨c, m⟩, hc, hs⟩ := of_bind hs
    cases hs
    simp only [created]
    rcases names_mutexCreate hc with ⟨hf, hn⟩ | ⟨g, hf, hn⟩
    · rw [hf]
      intro g' n hg'
      rw [Mux.Matches, hn]
      exact hi g' n hg'
    rw [hf]
    intro g' n hg'
    rw [Mux.Matches, hn]
    by_cases e : g' = g
    · subst e
      simp only [update_self, Option.some.injEq] at hg' ⊢
      exact hg' ▸ prefix_append _ _
    · simp only [update_of_ne e] at hg' ⊢
      exact hi g' n hg'
  · have hne : ∀ p name, op ≠ .mutexCreate p name := fun p name e => hop ⟨p, name, e⟩
    have hsame : created h (k, op) = h := by
      cases op <;> first | rfl | exact absurd rfl (hne _ _)
    rw [hsame]
    intro g n hg
    rw [Mux.Matches, names_step hs hne]
    exact hi g n hg

theorem prefixes_run {m : Kmem} {t : List (Kernel × Op)} (hr : Run Step (boot m) t k) :
    Prefixes (lastCreated t) k.mux :=
  hr.inv_history created (I := fun h k => Prefixes h k.mux)
    (fun _ _ _ _ h hs => prefixes_step h hs) fun _ _ h => by cases h

/-! ### What `mutex_get` is for -/

/-- `g` is in use, and was last created with `name`. -/
def Named (h : Mid → Option CStr) (m : Mux) (name : CStr) (g : Mid) : Prop :=
  0 < (m.mutexes g).count ∧ h g = some name

/-- The answer of `mutex_get(name)` to `p`. -/
structure GetSpec (h : Mid → Option CStr) (m : Mux) (p : Slot) (name : CStr) (r : Int × Mux) :
    Prop where
  absent : (∀ g, ¬ Named h m name g) → m.HasFree p → r = (-1, m)
  found : ∀ g, Mux.First (Named h m name) g → m.HasFree p → ¬ m.Holds p g →
    ∃ i g', Named h m name g' ∧ m.locks p i = none ∧ r = ((i.val : Int), m.setLock p i (some g'))
  held : ∀ g, Mux.First (Named h m name) g → m.Holds p g → r = (-2, m)

/-- The condition: if no slot is so named, no buffer starts with `name`; if one is, no buffer
before it does; and a handle to the slot that is found stands before every free one. -/
structure GetCond (h : Mid → Option CStr) (m : Mux) (p : Slot) (name : CStr) : Prop where
  absent : (∀ g, ¬ Named h m name g) → m.HasFree p → ∀ g, ¬ m.Matches name g
  found : ∀ g, Mux.First (Named h m name) g → m.HasFree p → ¬ m.Holds p g →
    ∀ g' < g, ¬ m.Matches name g'
  held : ∀ g, Mux.First (Named h m name) g → m.Holds p g →
    ∃ g' j, Mux.First (m.Matches name) g' ∧ m.locks p j = some g' ∧ ∀ i < j, m.locks p i ≠ none

theorem mutexGet_absent (hfree : m.HasFree p) :
    m.mutexGet p name = (-1, m) ↔ ∀ g, ¬ m.Matches name g := by
  rw [← findMutex_eq_none]
  unfold mutexGet
  cases m.findMutex name with
  | none => simp
  | some g =>
    refine ⟨fun h => ?_, fun h => (by cases h)⟩
    dsimp only at h
    obtain ⟨i, hi⟩ := hfree
    rcases getLoop_cases m p g (finRange MUX_MAXNUM) with
      ⟨-, hn⟩ | ⟨he, -⟩ | ⟨j, -, he⟩
    · exact absurd hi (hn i (mem_finRange i))
    · rw [he] at h
      cases h
    · have := congrArg Prod.fst (he.symm.trans h)
      dsimp only at this
      omega

theorem mutexGet_held : m.mutexGet p name = (-2, m) ↔ ∃ g j, Mux.First (m.Matches name) g ∧
      m.locks p j = some g ∧ ∀ i < j, m.locks p i ≠ none := by
  have hsorted := pairwise_lt_finRange MUX_MAXNUM
  unfold mutexGet
  cases hf : m.findMutex name with
  | none =>
    refine ⟨fun h => (by cases h), ?_⟩
    rintro ⟨g, j, hg, -⟩
    exact absurd hg.1 (findMutex_eq_none.mp hf g)
  | some g =>
    dsimp only
    rw [getLoop_held_iff hsorted]
    constructor
    · rintro ⟨j, -, hj, hb⟩
      exact ⟨g, j, findMutex_eq_some.mp hf, hj, fun i => hb i (mem_finRange i)⟩
    · rintro ⟨g', j, hg', hj, hb⟩
      obtain rfl : g = g' := Option.some.inj (hf.symm.trans (findMutex_eq_some.mpr hg'))
      exact ⟨j, mem_finRange j, hj, fun i _ => hb i⟩

/-- A new handle is one to the first slot whose buffer starts with the name. -/
theorem mutexGet_handle {i : Fin MUX_MAXNUM}
    (h : m.mutexGet p name = ((i.val : Int), m.setLock p i (some g))) :
    Mux.First (m.Matches name) g := by
  have hne : ∀ {v : Int} {m' : Mux}, v < 0 → (v, m') ≠ ((i.val : Int), m.setLock p i (some g)) :=
    fun hv e => by
      have := congrArg Prod.fst e
      dsimp only at this
      omega
  unfold mutexGet at h
  cases hf : m.findMutex name with
  | none => rw [hf] at h; exact absurd h (hne (by decide))
  | some g₀ =>
    rw [hf] at h
    dsimp only at h
    rcases getLoop_cases m p g₀ (finRange MUX_MAXNUM) with
      ⟨he, -⟩ | ⟨he, -⟩ | ⟨j, -, he⟩
    · exact absurd (he.symm.trans h) (hne (by decide))
    · exact absurd (he.symm.trans h) (hne (by decide))
    obtain ⟨h₁, h₂⟩ := Prod.mk.inj (he.symm.trans h)
    obtain rfl : j = i := Fin.ext (by omega)
    have hlock := congrArg (fun m => m.locks p j) h₂
    simp only [setLock_locks_self, update_self, Option.some.injEq] at hlock
    exact hlock ▸ findMutex_eq_some.mp hf

theorem mutexGet_fresh (hg : Mux.First (m.Matches name) g) (hfree : m.HasFree p)
    (hno : ¬ m.Holds p g) : ∃ i, m.locks p i = none ∧
      m.mutexGet p name = ((i.val : Int), m.setLock p i (some g)) := by
  unfold mutexGet
  rw [findMutex_eq_some.mpr hg]
  obtain ⟨i, hi⟩ := hfree
  rcases getLoop_cases m p g (finRange MUX_MAXNUM) with
    ⟨-, hn⟩ | ⟨-, j, -, hj⟩ | ⟨j, hj, he⟩
  · exact absurd hi (hn i (mem_finRange i))
  · exact absurd ⟨j, hj⟩ hno
  · exact ⟨j, hj, he⟩

/-- **Lookup by name.**  In every state of every run, `mutex_get` answers as it is meant to exactly
when `GetCond` holds. -/
theorem mutexGet_iff {m : Kmem} {t : List (Kernel × Op)} (hr : Run Step (boot m) t k) (p : Slot)
    (name : CStr) : GetSpec (lastCreated t) k.mux p name (k.mux.mutexGet p name) ↔
      GetCond (lastCreated t) k.mux p name := by
  have hpre := prefixes_run hr
  -- a slot so named is among those whose buffer starts with the name
  have hmatch : ∀ g, Named (lastCreated t) k.mux name g → k.mux.Matches name g :=
    fun g hg => hpre g name hg.2
  constructor
  · intro h
    refine ⟨fun hn hf => (mutexGet_absent hf).mp (h.absent hn hf), fun g hg hf hno => ?_,
      fun g hg hh => mutexGet_held.mp (h.held g hg hh)⟩
    obtain ⟨i, g', hg', -, he⟩ := h.found g hg hf hno
    have hfirst := mutexGet_handle he
    intro g'' hlt hm
    rcases lt_trichotomy g' g with hl | rfl | hl
    · exact hg.2 g' hl hg'
    · exact hfirst.2 g'' hlt hm
    · exact hfirst.2 g hl (hmatch g hg.1)
  · intro h
    refine ⟨fun hn hf => (mutexGet_absent hf).mpr (h.absent hn hf), fun g hg hf hno => ?_,
      fun g hg hh => mutexGet_held.mpr (h.held g hg hh)⟩
    obtain ⟨i, hi, he⟩ := mutexGet_fresh ⟨hmatch g hg.1, h.found g hg hf hno⟩ hf hno
    exact ⟨i, g, hg.1, hi, he⟩

/-- A process asks for the mutex that its parent has created. -/
theorem mutexGet_shared : ∃ t k, Run Step (boot smallMem) t k ∧ Named (lastCreated t) k.mux [97] 0 ∧
    GetSpec (lastCreated t) k.mux 1 [97] (k.mux.mutexGet 1 [97]) := by
  let ops : List Op := forkOps ++ [.mutexCreate 0 [97]]
  obtain ⟨k, hr, hc, hlocks⟩ := exists_run step_of_exec? (boot smallMem) ops
    (fun k => 0 < (k.mux.mutexes 0).count ∧ ∀ i, k.mux.locks 1 i ≠ some 0) (by decide +kernel)
  have hname : lastCreated (traceFn exec? (boot smallMem) ops) 0 = some [97] := by decide +kernel
  have hzero : ∀ g : Mid, ¬ g < 0 := fun g hg => absurd hg (by simp)
  have hfirst : ∀ g, Mux.First (Named (lastCreated (traceFn exec? (boot smallMem) ops)) k.mux
      [97]) g → g = 0 := fun g hg => by
    by_contra hne
    exact hg.2 0 (Fin.pos_iff_ne_zero.mpr hne) ⟨hc, hname⟩
  refine ⟨_, k, hr, ⟨hc, hname⟩, (mutexGet_iff hr 1 [97]).mpr ⟨fun hn => ?_,
    fun g hg _ _ g' hlt => ?_, fun g hg hh => ?_⟩⟩
  · exact absurd ⟨hc, hname⟩ (hn 0)
  · rw [hfirst g hg] at hlt
    exact absurd hlt (hzero g')
  · obtain ⟨i, hi⟩ := hh
    rw [hfirst g hg] at hi
    exact absurd hi (hlocks i)

/-- **A prefix is enough.**  The first process creates a mutex `ab`; its child, which has no handle
to it, asks for `a` and gets one. -/
theorem mutexGet_prefix : ∃ t k, Run Step (boot smallMem) t k ∧
    ¬ GetSpec (lastCreated t) k.mux 1 [97] (k.mux.mutexGet 1 [97]) := by
  let ops : List Op := forkOps ++ [.mutexCreate 0 [97, 98]]
  obtain ⟨k, hr, hl, hg⟩ := exists_run step_of_exec? (boot smallMem) ops
    (fun k => k.mux.locks 1 0 = none ∧ (k.mux.mutexGet 1 [97]).1 = 0) (by decide +kernel)
  have hname : ∀ g, lastCreated (traceFn exec? (boot smallMem) ops) g ≠ some [97] := by
    decide +kernel
  refine ⟨_, k, hr, fun h => ?_⟩
  have := h.absent (fun g hn => hname g hn.2) ⟨0, hl⟩
  rw [this] at hg
  cases hg

end Kernel

end Xv6
