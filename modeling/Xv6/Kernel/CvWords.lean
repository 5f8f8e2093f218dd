import Xv6.Kernel.Life

/-!
# Kernel — CvWords

`cv_wait` and `cv_signal` on the words of `mutexes`, as the compiler lays `struct mutex` out: the
array `waiting_procs` is followed by `cv_count`, the two locks and the next mutex.

`cv_wait` writes `waiting_procs[curproc->pid]`, and pids grow without bound.  For a pid below
`NPROC` the words say what the model of the calls in `System.lean` says (`cv_refines`), and nothing
but `waiting_procs`, `cv_count` and the locks of the mutex changes; every other pid indexes past the
array (`cvInBounds_iff`).
-/

namespace Xv6

open List Mux

namespace Mux

/-! ### The layout of `struct mutex`, in words -/

/-- The words of `mutexes`, and of what lies around it. -/
abbrev Words := Int → Int

/-- `sizeof(struct spinlock)`: `locked`, `name`, `cpu` and `pcs[10]`. -/
def SPIN : Int := 13

/-- `&mutexes[g]`, after `sizeof(struct mutex) * g`. -/
def base (g : Mid) : Int := (32 + 1 + NPROC + 1 + (1 + SPIN + 2) + SPIN) * (g.val : Int)

/-- `&mutexes[g].count`, after the 128 bytes of `name`. -/
def atCount (g : Mid) : Int := base g + 32

/-- `&mutexes[g].waiting_procs[i]`. -/
def atWaiting (g : Mid) (i : Int) : Int := base g + 33 + i

/-- `&mutexes[g].cv_count`. -/
def atCv (g : Mid) : Int := base g + 33 + NPROC

/-- `&mutexes[g].slp`, which is also `&mutexes[g].slp.locked`. -/
def atSlp (g : Mid) : Int := base g + 34 + NPROC

/-- `&mutexes[g].slp.lk`. -/
def atLk (g : Mid) : Int := atSlp g + 1

/-- `&mutexes[g].slp.pid`, after `slp.name`. -/
def atPid (g : Mid) : Int := atSlp g + 1 + SPIN + 1

/-- `&mutexes[g].spin`. -/
def atSpin (g : Mid) : Int := atSlp g + 1 + SPIN + 2

/-- One store. -/
def store (w : Words) (a v : Int) : Words := Function.update w a v

/-! ### The calls -/

/-- What `acquire` records for debugging: the CPU and the call stack. -/
structure Debug where
  cpu : Int
  pcs : Nat → Int

/-- `acquire(lk)` of a free lock. -/
def acquire (d : Debug) (lk : Int) (w : Words) : Words := fun a =>
  if a = lk then 1
  else if a = lk + 2 then d.cpu
  else if lk + 3 ≤ a ∧ a < lk + SPIN then d.pcs (a - lk - 3).toNat
  else w a

/-- `release(lk)`. -/
def release (lk : Int) (w : Words) : Words :=
  store (store (store w (lk + 3) 0) (lk + 2) 0) lk 0

/-- `releasesleep(&mutexes[g].slp)`. -/
def releasesleep (d : Debug) (g : Mid) (w : Words) : Words :=
  let w := acquire d (atLk g) w
  let w := store (store w (atSlp g) 0) (atPid g) 0
  release (atLk g) w

/-- The memory, and the indices at which `waiting_procs` has been used. -/
structure CvMem where
  words : Words
  used : List Int

/-- `mutexes[g].waiting_procs[i] = v`. -/
def setWaiting (g : Mid) (i v : Int) (x : CvMem) : CvMem :=
  ⟨store x.words (atWaiting g i) v, x.used ++ [i]⟩

/-- The loop of `cv_wait` up to its end or to its `sleep`, which releases the spin lock: does the
process with pid `pid` sleep, and the memory. -/
def cvLoop (d : Debug) (g : Mid) (pid : Int) (w : Words) : Bool × Words :=
  if w (atCv g) = 0 then
    -- `mutex_unlock(muxid)`
    let w := if w (atPid g) = pid then releasesleep d g w else w
    (true, release (atSpin g) w)
  else (false, release (atSpin g) (store w (atCv g) (w (atCv g) - 1)))

/-- `cv_wait` on `mutexes[g]`, past its checks, by the process with pid `pid`. -/
def cvWait (d : Debug) (g : Mid) (pid : Int) (w : Words) : Bool × CvMem :=
  let x := setWaiting g pid 1 ⟨acquire d (atSpin g) w, []⟩
  let (r, w) := cvLoop d g pid x.words
  (r, ⟨w, x.used⟩)

/-- The rest of `cv_wait` after a `sleep`, which takes the spin lock again. -/
def cvResume (d : Debug) (g : Mid) (pid : Int) (w : Words) : Bool × CvMem :=
  let (r, w) := cvLoop d g pid (acquire d (atSpin g) w)
  (r, ⟨w, []⟩)

/-- The loop of `cv_signal` over `waiting_procs`. -/
def clearWaiting (g : Mid) (is : List Nat) (x : CvMem) : CvMem :=
  is.foldl (fun x i => setWaiting g i 0 x) x

/-- `cv_signal` on `mutexes[g]`, past its checks. -/
def cvSignal (d : Debug) (g : Mid) (w : Words) : CvMem :=
  let w := acquire d (atSpin g) w
  let w := store w (atCv g) (w (atCv g) + 1)
  let x := clearWaiting g (List.range NPROC) ⟨w, []⟩
  { x with words := release (atSpin g) x.words }

/-! ### What the calls may touch -/

/-- The words of `waiting_procs`, `cv_count` and the two locks of `mutexes[g]`. -/
def Own (g : Mid) (a : Int) : Prop :=
  (∃ i, 0 ≤ i ∧ i < (NPROC : Int) ∧ a = atWaiting g i) ∨ a = atCv g ∨
    (∃ i, 0 ≤ i ∧ i < 1 + SPIN + 2 ∧ a = atSlp g + i) ∨ ∃ i, 0 ≤ i ∧ i < SPIN ∧ a = atSpin g + i

/-- The indices used are inside `waiting_procs`, and only words of `Own` have changed. -/
structure CvSafe (g : Mid) (w : Words) (x : CvMem) : Prop where
  bounds : ∀ i ∈ x.used, 0 ≤ i ∧ i < NPROC
  others : ∀ a, ¬ Own g a → x.words a = w a

theorem not_own {g : Mid} {a : Int} (h : ¬ Own g a) : a < base g + 33 ∨ base g + 127 ≤ a := by
  by_contra hc
  refine h ?_
  simp only [Own, atWaiting, atCv, atSlp, atSpin, SPIN, NPROC] at *
  by_cases h₁ : a < base g + 97
  · exact .inl ⟨a - base g - 33, by omega, by omega, by omega⟩
  by_cases h₂ : a = base g + 97
  · exact .inr (.inl (by omega))
  · by_cases h₃ : a < base g + 114
    · exact .inr (.inr (.inl ⟨a - base g - 98, by omega, by omega, by omega⟩))
    · exact .inr (.inr (.inr ⟨a - base g - 114, by omega, by omega, by omega⟩))

variable {d : Debug} {g : Mid} {pid a : Int} {w : Words} {x : CvMem}

theorem acquire_ne {lk : Int} (h : a < lk ∨ lk + 13 ≤ a) : acquire d lk w a = w a := by
  unfold acquire
  rw [if_neg (by omega), if_neg (by omega), if_neg (by unfold SPIN; omega)]

theorem store_ne {b v : Int} (h : a ≠ b) : store w b v a = w a := Function.update_of_ne h ..

theorem store_self {v : Int} : store w a v a = v := Function.update_self ..

theorem release_ne {lk : Int} (h : a < lk ∨ lk + 13 ≤ a) : release lk w a = w a := by
  unfold release
  rw [store_ne (by omega), store_ne (by omega), store_ne (by omega)]

theorem releasesleep_ne (h : a < atSlp g ∨ atSlp g + 16 ≤ a) : releasesleep d g w a = w a := by
  simp only [releasesleep, atLk, atPid, SPIN]
  rw [release_ne (by omega), store_ne (by omega), store_ne (by omega), acquire_ne (by omega)]

theorem cvLoop_ne (h : a < base g + 33 ∨ base g + 127 ≤ a) : (cvLoop d g pid w).2 a = w a := by
  unfold cvLoop
  split
  · dsimp only
    rw [release_ne (by simp only [atSpin, atSlp, SPIN, NPROC]; omega)]
    split
    · exact releasesleep_ne (by simp only [atSlp, NPROC]; omega)
    · rfl
  · dsimp only
    rw [release_ne (by simp only [atSpin, atSlp, SPIN, NPROC]; omega),
      store_ne (by simp only [atCv, NPROC]; omega)]

theorem clearWaiting_spec (g : Mid) : ∀ (is : List Nat) (x : CvMem),
    (clearWaiting g is x).used = x.used ++ is.map Int.ofNat ∧
      ∀ a, (∀ i ∈ is, a ≠ atWaiting g i) → (clearWaiting g is x).words a = x.words a
  | [], x => ⟨by simp [clearWaiting], fun _ _ => rfl⟩
  | i :: is, x => by
    obtain ⟨hu, hw⟩ := clearWaiting_spec g is (setWaiting g i 0 x)
    refine ⟨?_, fun a ha => ?_⟩
    · show (clearWaiting g is (setWaiting g i 0 x)).used = _
      rw [hu]
      simp [setWaiting]
    · show (clearWaiting g is (setWaiting g i 0 x)).words a = _
      rw [hw a fun j hj => ha j (mem_cons_of_mem _ hj)]
      exact store_ne (ha i mem_cons_self)

/-! ### Each call -/

/-- **`cv_wait`.**  Safe for the pids that index `waiting_procs`, and for no others. -/
theorem cvWait_safe_iff : CvSafe g w (cvWait d g pid w).2 ↔ 0 ≤ pid ∧ pid < NPROC := by
  constructor
  · intro h
    exact h.bounds pid (by simp [cvWait, setWaiting])
  · intro h
    refine ⟨fun i hi => ?_, fun a ha => ?_⟩
    · obtain rfl : i = pid := by simpa [cvWait, setWaiting] using hi
      exact h
    · have hout := not_own ha
      simp only [cvWait, setWaiting]
      rw [cvLoop_ne hout, store_ne (by simp only [atWaiting, NPROC] at *; omega),
        acquire_ne (by simp only [atSpin, atSlp, SPIN, NPROC] at *; omega)]

theorem cvResume_safe : CvSafe g w (cvResume d g pid w).2 := by
  refine ⟨fun i hi => (by cases hi), fun a ha => ?_⟩
  have hout := not_own ha
  simp only [cvResume]
  rw [cvLoop_ne hout, acquire_ne (by simp only [atSpin, atSlp, SPIN, NPROC] at *; omega)]

theorem cvSignal_safe : CvSafe g w (cvSignal d g w) := by
  obtain ⟨hu, hw⟩ := clearWaiting_spec g (range NPROC)
    ⟨store (acquire d (atSpin g) w) (atCv g) (acquire d (atSpin g) w (atCv g) + 1), []⟩
  refine ⟨fun i hi => ?_, fun a ha => ?_⟩
  · simp only [cvSignal, hu, nil_append, mem_map, mem_range] at hi
    obtain ⟨n, hn, rfl⟩ := hi
    simp only [NPROC, Int.ofNat_eq_natCast] at *
    omega
  · have hout := not_own ha
    simp only [cvSignal]
    rw [release_ne (by simp only [atSpin, atSlp, SPIN, NPROC]; omega), hw a fun i hi => ?_]
    · dsimp only
      rw [store_ne (by simp only [atCv, NPROC]; omega),
        acquire_ne (by simp only [atSpin, atSlp, SPIN, NPROC]; omega)]
    · have hi := mem_range.mp hi
      simp only [atWaiting, NPROC] at *
      omega

/-! ### The words and the mutexes -/

/-- The words hold the counts and the sleep locks of the mutexes. -/
structure Stored (w : Words) (m : Mux) : Prop where
  count : ∀ g, w (atCount g) = (m.mutexes g).count
  cv : ∀ g, w (atCv g) = (m.mutexes g).cvCount
  locked : ∀ g, w (atSlp g) = if (m.mutexes g).slp.locked then 1 else 0
  pid : ∀ g, w (atPid g) = (m.mutexes g).slp.pid

theorem base_eq (g : Mid) : base g = 127 * (g.val : Int) := by simp [base, SPIN, NPROC]

variable {m : Mux} {w' : Words}

/-- Words that hold the mutexes of `m`, and nothing else. -/
def words (m : Mux) (a : Int) : Int :=
  if h : 0 ≤ a / 127 ∧ a / 127 < MUX_MAXNUM then
    let e := m.mutexes ⟨(a / 127).toNat, by omega⟩
    if a % 127 = 32 then e.count
    else if a % 127 = 97 then e.cvCount
    else if a % 127 = 98 then if e.slp.locked then 1 else 0
    else if a % 127 = 113 then e.slp.pid
    else 0
  else 0

theorem words_at {g : Mid} {off : Int} (h : 0 ≤ off ∧ off < 127) :
    words m (127 * (g.val : Int) + off) =
      if off = 32 then (m.mutexes g).count
      else if off = 97 then (m.mutexes g).cvCount
      else if off = 98 then if (m.mutexes g).slp.locked then 1 else 0
      else if off = 113 then (m.mutexes g).slp.pid
      else 0 := by
  have hdiv : (127 * (g.val : Int) + off) / 127 = g.val := by omega
  have hmod : (127 * (g.val : Int) + off) % 127 = off := by omega
  have hg : (0 : Int) ≤ (g.val : Int) ∧ (g.val : Int) < MUX_MAXNUM := by omega
  unfold words
  rw [dif_pos (by rw [hdiv]; exact hg)]
  simp only [hdiv, hmod, Int.toNat_natCast, Fin.eta]

theorem stored_words (m : Mux) : Stored (words m) m := by
  refine ⟨fun g => ?_, fun g => ?_, fun g => ?_, fun g => ?_⟩
  · rw [atCount, base_eq, words_at (by decide)]
    rfl
  · have h : atCv g = 127 * (g.val : Int) + 97 := by simp only [atCv, base_eq, NPROC]; omega
    rw [h, words_at (by decide)]
    rfl
  · have h : atSlp g = 127 * (g.val : Int) + 98 := by simp only [atSlp, base_eq, NPROC]; omega
    rw [h, words_at (by decide)]
    rfl
  · have h : atPid g = 127 * (g.val : Int) + 113 := by
      simp only [atPid, atSlp, base_eq, NPROC, SPIN]; omega
    rw [h, words_at (by decide)]
    rfl

/-- The words hold one mutex. -/
def StoredAt (w : Words) (g : Mid) (e : Mutex) : Prop :=
  w (atCount g) = e.count ∧ w (atCv g) = e.cvCount ∧
    w (atSlp g) = (if e.slp.locked then 1 else 0) ∧ w (atPid g) = e.slp.pid

theorem stored_iff : Stored w m ↔ ∀ g, StoredAt w g (m.mutexes g) :=
  ⟨fun h g => ⟨h.count g, h.cv g, h.locked g, h.pid g⟩, fun h =>
    ⟨fun g => (h g).1, fun g => (h g).2.1, fun g => (h g).2.2.1, fun g => (h g).2.2.2⟩⟩

/-- Stores to other words do not matter. -/
theorem StoredAt.congr {e : Mutex} (h : StoredAt w g e)
    (hw : ∀ a, a = atCount g ∨ a = atCv g ∨ a = atSlp g ∨ a = atPid g → w' a = w a) :
    StoredAt w' g e := by
  unfold StoredAt
  rw [hw _ (.inl rfl), hw _ (.inr (.inl rfl)), hw _ (.inr (.inr (.inl rfl))),
    hw _ (.inr (.inr (.inr rfl)))]
  exact h

theorem Stored.congr (h : Stored w m)
    (hw : ∀ g a, a = atCount g ∨ a = atCv g ∨ a = atSlp g ∨ a = atPid g → w' a = w a) :
    Stored w' m :=
  stored_iff.mpr fun g => (stored_iff.mp h g).congr (hw g)

theorem Stored.spin (h : Stored w m) (g : Mid) : Stored (acquire d (atSpin g) w) m := by
  refine h.congr fun g' a ha => acquire_ne ?_
  simp only [atCount, atCv, atSlp, atPid, atSpin, SPIN, NPROC, base_eq] at *
  omega

theorem Stored.unspin (h : Stored w m) (g : Mid) : Stored (release (atSpin g) w) m := by
  refine h.congr fun g' a ha => release_ne ?_
  simp only [atCount, atCv, atSlp, atPid, atSpin, SPIN, NPROC, base_eq] at *
  omega

theorem Stored.waiting {i v : Int} (h : Stored w m) (g : Mid) (hi : 0 ≤ i ∧ i < NPROC) :
    Stored (store w (atWaiting g i) v) m := by
  refine h.congr fun g' a ha => store_ne ?_
  simp only [atCount, atCv, atSlp, atPid, atWaiting, SPIN, NPROC, base_eq] at *
  omega

/-- One mutex is stored anew. -/
theorem Stored.upd {f : Mutex → Mutex} (h : Stored w m) (hg : StoredAt w' g (f (m.mutexes g)))
    (hw : ∀ a, a < base g ∨ base g + 127 ≤ a → w' a = w a) : Stored w' (m.upd g f) := by
  refine stored_iff.mpr fun g' => ?_
  rw [upd_mutexes]
  by_cases e : g' = g
  · rw [if_pos e, e]
    exact hg
  · have hv : (g' : Nat) ≠ g := fun hv => e (Fin.ext hv)
    rw [if_neg e]
    refine (stored_iff.mp h g').congr fun a ha => hw a ?_
    simp only [atCount, atCv, atSlp, atPid, SPIN, NPROC, base_eq] at *
    omega

theorem Stored.setCv {v : Int} (h : Stored w m) (g : Mid) :
    Stored (store w (atCv g) v) (m.upd g fun e => { e with cvCount := v }) := by
  have hne : ∀ a, a ≠ base g + 97 → store w (atCv g) v a = w a := fun a ha => store_ne ha
  refine h.upd ⟨?_, store_self, ?_, ?_⟩ fun a ha => hne a (by omega)
  · exact (hne _ (by unfold atCount; omega)).trans (h.count g)
  · exact (hne _ (by simp only [atSlp, NPROC]; omega)).trans (h.locked g)
  · exact (hne _ (by simp only [atPid, atSlp, SPIN, NPROC]; omega)).trans (h.pid g)

theorem Stored.releasesleep (h : Stored w m) (g : Mid) :
    Stored (releasesleep d g w) (m.upd g fun e => { e with slp := ⟨false, 0⟩ }) := by
  have hne : ∀ a, a < base g + 98 ∨ base g + 114 ≤ a → Mux.releasesleep d g w a = w a :=
    fun a ha => releasesleep_ne (by simp only [atSlp, NPROC]; omega)
  refine h.upd ⟨?_, ?_, ?_, ?_⟩ fun a ha => hne a (by omega)
  · exact (hne _ (by unfold atCount; omega)).trans (h.count g)
  · exact (hne _ (by simp only [atCv, NPROC]; omega)).trans (h.cv g)
  · simp only [Mux.releasesleep, atLk, atPid, SPIN]
    rw [release_ne (by omega), store_ne (by omega), store_self]
    rfl
  · simp only [Mux.releasesleep, atLk, atPid, SPIN]
    rw [release_ne (by omega), store_self]

end Mux

namespace Kernel

open Lib
variable {k : Kernel} {p : Slot} {g : Mid} {i : Fin MUX_MAXNUM} {w : Words} {d : Debug}

/-! ### The calls of the kernel model -/

theorem muxIndex_coe (i : Fin MUX_MAXNUM) : muxIndex (i.val : Int) = some i := by
  have h : (0 : Int) ≤ (i.val : Int) ∧ (i.val : Int) < MUX_MAXNUM := by omega
  simp [muxIndex, h]

/-- The loop of `cv_wait`. -/
theorem stored_cvLoop (h : Stored w k.mux) (hl : k.mux.locks p i = some g) :
    ((Mux.cvLoop d g (k.pid p) w).1 = true ↔ (k.cvLoop p g i).1 = none) ∧
      Stored (Mux.cvLoop d g (k.pid p) w).2 (k.cvLoop p g i).2.mux := by
  have hh : k.handle p i.val = some (i, g) := by simp [handle, muxIndex_coe, hl]
  unfold Mux.cvLoop cvLoop
  rw [h.cv, h.pid]
  split
  · refine ⟨by simp, ?_⟩
    by_cases ho : k.owns p g
    · have ho' : (k.mux.mutexes g).slp.pid = k.pid p := ho
      simp only [mutexUnlock, hh, if_pos ho, if_pos ho']
      exact (h.releasesleep g).unspin g
    · have ho' : ¬ (k.mux.mutexes g).slp.pid = k.pid p := ho
      simp only [mutexUnlock, hh, if_neg ho, if_neg ho']
      exact h.unspin g
  · exact ⟨by simp, (h.setCv g).unspin g⟩

/-- `cv_wait(muxid)` called by `p`, on the words. -/
def cvWaitWords (d : Debug) (k : Kernel) (p : Slot) (muxid : Int) (w : Words) : CvMem :=
  match k.handle p muxid with
  | none => ⟨w, []⟩
  | some (_, g) => if w (Mux.atPid g) = k.pid p then (Mux.cvWait d g (k.pid p) w).2 else ⟨w, []⟩

/-- `cv_signal(muxid)` called by `p`, on the words. -/
def cvSignalWords (d : Debug) (k : Kernel) (p : Slot) (muxid : Int) (w : Words) : CvMem :=
  match k.handle p muxid with
  | none => ⟨w, []⟩
  | some (_, g) => if w (Mux.atPid g) = k.pid p then Mux.cvSignal d g w else ⟨w, []⟩

/-- The calls of `p` on `mutexes[g]`, which is its mutex `muxid`, stay in bounds: from the start,
and after each `sleep` of `cv_wait`. -/
structure CvInBounds (k : Kernel) (p : Slot) (muxid : Int) (g : Mid) : Prop where
  wait : ∀ d w, Stored w k.mux → CvSafe g w (cvWaitWords d k p muxid w)
  resume : ∀ d w, CvSafe g w (Mux.cvResume d g (k.pid p) w).2
  signal : ∀ d w, Stored w k.mux → CvSafe g w (cvSignalWords d k p muxid w)

/-- **The condition variable of a mutex.**  In every state of every run, the calls of a process on
a mutex it owns stay in bounds exactly when its pid is below `NPROC`. -/
theorem cvInBounds_iff {m : Kmem} {t : List (Kernel × Op)} {muxid : Int}
    (hr : Run Step (boot m) t k) (hp : k.inUser p) (hh : k.handle p muxid = some (i, g))
    (ho : k.owns p g) : CvInBounds k p muxid g ↔ k.pid p < NPROC := by
  have hpid := (hr.inv_all (I := fun k => Sched.PidInv k.sched) (fun _ _ _ => pidInv_step) .pinit).2
  have hpos : 0 < k.pid p := hpid.pos p hp.live.1
  have howns : ∀ {w}, Stored w k.mux → w (atPid g) = k.pid p := fun h => (h.pid g).trans ho
  constructor
  · intro h
    have hw := h.wait ⟨0, fun _ => 0⟩ _ (stored_words k.mux)
    simp only [cvWaitWords, hh, if_pos (howns (stored_words k.mux))] at hw
    exact (cvWait_safe_iff.mp hw).2
  · intro h
    refine ⟨fun d w hw => ?_, fun _ _ => cvResume_safe, fun d w hw => ?_⟩
    · simp only [cvWaitWords, hh, if_pos (howns hw)]
      exact cvWait_safe_iff.mpr ⟨hpos.le, h⟩
    · simp only [cvSignalWords, hh, if_pos (howns hw)]
      exact cvSignal_safe

/-- The first process makes a mutex and takes it. -/
theorem cvInBounds_first : ∃ t k, Run Step (boot smallMem) t k ∧ k.inUser 0 ∧
    k.handle 0 0 = some (0, 0) ∧ k.owns 0 0 ∧ CvInBounds k 0 0 0 := by
  obtain ⟨k, hr, hp, hh, ho, hlt⟩ := exists_run step_of_exec? (boot smallMem)
    [.allocFirst, .userinit 0, .scheduler, .mutexCreate 0 [97], .mutexLock 0 0]
    (fun k => k.inUser 0 ∧ k.handle 0 0 = some (0, 0) ∧ k.owns 0 0 ∧ k.pid 0 < NPROC)
    (by decide +kernel)
  exact ⟨_, k, hr, hp, hh, ho, (cvInBounds_iff hr hp hh ho).mpr hlt⟩

/-- The first process takes all memory, so that its next 62 forks fail, gives it back and forks.
The child makes a mutex and takes it. -/
def lateOps : List Op :=
  [.allocFirst, .userinit 0, .scheduler, .growproc 0 (72 * 4096)] ++
    List.replicate 62 (.fork2 0 (-1)) ++
    [.growproc 0 (-(72 * 4096)), .fork2 0 (-1), .scheduler, .mutexCreate 1 [97], .mutexLock 1 0]

/-- **The 64th pid.**  A failed fork also takes a pid: after 62 of them the child has pid 64, and
its `cv_wait` writes the word after `waiting_procs`, which is `cv_count`. -/
theorem cvWait_past_end : ∃ t k, Run Step (boot smallMem) t k ∧ k.inUser 1 ∧
    k.handle 1 0 = some (0, 0) ∧ k.owns 1 0 ∧ ¬ CvInBounds k 1 0 0 := by
  obtain ⟨k, hr, hp, hh, ho, hpid⟩ := exists_run step_of_exec? (boot smallMem) lateOps
    (fun k => k.inUser 1 ∧ k.handle 1 0 = some (0, 0) ∧ k.owns 1 0 ∧ k.pid 1 = 64)
    (by decide +kernel)
  refine ⟨_, k, hr, hp, hh, ho, fun h => ?_⟩
  have hw := h.wait ⟨0, fun _ => 0⟩ _ (stored_words k.mux)
  have hown : words k.mux (atPid 0) = k.pid 1 := ((stored_words k.mux).pid 0).trans ho
  simp only [cvWaitWords, hh, if_pos hown] at hw
  have hlt := (cvWait_safe_iff.mp hw).2
  rw [hpid] at hlt
  exact absurd hlt (by decide)

end Kernel

end Xv6
