import Xv6.Lib.Lock
import Xv6.Lib.Run

/-!
# Lib — Monitor

Code that works on shared data under a spin lock and waits with `sleep` and `wakeup`, for any
number of threads.  The code is a flow chart: each point has an instruction (`Instr`).  `sleep` takes
the process-table lock *before* it lets go of the spin lock, and lets go of the table lock only when
the thread is asleep; `wakeup` works under the table lock.  Each step ends where a lock is taken or
let go, so every interleaving of the sections under the two locks is a run.

`Sound` are the proof rules for one instruction at a time: `J h` is what holds of the data and the
points of the threads while `h` is the holder of the lock, `Ok c` is the condition under which a
thread may sleep on `c`, and `G l` is what is left of it while the holder is at point `l`, where
it may owe a `wakeup`.

* `inv_run`: `J` holds throughout, and a sleeper on `c` has `Ok c` whenever the lock is free.
* `data_run`: the simple case of a property of the data alone.
-/

namespace Xv6.Lib.Monitor

open Function Option

/-- The instruction at a point. -/
inductive Instr (τ L σ χ : Type) where
  /-- outside the code: a thread waits for its next call -/
  | rest
  | acquire (l : L)
  /-- an access to the data, by a thread that may have been killed -/
  | access (f : τ → Bool → σ → σ × L)
  | sleep (c : χ) (l : L)
  | wakeup (c : χ) (l : L)
  | release (l : L)
  /-- an access without the lock -/
  | bare (f : τ → σ → σ × L)

/-- Is the spin lock held at the instruction? -/
def Instr.held {τ L σ χ : Type} : Instr τ L σ χ → Bool
  | .rest | .acquire _ | .bare _ => false
  | .access _ | .sleep _ _ | .wakeup _ _ | .release _ => true

/-- How far a thread is in `sleep`. -/
inductive Nap where
  /-- not in it, or before it takes the table lock -/
  | awake
  /-- it holds both locks -/
  | both
  /-- it has let go of the spin lock -/
  | handed
  /-- it is asleep, and has let go of the table lock -/
  | asleep
  /-- it has been woken -/
  | woken
  /-- it has run again, and waits for the spin lock -/
  | back
  deriving DecidableEq

structure Place (L : Type) where
  point : L
  nap : Nap

/-- The data, the holders of the two locks, and the threads. -/
structure State (τ L σ : Type) where
  data : σ
  lock : Option τ
  table : Option τ
  place : τ → Place L
  killed : τ → Bool

/-- A step: a thread makes a call, or goes on; it is killed, or woken from elsewhere. -/
inductive Op (τ L : Type) where
  | call (t : τ) (l : L)
  | next (t : τ)
  | kill (t : τ)
  | rouse (t : τ)

variable {τ L σ χ : Type}

namespace State

/-- The points of the threads. -/
def points (x : State τ L σ) : τ → L := fun t => (x.place t).point

/-- `t` moves to another place. -/
def put [DecidableEq τ] (x : State τ L σ) (t : τ) (l : L) (n : Nap) : State τ L σ :=
  { x with place := update x.place t ⟨l, n⟩ }

@[simp] theorem points_put [DecidableEq τ] (x : State τ L σ) (t : τ) (l : L) (n : Nap) :
    (x.put t l n).points = update x.points t l := by
  funext u
  by_cases e : u = t
  · subst e; simp [points, put]
  · simp [points, put, e]

/-- `t` is woken, if it is asleep. -/
def wake [DecidableEq τ] (x : State τ L σ) (t : τ) : State τ L σ :=
  if (x.place t).nap = .asleep then x.put t (x.place t).point .woken else x

end State

variable (instr : L → Instr τ L σ χ) {s : σ} {tr : List (State τ L σ × Op τ L)}

/-- `t` is asleep on `c`. -/
def SleepsOn (x : State τ L σ) (c : χ) (t : τ) : Prop :=
  (x.place t).nap = .asleep ∧ ∃ l, instr (x.place t).point = .sleep c l

/-- Is the thread at this place asleep on `c`? -/
def sleepsOn [DecidableEq χ] (c : χ) (pl : Place L) : Bool :=
  match instr pl.point with
  | .sleep c' _ => pl.nap = .asleep ∧ c' = c
  | _ => false

/-- All the threads asleep on `c` are woken. -/
def wakeup [DecidableEq χ] (c : χ) (place : τ → Place L) : τ → Place L := fun t =>
  if sleepsOn instr c (place t) then ⟨(place t).point, .woken⟩ else place t

/-- The next step of `t`, if the lock that it takes is free. -/
def advance [DecidableEq τ] [DecidableEq χ] (x : State τ L σ) (t : τ) : Option (State τ L σ) :=
  match instr (x.place t).point with
  | .rest => none
  | .acquire l => if x.lock = none then some ({ x with lock := some t }.put t l .awake) else none
  | .access f =>
    let (d, l) := f t (x.killed t) x.data
    some ({ x with data := d }.put t l .awake)
  | .wakeup c l =>
    if x.table = none then
      some ({ x with place := wakeup instr c x.place }.put t l .awake)
    else none
  | .release l => some ({ x with lock := none }.put t l .awake)
  | .bare f =>
    let (d, l) := f t x.data
    some ({ x with data := d }.put t l .awake)
  | .sleep _ l =>
    let pt := (x.place t).point
    match (x.place t).nap with
    | .awake => if x.table = none then some ({ x with table := some t }.put t pt .both) else none
    | .both => some ({ x with lock := none }.put t pt .handed)
    | .handed => some ({ x with table := none }.put t pt .asleep)
    | .asleep => none
    | .woken => if x.table = none then some (x.put t pt .back) else none
    | .back => if x.lock = none then some ({ x with lock := some t }.put t l .awake) else none

/-- One step; `may` says which calls a thread can make. -/
inductive Step [DecidableEq τ] [DecidableEq χ] (may : σ → (τ → L) → τ → L → Prop) :
    State τ L σ → Op τ L → State τ L σ → Prop where
  | call {x : State τ L σ} {t : τ} {l : L} (hr : instr (x.place t).point = .rest)
      (hm : may x.data x.points t l) : Step may x (.call t l) (x.put t l .awake)
  | next {x y : State τ L σ} {t : τ} (h : advance instr x t = some y) : Step may x (.next t) y
  | kill {x : State τ L σ} {t : τ} (h : x.table = none) :
      Step may x (.kill t) { x.wake t with killed := update x.killed t true }
  | rouse {x : State τ L σ} {t : τ} (h : x.table = none) : Step may x (.rouse t) (x.wake t)

/-- One step as a function. -/
def exec? [DecidableEq τ] [DecidableEq χ] (may : σ → (τ → L) → τ → L → Prop)
    [∀ s pt t l, Decidable (may s pt t l)] (x : State τ L σ) : Op τ L → Option (State τ L σ)
  | .call t l =>
    match instr (x.place t).point with
    | .rest => if may x.data x.points t l then some (x.put t l .awake) else none
    | _ => none
  | .next t => advance instr x t
  | .kill t =>
    if x.table = none then some { x.wake t with killed := update x.killed t true }
    else none
  | .rouse t => if x.table = none then some (x.wake t) else none

theorem step_of_exec? [DecidableEq τ] [DecidableEq χ] (may : σ → (τ → L) → τ → L → Prop)
    [∀ s pt t l, Decidable (may s pt t l)] (x : State τ L σ) (op : Op τ L) (y : State τ L σ)
    (h : exec? instr may x op = some y) : Step instr may x op y := by
  cases op with
  | call t l =>
    simp only [exec?] at h
    split at h
    · next hr =>
      split at h
      · next hm => cases h; exact .call hr hm
      · cases h
    · cases h
  | next t => exact .next h
  | kill t =>
    simp only [exec?] at h
    split at h
    · next ht => cases h; exact .kill ht
    · cases h
  | rouse t =>
    simp only [exec?] at h
    split at h
    · next ht => cases h; exact .rouse ht
    · cases h

/-! ### Proof rules -/

/-- The rules for the instructions.  `Allow` is a condition on the accesses. -/
structure Sound [DecidableEq τ] (may : σ → (τ → L) → τ → L → Prop) (Allow : L → Bool → σ → Prop)
    (J : Option τ → σ → (τ → L) → Prop) (Ok : χ → σ → Prop) (G : L → σ → χ → Prop) : Prop where
  call : ∀ {h s} (pt) {t l}, instr (pt t) = .rest → may s pt t l → J h s pt →
    (instr l).held = false ∧ J h s (update pt t l)
  acquire : ∀ {s} (pt) {t l}, instr (pt t) = .acquire l → J none s pt →
    (instr l).held = true ∧ J (some t) s (update pt t l) ∧ ∀ c, Ok c s → G l s c
  access : ∀ {s} (pt) {t f k d l}, instr (pt t) = .access f → Allow (pt t) k s → f t k s = (d, l) →
    J (some t) s pt → (instr l).held = true ∧ J (some t) d (update pt t l) ∧
      ∀ c, G (pt t) s c → G l d c
  sleep : ∀ {s} (pt) {t c l}, instr (pt t) = .sleep c l → J (some t) s pt →
    J none s pt ∧ Ok c s ∧ ∀ c, G (pt t) s c → Ok c s
  resume : ∀ {s} (pt) {t c l}, instr (pt t) = .sleep c l → J none s pt →
    (instr l).held = true ∧ J (some t) s (update pt t l) ∧ ∀ c, Ok c s → G l s c
  wakeup : ∀ {s} (pt) {t c l}, instr (pt t) = .wakeup c l → J (some t) s pt →
    (instr l).held = true ∧ J (some t) s (update pt t l) ∧ ∀ c', c' ≠ c → G (pt t) s c' → G l s c'
  release : ∀ {s} (pt) {t l}, instr (pt t) = .release l → J (some t) s pt →
    (instr l).held = false ∧ J none s (update pt t l) ∧ ∀ c, G (pt t) s c → Ok c s
  bare : ∀ {h s} (pt) {t f d l}, instr (pt t) = .bare f → f t s = (d, l) → J h s pt →
    (instr l).held = false ∧ J h d (update pt t l) ∧ (∀ c, Ok c s → Ok c d) ∧
      ∀ l' c, G l' s c → G l' d c

/-- A place that holds the spin lock. -/
def holds (pl : Place L) : Prop := (instr pl.point).held = true ∧ (pl.nap = .awake ∨ pl.nap = .both)

/-- A place that holds the table lock. -/
def holdsTable (pl : Place L) : Prop := pl.nap = .both ∨ pl.nap = .handed

/-- A thread that sleeps on `c`, or is about to and has let go of the spin lock. -/
def waits (c : χ) (pl : Place L) : Prop :=
  (∃ l, instr pl.point = .sleep c l) ∧ (pl.nap = .handed ∨ pl.nap = .asleep)

/-- Whoever waits on `c` may do so, up to what the holder of the lock owes. -/
def Fair (Ok : χ → σ → Prop) (G : L → σ → χ → Prop) (x : State τ L σ) (c : χ) : Prop :=
  match x.lock with
  | none => Ok c x.data
  | some u => G (x.place u).point x.data c

structure Inv (J : Option τ → σ → (τ → L) → Prop) (Ok : χ → σ → Prop) (G : L → σ → χ → Prop)
    (x : State τ L σ) : Prop where
  lock : Holder x.lock x.place (holds instr)
  table : Holder x.table x.place holdsTable
  nap : ∀ t, (x.place t).nap ≠ .awake → ∃ c l, instr (x.place t).point = .sleep c l
  data : J x.lock x.data x.points
  wait : ∀ t c, waits instr c (x.place t) → Fair Ok G x c

variable {instr} {may : σ → (τ → L) → τ → L → Prop} {Allow : L → Bool → σ → Prop}
  {J : Option τ → σ → (τ → L) → Prop} {Ok : χ → σ → Prop} {G : L → σ → χ → Prop}
  {x y : State τ L σ} {t : τ} {l : L} {c : χ}

namespace Inv

variable {n : Nap} {d : σ}

section

variable (h : Inv instr J Ok G x)

include h

/-- A thread that is not at a `sleep` is not in one. -/
theorem awake (hi : ∀ c l, instr (x.place t).point ≠ .sleep c l) : (x.place t).nap = .awake := by
  by_contra hn
  obtain ⟨c, l, he⟩ := h.nap t hn
  exact hi c l he

/-- While the lock is free no thread is at a point that holds it, but in `sleep`. -/
theorem not_held (hfree : x.lock = none)
    (hi : ∀ c l, instr (x.points t) ≠ .sleep c l) : (instr (x.points t)).held = false := by
  by_contra hheld
  have hh : (instr (x.place t).point).held = true := eq_true_of_ne_false hheld
  have hlk := (h.lock t).mpr ⟨hh, .inl (h.awake hi)⟩
  rw [hfree] at hlk
  cases hlk

/-- `t` moves to point `l`, with the locks and the data as they then are. -/
theorem move [DecidableEq τ] (hplace : y.place = update x.place t ⟨l, n⟩)
    (hlock : Holder y.lock (update x.place t ⟨l, n⟩) (holds instr))
    (htable : Holder y.table (update x.place t ⟨l, n⟩) holdsTable)
    (hnap : n ≠ .awake → ∃ c l', instr l = .sleep c l')
    (hdata : J y.lock y.data (update x.points t l))
    (hself : ∀ c, waits instr c ⟨l, n⟩ → Fair Ok G y c)
    (hothers : ∀ c, Fair Ok G x c → Fair Ok G y c) : Inv instr J Ok G y := by
  have hpoints : y.points = update x.points t l := by
    rw [← State.points_put x t l n]
    funext u
    rw [State.points, hplace]
    rfl
  refine ⟨hplace ▸ hlock, hplace ▸ htable, fun u hu => ?_, hpoints ▸ hdata, fun u c hw => ?_⟩
  · rw [hplace] at hu ⊢
    by_cases e : u = t
    · subst e; rw [update_self] at hu ⊢; exact hnap hu
    · rw [update_of_ne e] at hu ⊢; exact h.nap u hu
  · rw [hplace] at hw
    by_cases e : u = t
    · subst e; rw [update_self] at hw; exact hself c hw
    · rw [update_of_ne e] at hw; exact hothers c (h.wait u c hw)

/-- A thread that does not hold the lock goes on to another point that does not hold it. -/
theorem aside [DecidableEq τ] (hn : (x.place t).nap = .awake)
    (hheld : (instr (x.place t).point).held = false) (hl : (instr l).held = false)
    (hJ : J x.lock d (update x.points t l)) (hok : ∀ c, Ok c x.data → Ok c d)
    (hG : ∀ l' c, G l' x.data c → G l' d c) :
    Inv instr J Ok G ({ x with data := d }.put t l .awake) := by
  have hnot : ¬ holds instr (x.place t) := fun hh => by
    have := hh.1
    rw [hheld] at this
    cases this
  refine h.move rfl (h.lock.keep ?_) (h.table.keep ?_) (fun hne => absurd rfl hne) hJ
    (fun c hw => ?_) fun c hf => ?_
  · exact iff_of_false (fun hh => by rw [holds, hl] at hh; cases hh.1) hnot
  · simp [holdsTable, hn]
  · rcases hw.2 with e | e <;> cases e
  · unfold Fair State.put at *
    cases hlk : x.lock with
    | none => simpa [hlk] using hok c (by simpa [hlk] using hf)
    | some u =>
      have hne : u ≠ t := fun e => hnot ((h.lock t).mp (e ▸ hlk))
      simpa [hlk, hne] using hG _ c (by simpa [hlk] using hf)

/-- A thread takes the free spin lock. -/
theorem take [DecidableEq τ] (hfree : x.lock = none)
    (htable : ¬ holdsTable (x.place t)) (hl : (instr l).held = true)
    (hJ : J (some t) x.data (update x.points t l)) (hG : ∀ c, Ok c x.data → G l x.data c) :
    Inv instr J Ok G ({ x with lock := some t }.put t l .awake) := by
  have hlock := h.lock
  rw [hfree] at hlock
  refine h.move rfl (hlock.take ⟨hl, .inl rfl⟩) (h.table.keep ?_) (fun hne => absurd rfl hne) hJ
    (fun c hw => ?_) fun c hf => ?_
  · exact iff_of_false (fun hh => by rcases hh with e | e <;> cases e) htable
  · rcases hw.2 with e | e <;> cases e
  · rw [Fair, hfree] at hf
    simpa [Fair, State.put] using hG c hf

/-- The holder goes on to another point that holds the lock. -/
theorem go [DecidableEq τ] (hlk : x.lock = some t)
    (hn : (x.place t).nap = .awake) (hl : (instr l).held = true)
    (hJ : J (some t) d (update x.points t l)) (hG : ∀ c, G (x.place t).point x.data c → G l d c) :
    Inv instr J Ok G ({ x with data := d }.put t l .awake) := by
  refine h.move rfl (h.lock.keep ?_) (h.table.keep ?_) (fun hne => absurd rfl hne)
    (by rw [State.put, hlk]; exact hJ) (fun c hw => ?_) fun c hf => ?_
  · exact iff_of_true ⟨hl, .inl rfl⟩ ((h.lock t).mp hlk)
  · simp [holdsTable, hn]
  · rcases hw.2 with e | e <;> cases e
  · rw [Fair, hlk] at hf
    simpa [Fair, State.put, hlk] using hG c hf

/-- The holder lets go of the lock. -/
theorem leave [DecidableEq τ] (hlk : x.lock = some t)
    (hl : ¬ holds instr ⟨l, n⟩) (ht : holdsTable (⟨l, n⟩ : Place L) ↔ holdsTable (x.place t))
    (hnap : n ≠ .awake → ∃ c l', instr l = .sleep c l') (hJ : J none x.data (update x.points t l))
    (hself : ∀ c, waits instr c ⟨l, n⟩ → Ok c x.data)
    (hG : ∀ c, G (x.place t).point x.data c → Ok c x.data) :
    Inv instr J Ok G ({ x with lock := none }.put t l n) := by
  refine h.move rfl (h.lock.drop ((h.lock t).mp hlk) hl) (h.table.keep ht) hnap hJ hself
    fun c hf => ?_
  rw [Fair, hlk] at hf
  exact hG c hf

end

/-- A thread goes on inside `sleep`, with the spin lock as it is. -/
theorem doze [DecidableEq τ] (tb : Option τ) (h : Inv instr J Ok G x)
    (hi : instr (x.place t).point = .sleep c l)
    (hlock : holds instr ⟨(x.place t).point, n⟩ ↔ holds instr (x.place t))
    (htable : Holder tb (update x.place t ⟨(x.place t).point, n⟩) holdsTable)
    (hself : ∀ c, waits instr c ⟨(x.place t).point, n⟩ → waits instr c (x.place t)) :
    Inv instr J Ok G ({ x with table := tb }.put t (x.place t).point n) := by
  have hpoints : update x.points t (x.place t).point = x.points :=
    update_eq_self t x.points
  have hfair : ∀ c, Fair Ok G x c →
      Fair Ok G ({ x with table := tb }.put t (x.place t).point n) c := fun c hf => by
    unfold Fair State.put at *
    cases hlk : x.lock with
    | none => simpa [hlk] using hf
    | some u =>
      by_cases e : u = t
      · subst e; simpa [hlk] using hf
      · simpa [hlk, e] using hf
  exact h.move rfl (h.lock.keep hlock) htable (fun _ => ⟨c, l, hi⟩) (by rw [hpoints]; exact h.data)
    (fun c hw => hfair c (h.wait t c (hself c hw))) hfair

/-- A sleeper is woken. -/
theorem wake [DecidableEq τ] (h : Inv instr J Ok G x) : Inv instr J Ok G (x.wake t) := by
  unfold State.wake
  split
  · next hn =>
    obtain ⟨c, l, hi⟩ := h.nap t (by rw [hn]; decide)
    refine h.doze x.table hi ?_ (h.table.keep ?_) fun c hw => ?_
    · simp [holds, hn]
    · simp [holdsTable, hn]
    · rcases hw.2 with e | e <;> cases e
  · exact h

theorem sleepsOn_iff [DecidableEq χ] {pl : Place L} :
    sleepsOn instr c pl = true ↔ pl.nap = .asleep ∧ ∃ l, instr pl.point = .sleep c l := by
  unfold sleepsOn
  split
  · next c' l he => simp [he]
  next hne =>
  refine iff_of_false (by simp) fun h => ?_
  obtain ⟨-, l, he⟩ := h
  exact hne c l he

theorem wakeup_point [DecidableEq χ] (place : τ → Place L) (u : τ) :
    (Monitor.wakeup instr c place u).point = (place u).point := by
  unfold Monitor.wakeup
  split <;> rfl

/-- Nobody is asleep on `c` after `wakeup(c)`, and nobody falls asleep by it. -/
theorem waits_wakeup [DecidableEq χ] {place : τ → Place L} {u : τ} {c' : χ}
    (hw : waits instr c' (Monitor.wakeup instr c place u)) :
    waits instr c' (place u) ∧ (c' = c → (place u).nap = .handed) := by
  unfold Monitor.wakeup at hw
  split at hw
  · rcases hw.2 with e | e <;> cases e
  next hn =>
  refine ⟨hw, fun e => ?_⟩
  subst e
  rcases hw.2 with e | e
  · exact e
  · exact absurd (sleepsOn_iff.mpr ⟨e, hw.1⟩) (by simpa using hn)

/-- The holder wakes the sleepers on `c`. -/
theorem wakeAll [DecidableEq τ] [DecidableEq χ] (h : Inv instr J Ok G x)
    (hlk : x.lock = some t) (htable : x.table = none) (hn : (x.place t).nap = .awake)
    (hl : (instr l).held = true) (hJ : J (some t) x.data (update x.points t l))
    (hG : ∀ c', c' ≠ c → G (x.place t).point x.data c' → G l x.data c') :
    Inv instr J Ok G ({ x with place := Monitor.wakeup instr c x.place }.put t l .awake) := by
  have hnap : ∀ u, (Monitor.wakeup instr c x.place u).nap ≠ .awake → (x.place u).nap ≠ .awake :=
    fun u hu => by
      unfold Monitor.wakeup at hu
      split at hu
      · next hs => rw [(sleepsOn_iff.mp hs).1]; decide
      · exact hu
  have hholds : ∀ u, holds instr (Monitor.wakeup instr c x.place u) ↔ holds instr (x.place u) :=
    fun u => by
      unfold Monitor.wakeup
      split
      · next hs => simp [holds, (sleepsOn_iff.mp hs).1]
      · rfl
  have htab : ∀ u, holdsTable (Monitor.wakeup instr c x.place u) ↔ holdsTable (x.place u) :=
    fun u => by
      unfold Monitor.wakeup
      split
      · next hs => simp [holdsTable, (sleepsOn_iff.mp hs).1]
      · rfl
  have hpoints : (fun u => (Monitor.wakeup instr c x.place u).point) = x.points :=
    funext fun u => wakeup_point x.place u
  refine ⟨?_, ?_, fun u hu => ?_, ?_, fun u c' hw => ?_⟩
  · exact (h.lock.congr hholds).keep (iff_of_true ⟨hl, .inl rfl⟩ ((hholds t).mpr ((h.lock t).mp hlk)))
  · refine (h.table.congr htab).keep ?_
    rw [htab t]
    simp [holdsTable, hn]
  · by_cases e : u = t
    · subst e; exact absurd (by simp [State.put]) hu
    · simp only [State.put, update_of_ne e] at hu ⊢
      rw [wakeup_point]
      exact h.nap u (hnap u hu)
  · rw [State.points_put]
    have : ({ x with place := Monitor.wakeup instr c x.place } : State τ L σ).points = x.points :=
      hpoints
    rw [this]
    show J x.lock x.data _
    rw [hlk]
    exact hJ
  · by_cases e : u = t
    · subst e
      simp only [State.put, update_self] at hw
      rcases hw.2 with e | e <;> cases e
    · simp only [State.put, update_of_ne e] at hw
      obtain ⟨hw', hc⟩ := waits_wakeup hw
      have hne : c' ≠ c := fun e => by
        -- whoever is about to sleep holds the table lock
        have := (h.table u).mpr (.inr (hc e))
        rw [htable] at this
        cases this
      have hf := h.wait u c' hw'
      rw [Fair, hlk] at hf
      simpa [Fair, State.put, hlk] using hG c' hne hf

end Inv

/-- The accesses of a step are allowed. -/
def Allowed (instr : L → Instr τ L σ χ) (Allow : L → Bool → σ → Prop) (x : State τ L σ) :
    Op τ L → Prop
  | .next t => (∃ f, instr (x.place t).point = .access f) →
      Allow (x.place t).point (x.killed t) x.data
  | _ => True

theorem inv_next [DecidableEq τ] [DecidableEq χ] (hs : Sound instr may Allow J Ok G)
    (h : Inv instr J Ok G x) (hy : advance instr x t = some y) (ha : Allowed instr Allow x (.next t)) :
    Inv instr J Ok G y := by
  unfold advance at hy
  cases hi : instr (x.place t).point with
  | rest => rw [hi] at hy; cases hy
  | acquire l =>
    have hn : (x.place t).nap = .awake := h.awake fun c l e => by rw [hi] at e; cases e
    simp only [hi, ite_none_right_eq_some, some.injEq] at hy
    obtain ⟨hfree, rfl⟩ := hy
    obtain ⟨hl, hJ, hG⟩ := hs.acquire x.points hi (hfree ▸ h.data)
    exact h.take hfree (by simp [holdsTable, hn]) hl hJ hG
  | access f =>
    have hn : (x.place t).nap = .awake := h.awake fun c l e => by rw [hi] at e; cases e
    have hlk : x.lock = some t := (h.lock t).mpr ⟨by rw [hi]; rfl, .inl hn⟩
    simp only [hi, some.injEq] at hy
    subst hy
    obtain ⟨hl, hJ, hG⟩ := hs.access x.points hi (ha ⟨f, hi⟩) rfl (hlk ▸ h.data)
    exact h.go hlk hn hl hJ hG
  | wakeup c l =>
    have hn : (x.place t).nap = .awake := h.awake fun c l e => by rw [hi] at e; cases e
    have hlk : x.lock = some t := (h.lock t).mpr ⟨by rw [hi]; rfl, .inl hn⟩
    simp only [hi, ite_none_right_eq_some, some.injEq] at hy
    obtain ⟨htable, rfl⟩ := hy
    obtain ⟨hl, hJ, hG⟩ := hs.wakeup x.points hi (hlk ▸ h.data)
    exact h.wakeAll hlk htable hn hl hJ hG
  | release l =>
    have hn : (x.place t).nap = .awake := h.awake fun c l e => by rw [hi] at e; cases e
    have hlk : x.lock = some t := (h.lock t).mpr ⟨by rw [hi]; rfl, .inl hn⟩
    simp only [hi, some.injEq] at hy
    subst hy
    obtain ⟨hl, hJ, hG⟩ := hs.release x.points hi (hlk ▸ h.data)
    refine h.leave hlk (fun hh => ?_) (by simp [holdsTable, hn]) (fun hne => absurd rfl hne) hJ
      (fun c hw => ?_) hG
    · rw [holds, hl] at hh; cases hh.1
    · rcases hw.2 with e | e <;> cases e
  | bare f =>
    have hn : (x.place t).nap = .awake := h.awake fun c l e => by rw [hi] at e; cases e
    simp only [hi, some.injEq] at hy
    subst hy
    obtain ⟨hl, hJ, hok, hG⟩ := hs.bare x.points hi rfl h.data
    exact h.aside hn (by rw [hi]; rfl) hl hJ hok hG
  | sleep c l =>
    simp only [hi] at hy
    cases hn : (x.place t).nap with
    | awake =>
      simp only [hn, ite_none_right_eq_some, some.injEq] at hy
      obtain ⟨htable, rfl⟩ := hy
      have ht := h.table
      rw [htable] at ht
      refine h.doze (some t) hi ?_ (ht.take (.inl rfl)) fun c hw => ?_
      · simp [holds, hn]
      · rcases hw.2 with e | e <;> cases e
    | both =>
      simp only [hn, some.injEq] at hy
      subst hy
      have hlk : x.lock = some t := (h.lock t).mpr ⟨by rw [hi]; rfl, .inr hn⟩
      obtain ⟨hJ, hok, hG⟩ := hs.sleep x.points hi (hlk ▸ h.data)
      refine h.leave hlk (by simp [holds]) (by simp [holdsTable, hn]) (fun _ => ⟨c, l, hi⟩) ?_
        (fun c' hw => ?_) hG
      · rwa [show update x.points t (x.place t).point = x.points from
          update_eq_self t x.points]
      · obtain ⟨⟨l', he⟩, -⟩ := hw
        rw [hi] at he
        cases he
        exact hok
    | handed =>
      simp only [hn, some.injEq] at hy
      subst hy
      have hdrop := h.table.drop (l := ⟨(x.place t).point, .asleep⟩) (.inr hn)
        (by simp [holdsTable])
      refine h.doze none hi ?_ hdrop fun c hw => ⟨hw.1, .inl hn⟩
      simp [holds, hn]
    | asleep => simp [hn] at hy
    | woken =>
      simp only [hn, ite_none_right_eq_some, some.injEq] at hy
      obtain ⟨-, rfl⟩ := hy
      refine h.doze x.table hi ?_ (h.table.keep ?_) fun c hw => ?_
      · simp [holds, hn]
      · simp [holdsTable, hn]
      · rcases hw.2 with e | e <;> cases e
    | back =>
      simp only [hn, ite_none_right_eq_some, some.injEq] at hy
      obtain ⟨hfree, rfl⟩ := hy
      obtain ⟨hl, hJ, hG⟩ := hs.resume x.points hi (hfree ▸ h.data)
      exact h.take hfree (by simp [holdsTable, hn]) hl hJ hG

theorem inv_step [DecidableEq τ] [DecidableEq χ] {op : Op τ L}
    (hs : Sound instr may Allow J Ok G) (h : Inv instr J Ok G x)
    (hstep : Step instr may x op y) (ha : Allowed instr Allow x op) : Inv instr J Ok G y := by
  cases hstep with
  | call hr hm =>
    have hn : (x.place ‹τ›).nap = .awake := h.awake fun c l e => by rw [hr] at e; cases e
    obtain ⟨hl, hJ⟩ := hs.call x.points hr hm h.data
    exact h.aside hn (by rw [hr]; rfl) hl hJ (fun _ hc => hc) fun _ _ hc => hc
  | next hy => exact inv_next hs h hy ha
  | kill _ =>
    have hw := h.wake (t := ‹τ›)
    exact ⟨hw.lock, hw.table, hw.nap, hw.data, hw.wait⟩
  | rouse _ => exact h.wake

/-- No thread is in the code, and the locks are free. -/
def idle (s : σ) (l : L) : State τ L σ := ⟨s, none, none, fun _ => ⟨l, .awake⟩, fun _ => false⟩

theorem inv_idle (hl : instr l = .rest) (hJ : J none s fun _ => l) :
    Inv instr J Ok G (idle s l : State τ L σ) where
  lock t := iff_of_false (fun h => by cases h) fun h => by
    have := h.1
    rw [idle, hl] at this
    cases this
  table t := iff_of_false (fun h => by cases h) fun h => by rcases h with e | e <;> cases e
  nap t h := absurd rfl h
  data := hJ
  wait t c h := by rcases h.2 with e | e <;> cases e

/-- **No lost wakeup.**  In every state of a run whose accesses are allowed, `J` holds, and while the
lock is free a thread asleep on `c` may be. -/
theorem inv_run [DecidableEq τ] [DecidableEq χ] (hs : Sound instr may Allow J Ok G)
    (hl : instr l = .rest) (hJ : J none s fun _ => l) (hr : Run (Step instr may) (idle s l) tr x)
    (ha : ∀ z ∈ tr, Allowed instr Allow z.1 z.2) :
    (∀ z ∈ tr, Inv instr J Ok G z.1) ∧ Inv instr J Ok G x :=
  hr.inv (fun z op _ h hstep (ha : Allowed instr Allow z op) => inv_step hs h hstep ha)
    (inv_idle hl hJ) ha

/-- A property of the data alone that every access keeps, whoever has been killed, holds
throughout. -/
theorem data_run [DecidableEq τ] [DecidableEq χ] {I : σ → Prop}
    (haccess : ∀ {l f}, instr l = .access f → ∀ t k s, I s → I (f t k s).1)
    (hbare : ∀ {l f}, instr l = .bare f → ∀ t s, I s → I (f t s).1)
    (hr : Run (Step instr may) x tr y) (h₀ : I x.data) : (∀ z ∈ tr, I z.1.data) ∧ I y.data := by
  refine Run.inv_all (I := fun z : State τ L σ => I z.data) (fun z op z' h hs => ?_) hr h₀
  cases hs with
  | call => exact h
  | kill | rouse =>
    unfold State.wake
    split
    · exact h
    · exact h
  | next hn =>
    unfold advance at hn
    split at hn
    · cases hn
    · split at hn
      · cases hn; exact h
      · cases hn
    · next hi => cases hn; exact haccess hi _ _ _ h
    · split at hn
      · cases hn; exact h
      · cases hn
    · cases hn; exact h
    · next hi => cases hn; exact hbare hi _ _ h
    · dsimp only at hn
      split at hn <;> (try split at hn) <;> cases hn <;> exact h

theorem Inv.ok_of_sleepsOn (h : Inv instr J Ok G x) (hfree : x.lock = none)
    (hsl : SleepsOn instr x c t) : Ok c x.data := by
  have hf := h.wait t c ⟨hsl.2, .inr hsl.1⟩
  rwa [Fair, hfree] at hf

end Xv6.Lib.Monitor
