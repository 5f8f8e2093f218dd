import Mathlib.Data.List.Basic
import Mathlib.Data.List.TakeWhile
import Mathlib.Logic.Function.Basic

/-!
# Lib — Guard

Programs over a memory of which only the addresses below a limit may be touched.  An access at or
past the limit, and a sum that must not wrap and does, end the program in a trap; a program can
also stop for a reason `ε` of its own, which is no trap.

* `wp p Q m`: run from the memory `m`, the program `p` does not trap, and if it returns then its
  result and the memory it leaves have `Q`.  Every rule is an equivalence, so that a program can be
  executed symbolically both to show that it never traps and to find out when it does.
* `wp_scan`, `wp_scanBelow`, `wp_loadAll`, `wp_storeAll`, `wp_skipWhile`: the rules of the loops over
  strings and blocks.
-/

namespace Xv6.Lib

open Function List

variable {v ε α β : Type}

/-- Why a program ends before it returns. -/
inductive Trap (ε : Type) where
  | outside (a : Nat)
  | wrap
  | stop (e : ε)

/-- A program over a memory of cells `v`. -/
abbrev Guard (v ε : Type) := StateT (Nat → v) (Except (Trap ε))

/-- `p` does not trap from the memory `m`, and what it returns and leaves has `Q`. -/
def wp (p : Guard v ε α) (Q : α → (Nat → v) → Prop) (m : Nat → v) : Prop :=
  match p m with
  | .ok (a, m') => Q a m'
  | .error (.stop _) => True
  | .error _ => False

/-- `p` does not trap. -/
def NoTrap (p : Guard v ε α) (m : Nat → v) : Prop := wp p (fun _ _ => True) m

section Rules

variable {Q R : α → (Nat → v) → Prop} {m : Nat → v} {p q : Guard v ε α} {f : α → Guard v ε β}
  {c : Prop}

theorem wp_pure (a : α) : wp (pure a : Guard v ε α) Q m ↔ Q a m := Iff.rfl

theorem wp_bind {Q : β → (Nat → v) → Prop} : wp (p >>= f) Q m ↔ wp p (fun a => wp (f a) Q) m := by
  unfold wp
  change (match (p m >>= fun x => f x.1 x.2) with
    | .ok (a, m') => Q a m' | .error (.stop _) => True | .error _ => False) ↔ _
  cases p m with
  | ok x => exact Iff.rfl
  | error e => cases e <;> exact Iff.rfl

theorem wp.mono (h : wp p Q m) (hQ : ∀ a m', Q a m' → R a m') : wp p R m := by
  unfold wp at h ⊢
  cases hp : p m with
  | ok x => rw [hp] at h; exact hQ _ _ h
  | error e =>
    rw [hp] at h
    cases e with
    | stop e => trivial
    | outside a => exact h
    | wrap => exact h

theorem wp_ite [Decidable c] : wp (if c then p else q) Q m ↔ (c → wp p Q m) ∧ (¬ c → wp q Q m) := by
  split
  · next h => simp [h]
  · next h => simp [h]

theorem NoTrap.bind (hp : NoTrap p m) (hf : ∀ a m', NoTrap (f a) m') : NoTrap (p >>= f) m :=
  wp_bind.mpr (wp.mono hp fun a m' _ => hf a m')

theorem noTrap_pure {a : α} : NoTrap (pure a : Guard v ε α) m := trivial

theorem noTrap_ite [Decidable c] (hp : c → NoTrap p m) (hq : ¬ c → NoTrap q m) :
    NoTrap (if c then p else q) m :=
  wp_ite.mpr ⟨hp, hq⟩

end Rules

/-! ### Programs that only read -/

/-- `p` returns, and leaves the memory as it is. -/
def Reads (p : Guard v ε α) (m : Nat → v) : Prop := ∃ a, p m = .ok (a, m)

namespace Reads

variable {m : Nat → v} {p : Guard v ε α} {f : α → Guard v ε β}

theorem ret {a : α} : Reads (pure a : Guard v ε α) m := ⟨a, rfl⟩

theorem bind_of {a : α} (hp : p m = .ok (a, m)) (hf : Reads (f a) m) : Reads (p >>= f) m := by
  obtain ⟨b, hb⟩ := hf
  refine ⟨b, ?_⟩
  change (p m >>= fun x => f x.1 x.2) = _
  rw [hp]
  exact hb

theorem bind (hp : Reads p m) (hf : ∀ a, Reads (f a) m) : Reads (p >>= f) m := by
  obtain ⟨a, ha⟩ := hp
  exact bind_of ha (hf a)

theorem ite {c : Prop} [Decidable c] {q : Guard v ε α} (hp : c → Reads p m) (hq : ¬ c → Reads q m) :
    Reads (if c then p else q) m := by
  split
  · next h => exact hp h
  · next h => exact hq h

theorem wp {Q : α → (Nat → v) → Prop} (h : Reads p m) (hQ : ∀ a, Q a m) : wp p Q m := by
  obtain ⟨a, ha⟩ := h
  unfold Lib.wp
  rw [ha]
  exact hQ a

end Reads

theorem wp_of_eq_ok {p : Guard v ε α} {Q : α → (Nat → v) → Prop} {m m' : Nat → v} {a : α}
    (h : p m = .ok (a, m')) : wp p Q m ↔ Q a m' := by
  unfold wp
  rw [h]

/-! ### Single actions -/

/-- The cell at `a`. -/
def load (lim a : Nat) : Guard v ε v := fun m =>
  if a < lim then .ok (m a, m) else .error (.outside a)

/-- The cell at `a` becomes `x`. -/
def store (lim a : Nat) (x : v) : Guard v ε Unit := fun m =>
  if a < lim then .ok ((), update m a x) else .error (.outside a)

/-- A sum of a check, in arithmetic that wraps at `bound`. -/
def sum (bound x y : Nat) : Guard v ε Nat := fun m =>
  if x + y < bound then .ok (x + y, m) else .error .wrap

/-- What a computation outside the memory gives. -/
def outcome : Except ε α → Guard v ε α
  | .ok a => pure a
  | .error e => fun _ => .error (.stop e)

section Actions

variable {lim a : Nat} {m : Nat → v}

theorem wp_load {Q : v → (Nat → v) → Prop} :
    wp (load lim a : Guard v ε v) Q m ↔ a < lim ∧ Q (m a) m := by
  by_cases h : a < lim <;> simp [wp, load, h]

theorem Reads.load (h : a < lim) : Reads (load lim a : Guard v ε v) m := ⟨m a, if_pos h⟩

theorem wp_store {x : v} {Q : Unit → (Nat → v) → Prop} :
    wp (store lim a x : Guard v ε Unit) Q m ↔ a < lim ∧ Q () (update m a x) := by
  by_cases h : a < lim <;> simp [wp, store, h]

theorem wp_sum {bound x y : Nat} {Q : Nat → (Nat → v) → Prop} :
    wp (sum bound x y : Guard v ε Nat) Q m ↔ x + y < bound ∧ Q (x + y) m := by
  by_cases h : x + y < bound <;> simp [wp, sum, h]

theorem wp_outcome {x : Except ε α} {Q : α → (Nat → v) → Prop} :
    wp (outcome x : Guard v ε α) Q m ↔ ∀ b, x = .ok b → Q b m := by
  cases x with
  | ok b => simp [outcome, wp_pure]
  | error e => simp [wp, outcome]

end Actions

/-! ### Blocks -/

/-- The `n` cells from `a` on. -/
def loadAll (lim : Nat) : Nat → Nat → Guard v ε (List v)
  | _, 0 => pure []
  | a, n + 1 => do
    let x ← load lim a
    let xs ← loadAll lim (a + 1) n
    return x :: xs

/-- The cells from `a` on become `xs`. -/
def storeAll (lim : Nat) : Nat → List v → Guard v ε Unit
  | _, [] => pure ()
  | a, x :: xs => do
    store lim a x
    storeAll lim (a + 1) xs

/-- The memory in which the cells from `a` on are `xs`. -/
def put (m : Nat → v) (a : Nat) : List v → Nat → v
  | [] => m
  | x :: xs => put (update m a x) (a + 1) xs

/-- The first address from `a` on whose cell has not `P`; `n` cells are left below the limit. -/
def skipWhile (lim : Nat) (P : v → Bool) : Nat → Nat → Guard v ε Nat
  | 0, a => do
    let _ ← load lim a
    return a
  | n + 1, a => do
    let c ← load lim a
    if P c then skipWhile lim P n (a + 1) else return a

section Blocks

variable {lim n : Nat} {m : Nat → v} {xs : List v}

theorem wp_loadAll : ∀ {a : Nat} {Q : List v → (Nat → v) → Prop},
    wp (loadAll lim a n : Guard v ε (List v)) Q m ↔
      (∀ i, a ≤ i → i < a + n → i < lim) ∧ Q ((range' a n).map m) m := by
  induction n with
  | zero =>
    intro a Q
    rw [loadAll, wp_pure]
    refine ⟨fun h => ⟨fun i _ _ => by omega, h⟩, fun h => h.2⟩
  | succ n ih =>
    intro a Q
    rw [loadAll, wp_bind, wp_load, wp_bind, ih]
    simp only [wp_pure, range'_succ, map_cons]
    constructor
    · rintro ⟨ha, hn, hQ⟩
      refine ⟨fun i hi hlt => ?_, hQ⟩
      rcases Nat.eq_or_lt_of_le hi with rfl | hi
      · exact ha
      · exact hn i hi (by omega)
    · rintro ⟨h, hQ⟩
      exact ⟨h a (by omega) (by omega), fun i hi hlt => h i (by omega) (by omega), hQ⟩

theorem Reads.loadAll : ∀ {a : Nat}, (∀ i, a ≤ i → i < a + n → i < lim) →
    Reads (loadAll lim a n : Guard v ε (List v)) m := by
  induction n with
  | zero => exact fun _ => .ret
  | succ n ih =>
    intro a h
    exact .bind (.load (h a (by omega) (by omega))) fun _ =>
      .bind (ih fun i hi hlt => h i (by omega) (by omega)) fun _ => .ret

theorem wp_storeAll : ∀ {a : Nat} {m : Nat → v} {Q : Unit → (Nat → v) → Prop},
    wp (storeAll lim a xs : Guard v ε Unit) Q m ↔
      (∀ i, a ≤ i → i < a + xs.length → i < lim) ∧ Q () (put m a xs) := by
  induction xs with
  | nil =>
    intro a m Q
    rw [storeAll, wp_pure]
    exact ⟨fun h => ⟨fun i _ hi => by simp at hi; omega, h⟩, fun h => h.2⟩
  | cons x xs ih =>
    intro a m Q
    rw [storeAll, wp_bind, wp_store, ih]
    simp only [put, length_cons]
    constructor
    · rintro ⟨ha, hn, hQ⟩
      refine ⟨fun i hi hlt => ?_, hQ⟩
      rcases Nat.eq_or_lt_of_le hi with rfl | hi
      · exact ha
      · exact hn i hi (by omega)
    · rintro ⟨h, hQ⟩
      exact ⟨h a (by omega) (by omega), fun i hi hlt => h i (by omega) (by omega), hQ⟩

theorem put_of_lt : ∀ {a i : Nat} {m : Nat → v}, i < a → put m a xs i = m i := by
  induction xs with
  | nil => exact fun _ => rfl
  | cons x xs ih =>
    intro a i m h
    rw [put, ih (by omega), update_of_ne (by omega)]

theorem put_of_getElem? : ∀ {a k : Nat} {m : Nat → v} {x : v}, xs[k]? = some x →
    put m a xs (a + k) = x := by
  induction xs with
  | nil => intro _ _ _ _ h; cases h
  | cons y xs ih =>
    intro a k m x h
    cases k with
    | zero =>
      rw [Nat.add_zero, put, put_of_lt (by omega), update_self]
      exact Option.some.inj h
    | succ k =>
      rw [put, show a + (k + 1) = a + 1 + k by omega]
      exact ih h

theorem wp_skipWhile {P : v → Bool} : ∀ {a b : Nat} {Q : Nat → (Nat → v) → Prop},
    lim ≤ a + n → a ≤ b → b < lim → P (m b) = false →
    (∀ c, a ≤ c → c ≤ b → P (m c) = false → Q c m) →
    wp (skipWhile lim P n a : Guard v ε _) Q m := by
  induction n with
  | zero => intro a b Q hn hab hb _ _; omega
  | succ n ih =>
    intro a b Q hn hab hb hP hQ
    rw [skipWhile, wp_bind, wp_load]
    refine ⟨by omega, ?_⟩
    cases hc : P (m a) with
    | false => exact hQ a le_rfl hab hc
    | true =>
      have hne : a ≠ b := fun e => by rw [e, hP] at hc; cases hc
      exact ih (by omega) (by omega) hb hP fun c hac hcb => hQ c (by omega) hcb

end Blocks

/-! ### Strings -/

section Strings

variable [Zero v] [DecidableEq v]

/-- The cells up to the first zero among the `n` cells from `a` on. -/
def scan? (m : Nat → v) : Nat → Nat → Option (List { c : v // c ≠ 0 })
  | 0, _ => none
  | n + 1, a => if h : m a = 0 then some [] else (scan? m n (a + 1)).map (⟨m a, h⟩ :: ·)

/-- The loop that reads on until it has read a zero; `n` cells are left below the limit. -/
def scanFrom (lim : Nat) : Nat → Nat → Guard v ε (List { c : v // c ≠ 0 })
  | 0, a => do
    let _ ← load lim a
    return []
  | n + 1, a => do
    let c ← load lim a
    if h : c = 0 then return [] else
      let s ← scanFrom lim n (a + 1)
      return ⟨c, h⟩ :: s

/-- The cells up to the first zero from `a` on. -/
def scan (lim a : Nat) : Guard v ε (List { c : v // c ≠ 0 }) := scanFrom lim (lim - a) a

/-- The loop over the `n` cells from `a` on, left at a zero. -/
def scanBelow (lim : Nat) : Nat → Nat → Guard v ε (Option (List { c : v // c ≠ 0 }))
  | 0, _ => return none
  | n + 1, a => do
    let c ← load lim a
    if h : c = 0 then return some [] else
      let s ← scanBelow lim n (a + 1)
      return s.map (⟨c, h⟩ :: ·)

variable {lim n a : Nat} {m : Nat → v}

theorem wp_scanFrom : ∀ {a : Nat} {Q : List { c : v // c ≠ 0 } → (Nat → v) → Prop},
    lim ≤ a + n → (∀ i, a ≤ i → i < a + n → i < lim) →
    (wp (scanFrom lim n a : Guard v ε _) Q m ↔ ∃ s, scan? m n a = some s ∧ Q s m) := by
  induction n with
  | zero =>
    intro a Q hn _
    rw [scanFrom, wp_bind, wp_load]
    simp only [scan?]
    exact ⟨fun h => by omega, fun ⟨_, h, _⟩ => by cases h⟩
  | succ n ih =>
    intro a Q hn hlt
    rw [scanFrom, wp_bind, wp_load, scan?]
    by_cases h : m a = 0
    · simp [h, wp_pure, hlt a (by omega) (by omega)]
    simp only [h, dif_neg, not_false_eq_true, wp_bind]
    rw [ih (a := a + 1) (by omega) (fun i hi hl => hlt i (by omega) (by omega))]
    simp only [wp_pure]
    constructor
    · rintro ⟨-, s, hs, hQ⟩
      exact ⟨_, by rw [hs]; rfl, hQ⟩
    · rintro ⟨s, hs, hQ⟩
      obtain ⟨s', hs', rfl⟩ := Option.map_eq_some_iff.mp hs
      exact ⟨hlt a (by omega) (by omega), s', hs', hQ⟩

theorem wp_scan {Q : List { c : v // c ≠ 0 } → (Nat → v) → Prop} :
    wp (scan lim a : Guard v ε _) Q m ↔ ∃ s, scan? m (lim - a) a = some s ∧ Q s m :=
  wp_scanFrom (by omega) (fun i _ _ => by omega)

theorem scanFrom_eq_ok : ∀ {a : Nat} {s : List { c : v // c ≠ 0 }},
    (∀ i, a ≤ i → i < a + n → i < lim) → scan? m n a = some s →
    (scanFrom lim n a : Guard v ε _) m = .ok (s, m) := by
  induction n with
  | zero => intro a s _ h; cases h
  | succ n ih =>
    intro a s hlt h
    rw [scan?] at h
    rw [scanFrom]
    change ((load lim a : Guard v ε v) m >>= _) = _
    rw [load, if_pos (hlt a (by omega) (by omega))]
    by_cases hz : m a = 0
    · rw [dif_pos hz] at h
      cases h
      change (if h : m a = 0 then _ else _ : Guard v ε _) m = _
      rw [dif_pos hz]
      rfl
    · rw [dif_neg hz] at h
      obtain ⟨t, ht, rfl⟩ := Option.map_eq_some_iff.mp h
      change (if h : m a = 0 then _ else _ : Guard v ε _) m = _
      rw [dif_neg hz]
      change ((scanFrom lim n (a + 1) : Guard v ε _) m >>= _) = _
      rw [ih (fun i hi hl => hlt i (by omega) (by omega)) ht]
      rfl

theorem scan_eq_ok {s : List { c : v // c ≠ 0 }} (h : scan? m (lim - a) a = some s) :
    (scan lim a : Guard v ε _) m = .ok (s, m) := scanFrom_eq_ok (fun i _ _ => by omega) h

theorem wp_scanBelow : ∀ {a : Nat} {Q : Option (List { c : v // c ≠ 0 }) → (Nat → v) → Prop},
    (∀ i, a ≤ i → i < a + n → i < lim) →
    (wp (scanBelow lim n a : Guard v ε _) Q m ↔ Q (scan? m n a) m) := by
  induction n with
  | zero => exact fun _ => Iff.rfl
  | succ n ih =>
    intro a Q hlt
    rw [scanBelow, wp_bind, wp_load, scan?]
    by_cases h : m a = 0
    · simp [h, wp_pure, hlt a (by omega) (by omega)]
    · simp only [h, dif_neg, not_false_eq_true, wp_bind]
      rw [ih (a := a + 1) (fun i hi hl => hlt i (by omega) (by omega))]
      exact ⟨fun hQ => hQ.2, fun hQ => ⟨hlt a (by omega) (by omega), hQ⟩⟩

/-- A string ends at a zero below the limit. -/
theorem scan?_eq_some : ∀ {a : Nat} {s : List { c : v // c ≠ 0 }}, scan? m n a = some s ↔
      s.length < n ∧ m (a + s.length) = 0 ∧ (range' a s.length).map m = s.map (·.1) := by
  induction n with
  | zero => intro a s; simp [scan?]
  | succ n ih =>
    intro a s
    rw [scan?]
    by_cases h : m a = 0
    · rw [dif_pos h]
      constructor
      · rintro ⟨⟩
        exact ⟨by simp, h, rfl⟩
      · rintro ⟨-, -, hs⟩
        cases s with
        | nil => rfl
        | cons c s =>
          rw [length_cons, range'_succ, map_cons, map_cons] at hs
          exact absurd ((cons.inj hs).1 ▸ h) c.2
    · rw [dif_neg h, Option.map_eq_some_iff]
      constructor
      · rintro ⟨t, ht, rfl⟩
        obtain ⟨hl, hz, hs⟩ := ih.mp ht
        refine ⟨by simpa using hl, ?_, ?_⟩
        · rw [length_cons, show a + (t.length + 1) = a + 1 + t.length by omega]
          exact hz
        · rw [length_cons, range'_succ, map_cons, map_cons, hs]
      · rintro ⟨hl, hz, hs⟩
        cases s with
        | nil => exact absurd hz h
        | cons c s =>
          rw [length_cons, range'_succ, map_cons, map_cons] at hs
          obtain ⟨hc, hs⟩ := cons.inj hs
          refine ⟨s, ih.mpr ⟨by simpa using hl, ?_, hs⟩, ?_⟩
          · rw [length_cons, show a + (s.length + 1) = a + 1 + s.length by omega] at hz
            exact hz
          · rw [show (⟨m a, h⟩ : { c : v // c ≠ 0 }) = c from Subtype.ext hc]

end Strings

end Xv6.Lib
