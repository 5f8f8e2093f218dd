import Mathlib.Logic.Function.Basic

/-!
# Lib — Lock

A lock among threads that are at places of a program.  `Holder h place holds` says that `h` is the
holder: it is the thread, if there is one, whose place is one that holds the lock.  So at most one
thread is at such a place.  It survives a thread that moves between places of one kind (`keep`), one
that takes the free lock (`take`) and one that lets go of it (`drop`).
-/

namespace Xv6.Lib

open Function

universe u v

variable {τ : Type u} {π : Type v} {h : Option τ} {place : τ → π} {holds : π → Prop} {p q : τ}
  {l : π}

/-- `h` is the thread at a place that holds the lock. -/
def Holder (h : Option τ) (place : τ → π) (holds : π → Prop) : Prop :=
  ∀ q, h = some q ↔ holds (place q)

namespace Holder

/-- Two threads do not both hold the lock. -/
theorem unique (hh : Holder h place holds) (hp : holds (place p)) (hq : holds (place q)) : p = q :=
  Option.some.inj (((hh p).mpr hp).symm.trans ((hh q).mpr hq))

/-- The threads move between places of one kind. -/
theorem congr {place' : τ → π} (hh : Holder h place holds)
    (he : ∀ q, holds (place' q) ↔ holds (place q)) : Holder h place' holds :=
  fun q => (hh q).trans (he q).symm

variable [DecidableEq τ]

theorem keep (hh : Holder h place holds) (hp : holds l ↔ holds (place p)) :
    Holder h (update place p l) holds := by
  intro q
  by_cases e : q = p
  · subst e; rw [update_self, hp]; exact hh q
  · rw [update_of_ne e]; exact hh q

theorem take (hh : Holder none place holds) (hp : holds l) :
    Holder (some p) (update place p l) holds := by
  intro q
  by_cases e : q = p
  · subst e; rw [update_self]; exact iff_of_true rfl hp
  · rw [update_of_ne e]
    refine iff_of_false (fun h => e (Option.some.inj h).symm) fun hq => ?_
    cases (hh q).mpr hq

theorem drop (hh : Holder h place holds) (hold : holds (place p)) (hp : ¬ holds l) :
    Holder none (update place p l) holds := by
  intro q
  refine iff_of_false (fun h => by cases h) fun hq => ?_
  by_cases e : q = p
  · subst e; rw [update_self] at hq; exact hp hq
  · rw [update_of_ne e] at hq
    exact e (hh.unique hq hold)

end Holder

end Xv6.Lib
