import Mathlib.Logic.Function.Basic
import Mathlib.Data.Set.Basic

/-!
# Lib — Ledger

An allocation map and the places that hold what it allocates.  `held p` is the object that place
`p` holds; `used o` says that the map marks `o`, and `fixed o` that it is marked for good.

`Ledger` says that the map is exact: an object is marked iff it is fixed or some place holds it, no
two places hold the same object, and no place holds a fixed one.

* `Ledger.take`: a place without an object gets an unmarked one.
* `Ledger.drop`: a set of places gives up what it holds.
-/

namespace Xv6.Lib

variable {P O : Type*}

/-- The map `used` is exact for the objects in `dom`. -/
structure Ledger (dom fixed used : O → Prop) (held : P → Option O) : Prop where
  mem_dom : ∀ {p o}, held p = some o → dom o
  not_fixed : ∀ {p o}, held p = some o → ¬ fixed o
  inj : ∀ {p q o}, held p = some o → held q = some o → p = q
  used_iff : ∀ {o}, dom o → (used o ↔ fixed o ∨ ∃ p, held p = some o)

namespace Ledger

variable {dom fixed used used' : O → Prop} {held held' : P → Option O} {p : P} {o : O}

section

variable (h : Ledger dom fixed used held)

include h

/-- What is not marked is held nowhere. -/
theorem not_held (hd : dom o) (hu : ¬ used o) (q : P) : held q ≠ some o :=
  fun hq => hu ((h.used_iff hd).mpr (.inr ⟨q, hq⟩))

/-- A marked object that is not fixed is held in exactly one place. -/
theorem existsUnique (hd : dom o) : used o ↔ fixed o ∨ ∃! q, held q = some o := by
  rw [h.used_iff hd]
  constructor
  · rintro (hf | ⟨q, hq⟩)
    · exact .inl hf
    · exact .inr ⟨q, hq, fun r hr => h.inj hr hq⟩
  · rintro (hf | ⟨q, hq, -⟩)
    · exact .inl hf
    · exact .inr ⟨q, hq⟩

/-- **A place takes an object** that is not marked. -/
theorem take (hp : held p = none) (hd : dom o) (hu : ¬ used o)
    (hself : held' p = some o) (hne : ∀ q, q ≠ p → held' q = held q)
    (hused : ∀ o', used' o' ↔ o' = o ∨ used o') : Ledger dom fixed used' held' := by
  have hcases : ∀ {q o'}, held' q = some o' → q = p ∧ o' = o ∨ q ≠ p ∧ held q = some o' := by
    intro q o' hq
    by_cases e : q = p
    · subst e
      rw [hself] at hq
      exact .inl ⟨rfl, (Option.some.inj hq).symm⟩
    · rw [hne q e] at hq
      exact .inr ⟨e, hq⟩
  refine ⟨fun hq => ?_, fun hq => ?_, fun {q r o'} hq hr => ?_, fun {o'} hd' => ?_⟩
  · obtain ⟨-, rfl⟩ | ⟨-, hq⟩ := hcases hq
    · exact hd
    · exact h.mem_dom hq
  · obtain ⟨-, rfl⟩ | ⟨-, hq⟩ := hcases hq
    · exact fun hf => hu ((h.used_iff hd).mpr (.inl hf))
    · exact h.not_fixed hq
  · obtain ⟨rfl, rfl⟩ | ⟨hqp, hq⟩ := hcases hq <;> obtain ⟨rfl, hr⟩ | ⟨hrp, hr⟩ := hcases hr
    · rfl
    · exact absurd hr (h.not_held hd hu r)
    · exact absurd (hr ▸ hq) (h.not_held hd hu q)
    · exact h.inj hq hr
  · rw [hused, h.used_iff hd']
    constructor
    · rintro (rfl | hf | ⟨q, hq⟩)
      · exact .inr ⟨p, hself⟩
      · exact .inl hf
      · refine .inr ⟨q, (hne q fun e => ?_).trans hq⟩
        subst e
        rw [hp] at hq
        cases hq
    · rintro (hf | ⟨q, hq⟩)
      · exact .inr (.inl hf)
      · obtain ⟨-, rfl⟩ | ⟨-, hq⟩ := hcases hq
        · exact .inl rfl
        · exact .inr (.inr ⟨q, hq⟩)

/-- **The places in `S` give up what they hold.** -/
theorem drop (S : Set P) (hS : ∀ q ∈ S, held' q = none) (hne : ∀ q, q ∉ S → held' q = held q)
    (hused : ∀ o, used' o ↔ used o ∧ ∀ q ∈ S, held q ≠ some o) : Ledger dom fixed used' held' := by
  have hcases : ∀ {q o}, held' q = some o → q ∉ S ∧ held q = some o := by
    intro q o hq
    by_cases e : q ∈ S
    · rw [hS q e] at hq; cases hq
    · exact ⟨e, hne q e ▸ hq⟩
  refine ⟨fun hq => h.mem_dom (hcases hq).2, fun hq => h.not_fixed (hcases hq).2,
    fun hq hr => h.inj (hcases hq).2 (hcases hr).2, fun {o} hd => ?_⟩
  rw [hused, h.used_iff hd]
  constructor
  · rintro ⟨hf | ⟨q, hq⟩, hno⟩
    · exact .inl hf
    · exact .inr ⟨q, (hne q fun e => hno q e hq).trans hq⟩
  · rintro (hf | ⟨q, hq⟩)
    · exact ⟨.inl hf, fun q _ hq => h.not_fixed hq hf⟩
    · obtain ⟨hqS, hq⟩ := hcases hq
      exact ⟨.inr ⟨q, hq⟩, fun r hr hr' => hqS (h.inj hq hr' ▸ hr)⟩

/-- The same marks and the same places. -/
theorem congr (hheld : ∀ q, held' q = held q)
    (hused : ∀ o, used' o ↔ used o) : Ledger dom fixed used' held' := by
  obtain rfl : held' = held := funext hheld
  exact ⟨h.mem_dom, h.not_fixed, h.inj, fun hd => (hused _).trans (h.used_iff hd)⟩

end

end Ledger

end Xv6.Lib
