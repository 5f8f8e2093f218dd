import Mathlib.Logic.Function.Basic
import Mathlib.Data.List.Basic

/-!
# Lib — Run

Runs of a labelled transition system `R : σ → α → σ → Prop`.  A run records, at each step, the
state the step starts from and its label (`Run`), so that a condition on the steps of a run is a
condition on the elements of its trace.

* `Run.inv`: an invariant that every step meeting `Ok` preserves holds in every state of a run
  whose steps all meet `Ok`.
* `Run.inv_all`, `Run.inv_history`: an invariant that every step preserves, and one that also speaks
  of what has happened so far.
* `Run.restrict`: a run through `P`-states only, as a run of the steps that lead to `P`-states.
* `Run.inv_iff`: if moreover a step from an invariant state that does not meet `Ok` breaks `P`,
  then `P` holds all along a run exactly when its steps all meet `Ok`.
* `Run.reach`: steps that are runs of another system make a run of it.
* `exists_run`: a run whose steps a function computes.
-/

namespace Xv6.Lib

universe u v

variable {σ : Type u} {α : Type v} {R : σ → α → σ → Prop} {f : σ → α → Option σ}

/-- A run from `s` to `s'`, with its trace: the state before each step and the step's label. -/
inductive Run (R : σ → α → σ → Prop) : σ → List (σ × α) → σ → Prop where
  | refl (s : σ) : Run R s [] s
  | more {s s₁ s' : σ} {a : α} {t : List (σ × α)}
      (h : R s a s₁) (r : Run R s₁ t s') : Run R s ((s, a) :: t) s'

namespace Run

variable {R : σ → α → σ → Prop} {s s₁ s' : σ} {t t₁ : List (σ × α)} {a : α} {I P : σ → Prop}
  {Ok : σ → α → Prop}

theorem one (h : R s a s') : Run R s [(s, a)] s' := .more h (.refl _)

theorem trans (h₁ : Run R s t s₁) (h₂ : Run R s₁ t₁ s') : Run R s (t ++ t₁) s' := by
  induction h₁ with
  | refl => exact h₂
  | more h _ ih => exact .more h (ih h₂)

/-- A run extended by one step at its end. -/
theorem snoc (h₁ : Run R s t s₁) (h : R s₁ a s') : Run R s (t ++ [(s₁, a)]) s' :=
  h₁.trans (.one h)

/-- **Invariance.**  `I` holds in every state of a run whose steps all meet `Ok`. -/
theorem inv (hstep : ∀ s a s', I s → R s a s' → Ok s a → I s') (hr : Run R s t s') (h₀ : I s)
    (hok : ∀ x ∈ t, Ok x.1 x.2) : (∀ x ∈ t, I x.1) ∧ I s' := by
  induction hr with
  | refl => exact ⟨by simp, h₀⟩
  | more h _ ih =>
    have h₁ := hstep _ _ _ h₀ h (hok _ List.mem_cons_self)
    obtain ⟨ht, hs⟩ := ih h₁ fun x hx => hok x (List.mem_cons_of_mem _ hx)
    exact ⟨List.forall_mem_cons.mpr ⟨h₀, ht⟩, hs⟩

/-- An invariant that every step preserves. -/
theorem inv_all (hstep : ∀ s a s', I s → R s a s' → I s') (hr : Run R s t s') (h₀ : I s) :
    (∀ x ∈ t, I x.1) ∧ I s' :=
  hr.inv (fun s a s' h hs (_ : True) => hstep s a s' h hs) h₀ fun _ _ => trivial

/-- An invariant that also speaks of what has happened: `f` collects it along the trace. -/
theorem inv_history {γ : Type*} (f : γ → σ × α → γ) {I : γ → σ → Prop}
    (hstep : ∀ c s a s', I c s → R s a s' → I (f c (s, a)) s') (hr : Run R s t s') :
    ∀ {c}, I c s → I (t.foldl f c) s' := by
  induction hr with
  | refl => exact fun h => h
  | more h _ ih => exact fun hc => ih (hstep _ _ _ _ hc h)

/-- A run all of whose states are `P`-states is a run of the steps that lead to `P`-states. -/
theorem restrict (hr : Run R s t s') (ht : ∀ x ∈ t, P x.1) (hs : P s') :
    Run (fun s a s' => R s a s' ∧ P s') s t s' := by
  induction hr with
  | refl => exact .refl _
  | @more s s₁ s' a t h r ih =>
    obtain ⟨-, ht⟩ := List.forall_mem_cons.mp ht
    -- the state after the first step is in the trace, or is the final one
    have h₁ : P s₁ := by
      cases r with
      | refl => exact hs
      | more _ _ => exact ht _ List.mem_cons_self
    exact .more ⟨h, h₁⟩ (ih ht hs)

/-- **Exactness.**  If `I` is preserved by the steps that meet `Ok`, and from an `I`-state a step
to a `P`-state meets `Ok`, then `P` holds in every state of a run iff its steps all meet `Ok`. -/
theorem inv_iff (hIP : ∀ s, I s → P s) (hstep : ∀ s a s', I s → R s a s' → Ok s a → I s')
    (hexact : ∀ s a s', I s → R s a s' → P s' → Ok s a) (hr : Run R s t s') (h₀ : I s) :
    ((∀ x ∈ t, P x.1) ∧ P s') ↔ ∀ x ∈ t, Ok x.1 x.2 := by
  refine ⟨fun hP => ?_, fun hok => ?_⟩
  · have hr' := hr.restrict hP.1 hP.2
    clear hr hP
    induction hr' with
    | refl => simp
    | more h _ ih =>
      have hok := hexact _ _ _ h₀ h.1 h.2
      exact List.forall_mem_cons.mpr ⟨hok, ih (hstep _ _ _ h₀ h.1 hok)⟩
  · obtain ⟨ht, hs⟩ := inv hstep hr h₀ hok
    exact ⟨fun x hx => hIP _ (ht x hx), hIP _ hs⟩

end Run

/-- Some run leads from `s` to `s'`. -/
def Reach (R : σ → α → σ → Prop) (s s' : σ) : Prop := ∃ t, Run R s t s'

theorem Reach.one {s s' : σ} {a : α} (h : R s a s') : Reach R s s' := ⟨_, .one h⟩

theorem Reach.step {s s₁ s' : σ} {a : α} (h : R s a s₁) : Reach R s₁ s' → Reach R s s'
  | ⟨_, r⟩ => ⟨_, .more h r⟩

/-- **Refinement.**  A run each of whose steps is a run of `R'` is a run of `R'`. -/
theorem Run.reach {τ β : Type*} {R' : τ → β → τ → Prop} {f : σ → τ} {s s' : σ} {t : List (σ × α)}
    (hr : Run R s t s') (h : ∀ x ∈ t, ∀ s₁, R x.1 x.2 s₁ → Reach R' (f x.1) (f s₁)) :
    Reach R' (f s) (f s') := by
  induction hr with
  | refl => exact ⟨_, .refl _⟩
  | more hs _ ih =>
    obtain ⟨hx, ht⟩ := List.forall_mem_cons.mp h
    obtain ⟨_, h₁⟩ := hx _ hs
    obtain ⟨_, h₂⟩ := ih ht
    exact ⟨_, h₁.trans h₂⟩

/-! ### Runs that are computed -/

/-- The state after the labels `as`, when each step is given by `f`. -/
def runFn (f : σ → α → Option σ) : σ → List α → Option σ
  | s, [] => some s
  | s, a :: as => (f s a).bind fun s' => runFn f s' as

/-- The trace of such a run. -/
def traceFn (f : σ → α → Option σ) : σ → List α → List (σ × α)
  | _, [] => []
  | s, a :: as => (s, a) :: (f s a).elim [] fun s' => traceFn f s' as

theorem run_of_runFn (hf : ∀ s a s', f s a = some s' → R s a s') :
    ∀ {as : List α} {s s' : σ}, runFn f s as = some s' → Run R s (traceFn f s as) s'
  | [], s, s', h => by cases h; exact .refl _
  | a :: as, s, s', h => by
    obtain ⟨s₁, h₁, h⟩ := Option.bind_eq_some_iff.mp h
    simp only [traceFn, h₁, Option.elim_some]
    exact .more (hf _ _ _ h₁) (run_of_runFn hf h)

/-- A computed run that ends in a state with a property that can be evaluated. -/
theorem exists_run (hf : ∀ s a s', f s a = some s' → R s a s') (s : σ) (as : List α) (P : σ → Prop)
    [DecidablePred P] (h : (runFn f s as).any (fun s' => P s') = true) :
    ∃ s', Run R s (traceFn f s as) s' ∧ P s' := by
  cases hs : runFn f s as with
  | none => rw [hs] at h; cases h
  | some s' => exact ⟨s', run_of_runFn hf hs, by simpa [hs] using h⟩

end Xv6.Lib
