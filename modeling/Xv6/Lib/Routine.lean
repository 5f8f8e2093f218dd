import Xv6.Lib.Run

/-!
# Lib — Routine

Programs whose atomic actions read and change a shared state, and threads that run them.  A program
is a tree: it returns, or it does an action and goes on with the action's result (`Routine`).  An
action that has no result in a state cannot be done there: its thread waits, or has stopped the
machine.

* `Routine.run`: a program run alone, to its end.
* `Threads.Step`: threads take turns, one action at a time.
* `Upholds`: with `I` an invariant of the shared state and of what each running thread is in the
  middle of (its *account*), every action of the program keeps `I`, whatever the other threads do in
  between.  `Upholds.bind` composes programs.
* `Threads.upholds_run`: if every program that a thread can start upholds `I`, then `I` holds
  whenever no thread is running.
* `Threads.run_started`: a program run alone is one of the interleavings.
-/

namespace Xv6.Lib

open Function

/-- A program over the state `σ`, with result `α`; `ε` says why an action has no result. -/
inductive Routine (σ ε α : Type) : Type 1 where
  | ret (a : α)
  | act {β : Type} (f : σ → Except ε (β × σ)) (k : β → Routine σ ε α)

namespace Routine

variable {σ ε α β γ : Type}

/-- `p`, and then `g` with its result. -/
def bind : Routine σ ε α → (α → Routine σ ε β) → Routine σ ε β
  | ret a, g => g a
  | act f k, g => act f fun b => (k b).bind g

instance : Monad (Routine σ ε) where
  pure := ret
  bind := bind

/-- The program with one action. -/
def lift (f : σ → Except ε (α × σ)) : Routine σ ε α := act f ret

/-- What the program returns when it runs alone, and the state that it leaves. -/
def run : Routine σ ε α → σ → Except ε (α × σ)
  | ret a, s => .ok (a, s)
  | act f k, s =>
    match f s with
    | .ok (b, s') => (k b).run s'
    | .error e => .error e

@[simp] theorem run_lift (f : σ → Except ε (α × σ)) (s : σ) : (lift f).run s = f s := by
  unfold lift run
  split
  · next h => rw [h]; rfl
  · next h => rw [h]

theorem run_bind_eq_ok {p : Routine σ ε α} {g : α → Routine σ ε β} {s s' : σ} {b : β} :
    (p >>= g).run s = .ok (b, s') ↔ ∃ a s₁, p.run s = .ok (a, s₁) ∧ (g a).run s₁ = .ok (b, s') := by
  change (p.bind g).run s = _ ↔ _
  induction p generalizing s with
  | ret a =>
    refine ⟨fun h => ⟨a, s, rfl, h⟩, ?_⟩
    rintro ⟨a', s₁, h₁, h⟩
    cases h₁
    exact h
  | act f k ih =>
    simp only [bind, run]
    cases hf : f s with
    | error e => simp
    | ok x => exact ih x.1

end Routine

/-! ### Threads -/

/-- The shared state, and what each thread still has to do; `none` for a thread that is idle. -/
structure Threads (τ σ ε α : Type) where
  mem : σ
  prog : τ → Option (Routine σ ε α)

namespace Threads

variable {τ σ ε α γ : Type} [DecidableEq τ]

/-- A step of thread `t`: it starts a program, does an action, or is done. -/
inductive Step (start : σ → τ → Routine σ ε α → Prop) :
    Threads τ σ ε α → τ → Threads τ σ ε α → Prop where
  | start {T : Threads τ σ ε α} {t : τ} {p : Routine σ ε α} (hidle : T.prog t = none)
      (hs : start T.mem t p) : Step start T t ⟨T.mem, update T.prog t (some p)⟩
  | act {T : Threads τ σ ε α} {t : τ} {β : Type} {f : σ → Except ε (β × σ)}
      {k : β → Routine σ ε α} {b : β} {s' : σ} (hp : T.prog t = some (.act f k))
      (hf : f T.mem = .ok (b, s')) : Step start T t ⟨s', update T.prog t (some (k b))⟩
  | done {T : Threads τ σ ε α} {t : τ} {a : α} (hp : T.prog t = some (.ret a)) :
      Step start T t ⟨T.mem, update T.prog t none⟩

/-- No thread is in the middle of a program. -/
def Quiet (T : Threads τ σ ε α) : Prop := ∀ t, T.prog t = none

end Threads

/-! ### Programs that keep an invariant -/

section Upholds

variable {τ σ ε α β γ : Type} [DecidableEq τ] (I : σ → (τ → Option γ) → Prop) (t : τ)

/-- Thread `t`, with account `h`, can run the program: each action keeps `I` with some new account,
and at the end the result and the account have `Q`. -/
def Upholds : Routine σ ε α → γ → (α → γ → Prop) → Prop
  | .ret a, h, Q => Q a h
  | .act f k, h, Q => ∀ s g b s', I s g → g t = some h → f s = .ok (b, s') →
      ∃ h', I s' (update g t (some h')) ∧ Upholds (k b) h' Q

variable {I t} {h : γ} {Q : α → γ → Prop} {p : Routine σ ε α}

theorem Upholds.bind {k : α → Routine σ ε β} {Q' : β → γ → Prop}
    (hp : Upholds I t p h fun a h' => Upholds I t (k a) h' Q') : Upholds I t (p >>= k) h Q' := by
  change Upholds I t (p.bind k) h Q'
  induction p generalizing h with
  | ret a => exact hp
  | act f k' ih =>
    intro s g b s' hI hg hf
    obtain ⟨h', hI', hk⟩ := hp s g b s' hI hg hf
    exact ⟨h', hI', ih b hk⟩

theorem Upholds.mono {Q' : α → γ → Prop} (hp : Upholds I t p h Q) (hQ : ∀ a h', Q a h' → Q' a h') :
    Upholds I t p h Q' := by
  induction p generalizing h with
  | ret a => exact hQ a h hp
  | act f k ih =>
    intro s g b s' hI hg hf
    obtain ⟨h', hI', hk⟩ := hp s g b s' hI hg hf
    exact ⟨h', hI', ih b hk⟩

/-- One action. -/
theorem Upholds.lift {f : σ → Except ε (α × σ)}
    (hf : ∀ s g a s', I s g → g t = some h → f s = .ok (a, s') →
      ∃ h', I s' (update g t (some h')) ∧ Q a h') : Upholds I t (.lift f) h Q := hf

end Upholds

namespace Threads

variable {τ σ ε α γ : Type} [DecidableEq τ] {I : σ → (τ → Option γ) → Prop}
  {start : σ → τ → Routine σ ε α → Prop} {s₀ s s' : σ} {Done : τ → γ → Prop} {T : Threads τ σ ε α}
  {g : τ → Option γ} {t : τ} {p : Routine σ ε α} {a : α}

/-- The accounts `g` of the threads: an idle thread has none, and a thread that runs a program can
run it, with its account, to the end. -/
def Covers (I : σ → (τ → Option γ) → Prop) (Done : τ → γ → Prop) (T : Threads τ σ ε α)
    (g : τ → Option γ) : Prop :=
  ∀ t, (T.prog t = none ∧ g t = none) ∨
    ∃ p h, T.prog t = some p ∧ g t = some h ∧ Upholds I t p h fun _ => Done t

theorem Covers.update (hc : Covers I Done T g) {p : Option (Routine σ ε α)} {h : Option γ}
    (ht : (p = none ∧ h = none) ∨
      ∃ p' h', p = some p' ∧ h = some h' ∧ Upholds I t p' h' fun _ => Done t) :
    Covers I Done ⟨s, update T.prog t p⟩ (update g t h) := by
  intro t'
  by_cases e : t' = t
  · subst e
    simpa using ht
  · simpa [update_of_ne e] using hc t'

theorem covers_step (hstart : ∀ s g t p, I s g → g t = none → start s t p →
      ∃ h, I s (update g t (some h)) ∧ Upholds I t p h fun _ => Done t)
    (hdone : ∀ s g t h, I s g → g t = some h → Done t h → I s (update g t none))
    {T' : Threads τ σ ε α} (hs : Step start T t T') (hI : I T.mem g) (hc : Covers I Done T g) :
    ∃ g', I T'.mem g' ∧ Covers I Done T' g' := by
  cases hs with
  | start hidle hs =>
    rcases hc t with ⟨-, hg⟩ | ⟨p, h, hp, -⟩
    · obtain ⟨h, hI', hup⟩ := hstart _ g t _ hI hg hs
      exact ⟨_, hI', hc.update (.inr ⟨_, h, rfl, rfl, hup⟩)⟩
    · rw [hidle] at hp; cases hp
  | act hp hf =>
    rcases hc t with ⟨hp', -⟩ | ⟨p, h, hp', hg, hup⟩
    · rw [hp] at hp'; cases hp'
    rw [hp] at hp'
    cases hp'
    obtain ⟨h', hI', hk⟩ := hup _ g _ _ hI hg hf
    exact ⟨_, hI', hc.update (.inr ⟨_, h', rfl, rfl, hk⟩)⟩
  | done hp =>
    rcases hc t with ⟨hp', -⟩ | ⟨p, h, hp', hg, hup⟩
    · rw [hp] at hp'; cases hp'
    · rw [hp] at hp'
      cases hp'
      exact ⟨_, hdone _ g t h hI hg hup, hc.update (.inl ⟨rfl, rfl⟩)⟩

/-- **Interleaving.**  If every program that a thread starts upholds `I`, then from a state with no
thread running `I` holds in every state reached with no thread running. -/
theorem upholds_run (Done : τ → γ → Prop) (hstart : ∀ s g t p, I s g → g t = none → start s t p →
      ∃ h, I s (update g t (some h)) ∧ Upholds I t p h fun _ => Done t)
    (hdone : ∀ s g t h, I s g → g t = some h → Done t h → I s (update g t none))
    (h₀ : I s₀ fun _ => none) {tr : List (Threads τ σ ε α × τ)}
    (hr : Run (Step start) ⟨s₀, fun _ => none⟩ tr T) (hq : T.Quiet) : I T.mem fun _ => none := by
  obtain ⟨-, g, hI, hc⟩ := hr.inv_all (I := fun T => ∃ g, I T.mem g ∧ Covers I Done T g)
    (fun T t T' hinv hs => by
      obtain ⟨g, hI, hc⟩ := hinv
      exact covers_step hstart hdone hs hI hc)
    ⟨fun _ => none, h₀, fun t => .inl ⟨rfl, rfl⟩⟩
  have hg : g = fun _ => none := by
    funext t
    rcases hc t with ⟨-, hg⟩ | ⟨p, h, hp, -⟩
    · exact hg
    · rw [hq t] at hp; cases hp
  exact hg ▸ hI

/-- A program that a thread runs alone is a run of the threads. -/
theorem run_alone (prog : τ → Option (Routine σ ε α)) (hr : p.run s = .ok (a, s')) :
    ∃ tr, Run (Step start) ⟨s, update prog t (some p)⟩ tr ⟨s', update prog t none⟩ := by
  induction p generalizing s with
  | ret b =>
    cases hr
    have h : Step start ⟨s', update prog t (some (.ret a))⟩ t _ :=
      .done (update_self t _ prog)
    rw [update_idem] at h
    exact ⟨_, .one h⟩
  | act f k ih =>
    unfold Routine.run at hr
    split at hr
    · next b s₁ hf =>
      obtain ⟨tr, htr⟩ := ih b hr
      have h : Step start ⟨s, update prog t (some (.act f k))⟩ t _ :=
        .act (update_self t _ prog) hf
      rw [update_idem] at h
      exact ⟨_, .more h htr⟩
    · cases hr

/-- A program that an idle thread starts and runs alone. -/
theorem run_started {prog : τ → Option (Routine σ ε α)} (hidle : prog t = none) (hs : start s t p)
    (hr : p.run s = .ok (a, s')) : ∃ tr, Run (Step start) ⟨s, prog⟩ tr ⟨s', prog⟩ := by
  have hback : update prog t none = prog := update_eq_self_iff.mpr hidle.symm
  obtain ⟨tr, htr⟩ : ∃ tr, Run (Step start) _ tr _ := run_alone (t := t) prog hr
  rw [hback] at htr
  exact ⟨_, .more (Step.start hidle hs) htr⟩

end Threads

end Xv6.Lib
