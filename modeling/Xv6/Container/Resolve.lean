import Xv6.Container.InRoot

/-!
# Container — Resolve

Two questions about `setpath` whose answer is in `setpath_spec`.

* Is the path that it records the one that the argument names?  `standard` is the usual reading: an
  absolute argument starts at the container's root, and `"."` is skipped.  `setpath` starts at the
  path of the process whatever the argument, and keeps a `"."` as a word unless the argument is
  nothing else.  `setpath_standard` says where this makes no difference.
* Do the strings fit?  `PathWorld` runs `setroot`, `fork`, `chdir` and `exec` in any containers, and
  stops where a string would overrun its buffer.  `paths_fit_iff`: a call goes through exactly when
  its strings are short enough, and then all recorded paths are.
-/

namespace Xv6

open Lib Function Res

variable {rs cs ts : List Str} {root path arg : Str}

/-! ### The usual resolution -/

/-- A word applied to a list of words, `"."` being skipped. -/
def stdComp (cs : List Str) (t : Str) : List Str := if t = dot then cs else addComp cs t

/-- The words that `arg` names, for a container with root words `rs` and a process at `cs`. -/
def standard (rs cs : List Str) (arg : Str) : List Str :=
  (comps arg).foldl stdComp (if arg.head? = some slash then rs else cs)

/-- The arguments that `setpath` reads as usual: `"."`, `"./"`, and those without a word `"."` that
are relative, or used at the root. -/
def StandardArg (rs cs : List Str) (arg : Str) : Prop :=
  arg = dot ∨ arg = dotSlash ∨ dot ∉ comps arg ∧ (arg.head? = some slash → cs = rs)

theorem comps_absPath (h : ∀ c ∈ cs, Word isSlash c) : comps (absPath cs) = cs := by
  rw [comps, absPath, tokens_delim isSlash_slash, tokens_glue isSlash_slash h]

theorem standard_eq_resolve (hd : dot ∉ comps arg) (hs : arg.head? = some slash → cs = rs) :
    standard rs cs arg = resolve cs (comps arg) := by
  have hbase : (if arg.head? = some slash then rs else cs) = cs := by
    split
    · next h => exact (hs h).symm
    · rfl
  rw [standard, hbase, resolve]
  refine List.foldl_ext _ _ _ fun cs t ht => ?_
  rw [stdComp, if_neg]
  rintro rfl
  exact hd ht

/-- The roots `manager.containers[cid].root_path`, and the path and container of every process.  The
root at -1, of the processes outside, is whatever string stands before the array. -/
structure PathWorld (ι : Type) where
  root : Int → Str
  proc : ι → Option (Str × Int)

/-- The calls that read or change a path. -/
inductive PathWorld.Call (ι : Type) where
  | setroot (p : ι) (cid : Int) (arg : Str)
  | fork (p q : ι) (cid : Int)
  | chdir (p : ι) (arg : Str)
  | exec (p : ι) (arg : Str)

namespace PathWorld

variable {ι : Type} {w w' : PathWorld ι} {p : ι} {cid update : Int}
  {f : Str → Int → Res (PathWorld ι)}

/-- `p` does `f` with its path and container; a process that does not exist does nothing. -/
def act (w : PathWorld ι) (p : ι) (f : Str → Int → Res (PathWorld ι)) : Res (PathWorld ι) :=
  match w.proc p with
  | none => .ok w
  | some (path, cid) => f path cid

section

variable [DecidableEq ι]

/-- `p` calls `setpath`.  The buffer `path` of `exec` is filled like that of `setpath`. -/
def callSetpath (w : PathWorld ι) (p : ι) (arg : Str) (update : Int) : Res (PathWorld ι) :=
  w.act p fun path cid => do
    let o ← setpath (w.root cid) path arg update
    let path ← fit o.procPath
    return { w with proc := Function.update w.proc p (some (path, cid)) }

/-- One call. -/
def step (w : PathWorld ι) : Call ι → Res (PathWorld ι)
  | .setroot p cid arg => w.act p fun _ c => do
    let r ← fit arg
    return ⟨Function.update w.root cid r, Function.update w.proc p (some (r, c))⟩
  | .fork p q cid => w.act p fun path _ => do
    let path ← fit path
    return { w with proc := Function.update w.proc q (some (path, cid)) }
  | .chdir p arg => w.callSetpath p arg 1
  | .exec p arg => w.callSetpath p arg 2

end

/-- Every recorded path fits. -/
def Short (w : PathWorld ι) : Prop := ∀ p path cid, w.proc p = some (path, cid) → path.length < 128

/-- The strings of `setpath` are short enough: the argument, behind the root if it is absolute, and,
unless the argument is `"."`, the new path and the root that may replace it. -/
def PathFits (root path arg : Str) (update : Int) : Prop :=
  arg.length < 128 ∧ (arg.head? = some slash → (root ++ arg.tail).length < 128) ∧
    (dotTest root arg ≠ dot → (absPath (resolve (comps path) (comps arg))).length < 128 ∧
      (update = 2 ∨ root <+: absPath (resolve (comps path) (comps arg)) ∨ root.length < 128))

/-- The condition on a call by `p`. -/
def FitOk (w : PathWorld ι) : Call ι → Prop
  | .setroot p _ arg => (w.proc p).isSome → arg.length < 128
  | .fork _ _ _ => True
  | .chdir p arg => ∀ path cid, w.proc p = some (path, cid) → PathFits (w.root cid) path arg 1
  | .exec p arg => ∀ path cid, w.proc p = some (path, cid) → PathFits (w.root cid) path arg 2

theorem act_isOk : (∃ w', w.act p f = .ok w') ↔
    ∀ path cid, w.proc p = some (path, cid) → ∃ w', f path cid = .ok w' := by
  unfold act
  split
  · next hp => simp [hp]
  · next hp => simp [hp]

theorem fit_bind_isOk {s : Str} {g : Str → PathWorld ι} :
    (∃ w', (do let t ← fit s; return g t : Res (PathWorld ι)) = .ok w') ↔ s.length < 128 := by
  constructor
  · rintro ⟨w', h⟩
    obtain ⟨t, ht, -⟩ := of_bind h
    exact (fit_eq_ok.mp ht).1
  · intro h
    exact ⟨g s, bind_eq_ok.mpr ⟨s, fit_eq_ok.mpr ⟨h, rfl⟩, rfl⟩⟩

theorem act_short (h : w.Short) (hs : w.act p f = .ok w')
    (hf : ∀ {path cid}, f path cid = .ok w' → w'.Short) : w'.Short := by
  unfold act at hs
  split at hs
  · cases hs; exact h
  · exact hf hs

variable [DecidableEq ι]

/-! What one call leaves. -/

theorem short_update (h : w.Short) (root : Int → Str) (p : ι) (hp : fit arg = .ok path) :
    Short ⟨root, Function.update w.proc p (some (path, cid))⟩ := by
  intro q path' cid' hq
  obtain ⟨hlen, rfl⟩ := fit_eq_ok.mp hp
  dsimp only at hq
  by_cases e : q = p
  · subst e
    rw [update_self] at hq
    cases hq
    exact hlen
  · rw [update_of_ne e] at hq
    exact h q path' cid' hq

theorem callSetpath_short (h : w.Short) (hs : w.callSetpath p arg update = .ok w') : w'.Short := by
  refine act_short h hs fun hs => ?_
  obtain ⟨o, -, hs⟩ := of_bind hs
  obtain ⟨path, hp, hs⟩ := of_bind hs
  cases hs
  exact short_update h _ _ hp

theorem step_short {op : Call ι} (h : w.Short) (hs : w.step op = .ok w') : w'.Short := by
  cases op with
  | setroot | fork =>
    refine act_short h hs fun hs => ?_
    obtain ⟨r, hr, hs⟩ := of_bind hs
    cases hs
    exact short_update h _ _ hr
  | chdir | exec => exact callSetpath_short h hs

/-! When a call goes through. -/

theorem fromRoot_isOk : (∃ s, fromRoot root arg = .ok s) ↔
    (arg.head? = some slash → (root ++ arg.tail).length < 128) := by
  unfold fromRoot
  split
  · next hs => exact ⟨fun ⟨_, h⟩ _ => (fit_eq_ok.mp h).1, fun h => ⟨_, fit_eq_ok.mpr ⟨h hs, rfl⟩⟩⟩
  · next hs => exact ⟨fun _ h => absurd h hs, fun _ => ⟨_, rfl⟩⟩

/-- `setpath` goes through when the argument, its absolute form and the new path fit. -/
theorem setpath_isOk (hu : update ≥ 1) (hp : path.length < 128) :
    (∃ o, setpath root path arg update = .ok o) ↔
      arg.length < 128 ∧ (arg.head? = some slash → (root ++ arg.tail).length < 128) ∧
      (dotTest root arg ≠ dot → (absPath (resolve (comps path) (comps arg))).length < 128) := by
  rw [← fromRoot_isOk]
  unfold setpath
  constructor
  · rintro ⟨o, h⟩
    obtain ⟨arg, ha, h⟩ := of_bind h
    obtain ⟨hlen, rfl⟩ := fit_eq_ok.mp ha
    obtain ⟨s, hs, h⟩ := of_bind h
    refine ⟨hlen, ⟨s, hs⟩, fun hd => ?_⟩
    rw [dotTest_eq hs] at hd
    dsimp only at h
    rw [if_neg (mt strcmp_eq_zero.mp hd)] at h
    obtain ⟨new, hnew, -⟩ := of_bind h
    rw [nextPath, if_pos hu, newPath_eq_ok (stripSlash_fromRoot hs)] at hnew
    exact hnew.2.2.2 ▸ hnew.2.2.1
  · rintro ⟨hlen, ⟨s, hs⟩, hnew⟩
    rw [dotTest_eq hs] at hnew
    rw [fit_eq_ok.mpr ⟨hlen, rfl⟩, ok_bind, hs, ok_bind]
    dsimp only
    by_cases hd : stripSlash s = dot
    · exact ⟨_, if_pos (strcmp_eq_zero.mpr hd)⟩
    rw [if_neg (mt strcmp_eq_zero.mp hd), nextPath, if_pos hu,
      (newPath_eq_ok (stripSlash_fromRoot hs)).mpr ⟨hp, hlen, hnew hd, rfl⟩, ok_bind]
    split
    · exact ⟨_, rfl⟩
    · exact ⟨_, rfl⟩

/-- The path left by a `setpath` that goes through. -/
theorem setpath_procPath {o : SetpathOut} (hu : update ≥ 1) (hp : path.length < 128)
    (h : setpath root path arg update = .ok o) : o.procPath.length < 128 ↔ (dotTest root arg ≠ dot →
      update = 2 ∨ root <+: absPath (resolve (comps path) (comps arg)) ∨ root.length < 128) := by
  have hfit := ((setpath_isOk hu hp).mp ⟨o, h⟩).2.2
  rcases setpath_spec hu h with ⟨hd, rfl⟩ | ⟨hd, new, rfl, ⟨hr, rfl⟩ | ⟨hr, rfl⟩⟩
  · exact ⟨fun _ hn => absurd hd hn, fun _ => hp⟩
  · dsimp only
    split
    · next e => exact ⟨fun _ _ => .inl e, fun _ => hp⟩
    · next e =>
      refine ⟨fun h _ => .inr (.inr h), fun h => ?_⟩
      exact ((h hd).resolve_left e).resolve_left hr
  · dsimp only
    refine ⟨fun _ _ => .inr (.inl hr), fun _ => ?_⟩
    split
    · exact hp
    · exact hfit hd

theorem callSetpath_isOk (h : w.Short) (hu : update ≥ 1) :
    (∃ w', w.callSetpath p arg update = .ok w') ↔
      ∀ path cid, w.proc p = some (path, cid) → PathFits (w.root cid) path arg update := by
  rw [callSetpath, act_isOk]
  refine forall₃_congr fun path cid hp => ?_
  have hlen := h p path cid hp
  constructor
  · rintro ⟨w', hw⟩
    obtain ⟨o, ho, hw⟩ := of_bind hw
    obtain ⟨h₁, h₂, h₃⟩ := (setpath_isOk hu hlen).mp ⟨o, ho⟩
    have h₄ := (setpath_procPath hu hlen ho).mp (fit_bind_isOk.mp ⟨w', hw⟩)
    exact ⟨h₁, h₂, fun hd => ⟨h₃ hd, h₄ hd⟩⟩
  · rintro ⟨h₁, h₂, h₃⟩
    obtain ⟨o, ho⟩ := (setpath_isOk hu hlen).mpr ⟨h₁, h₂, fun hd => (h₃ hd).1⟩
    have hfit := (setpath_procPath hu hlen ho).mpr fun hd => (h₃ hd).2
    exact ⟨_, bind_eq_ok.mpr ⟨o, ho, bind_eq_ok.mpr ⟨_, fit_eq_ok.mpr ⟨hfit, rfl⟩, rfl⟩⟩⟩

theorem step_isOk (h : w.Short) (op : Call ι) : (∃ w', w.step op = .ok w') ↔ w.FitOk op := by
  cases op with
  | setroot p cid arg =>
    rw [step, act_isOk, FitOk, Option.isSome_iff_exists]
    simp only [fit_bind_isOk]
    exact ⟨fun h ⟨x, hx⟩ => h x.1 x.2 hx, fun h path c hp => h ⟨_, hp⟩⟩
  | fork p q cid =>
    rw [step, act_isOk]
    simp only [fit_bind_isOk]
    exact ⟨fun _ => trivial, fun _ => h p⟩
  | chdir | exec => exact callSetpath_isOk h (by decide)

/-- **The strings of a run.**  From paths that fit, every path recorded on a run fits, and a further
call keeps within its buffers exactly when `FitOk` holds of it. -/
theorem paths_fit_iff {w₀ : PathWorld ι} {t : List (PathWorld ι × Call ι)} (h₀ : w₀.Short)
    (hr : Run (fun w op w' => w.step op = .ok w') w₀ t w) :
    (∀ x ∈ t, x.1.Short) ∧ w.Short ∧ ∀ op, (∃ w', w.step op = .ok w') ↔ w.FitOk op := by
  have hall := Run.inv_all (I := Short) (fun _ _ _ h hs => step_short h hs) hr h₀
  exact ⟨hall.1, hall.2, step_isOk hall.2⟩

/-- A process at `"/"` outside every container. -/
def atRoot : PathWorld (Fin 1) := ⟨fun _ => [], fun _ => some ([slash], -1)⟩

theorem short_atRoot : atRoot.Short := by
  intro p path cid h
  cases h
  decide

/-- A name of 70 letters. -/
def longName : Str := List.replicate 70 chrA

/-- After one `chdir` to such a name. -/
theorem paths_fit_iff_longName : ∃ w t,
    Run (fun w op w' => w.step op = .ok w') atRoot t w ∧ atRoot.Short ∧ w.Short := by
  obtain ⟨w, hr, -⟩ := exists_run (R := fun w op w' => step w op = .ok w')
    (fun _ _ _ h => toOption_eq_some.mp h) atRoot [.chdir 0 longName] (fun _ => True)
    (by decide +kernel)
  exact ⟨w, _, hr, short_atRoot, (paths_fit_iff short_atRoot hr).2.1⟩

/-- **An overrun.**  The second `chdir` to a directory of that name does not fit in `path`. -/
theorem paths_overrun : ∃ w t, Run (fun w op w' => w.step op = .ok w') atRoot t w ∧
    longName.length < 128 ∧ ∀ w', w.step (.chdir 0 longName) ≠ .ok w' := by
  obtain ⟨w, hr, hn⟩ := exists_run (R := fun w op w' => step w op = .ok w')
    (fun _ _ _ h => toOption_eq_some.mp h) atRoot [.chdir 0 longName]
    (fun w => (w.step (.chdir 0 longName)).toOption.isNone = true) (by decide +kernel)
  refine ⟨w, _, hr, by decide, fun w' h => ?_⟩
  rw [toOption_eq_some.mpr h] at hn
  cases hn

end PathWorld

end Xv6
