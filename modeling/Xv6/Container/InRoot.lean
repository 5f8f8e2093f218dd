import Xv6.Lib.Run
import Xv6.Container.Lexical

/-!
# Container — InRoot

The paths of the processes of a container.  `InRoot R s` says that `s` is the root `R` followed by
words, each followed by `'/'`, none of them `".."`.  `setpath` keeps that form in every branch,
whatever its argument (`setpath_inRoot`): the prefix test of `rootcmp` compares characters, but
both strings end their words with `'/'`, so it compares words (`inRoot_of_prefix`).  For paths that
need not end with `'/'` it does not always do so (`rootcmp_contains`).

`inRoot_run` is about runs of `setroot`, `fork`, `chdir` and `exec` calls of any number of
processes, one call at a time.  A call whose strings do not fit their buffers ends the run.
-/

namespace Xv6

open Lib List

/-- A word of a path that stays below the directory it is looked up in. -/
structure Comp (c : Str) : Prop where
  word : Word isSlash c
  ne_dotdot : c ≠ dotdot

/-- The root of a container, by its words. -/
structure RootPath where
  words : List Str
  ne_nil : words ≠ []
  comp : ∀ c ∈ words, Comp c

/-- The string `manager.containers[index].root_path`. -/
def RootPath.str (R : RootPath) : Str := absPath R.words

/-- `s` is the root followed by words, each followed by `'/'`. -/
def InRoot (R : RootPath) (s : Str) : Prop := ∃ cs, (∀ c ∈ cs, Comp c) ∧ s = R.str ++ glue slash cs

variable {R : RootPath} {s : Str} {cs ts : List Str}

@[simp] theorem comps_nil : comps [] = [] := rfl

theorem comps_absPath_append (h : ∀ c ∈ cs, Word isSlash c) (s : Str) :
    comps (absPath cs ++ s) = cs ++ comps s := by
  rw [comps, absPath, List.cons_append, tokens_delim isSlash_slash,
    tokens_glue_append isSlash_slash h, comps]

theorem inRoot_root (R : RootPath) : InRoot R R.str := ⟨[], by simp, by simp [glue]⟩

/-- The words of such a path. -/
theorem InRoot.comps (h : InRoot R s) : ∀ c ∈ comps s, Comp c := by
  obtain ⟨cs, hcs, rfl⟩ := h
  have hw : ∀ c ∈ R.words, Word isSlash c := fun c hc => (R.comp c hc).word
  have hc : Xv6.comps (R.str ++ glue slash cs) = R.words ++ cs := by
    rw [RootPath.str, comps_absPath_append hw, Xv6.comps,
      tokens_glue isSlash_slash fun c hc => (hcs c hc).word]
  rw [hc]
  intro c hm
  rcases mem_append.mp hm with hm | hm
  · exact R.comp c hm
  · exact hcs c hm

theorem comp_addComp {w : Str} (hcs : ∀ c ∈ cs, Comp c) (hw : Word isSlash w) :
    ∀ c ∈ addComp cs w, Comp c := by
  intro c hc
  unfold addComp at hc
  split at hc
  · exact hcs c (mem_of_mem_dropLast hc)
  next hne =>
  rcases mem_append.mp hc with hc | hc
  · exact hcs c hc
  · rw [mem_singleton.mp hc]; exact ⟨hw, hne⟩

/-- No `".."` is left by `resolve`. -/
theorem comp_resolve (hts : ∀ t ∈ ts, Word isSlash t) :
    ∀ {cs}, (∀ c ∈ cs, Comp c) → ∀ c ∈ resolve cs ts, Comp c := by
  induction ts with
  | nil => exact fun hcs => hcs
  | cons t ts ih =>
    intro cs hcs
    exact ih (fun u hu => hts u (mem_cons_of_mem _ hu)) (comp_addComp hcs (hts t mem_cons_self))

/-- A path that has the root as a prefix, in characters, is in the root. -/
theorem inRoot_of_prefix (hcs : ∀ c ∈ cs, Comp c) (h : R.str <+: absPath cs) :
    InRoot R (absPath cs) := by
  have hp : glue slash R.words <+: glue slash cs := (cons_prefix_cons.mp h).2
  obtain ⟨us, rfl⟩ := prefix_of_glue isSlash_slash (fun c hc => (R.comp c hc).word)
    (fun c hc => (hcs c hc).word) hp
  refine ⟨us, fun c hc => hcs c (mem_append_right _ hc), ?_⟩
  simp [absPath, RootPath.str, glue_append]

/-- **One call.**  The path of the process stays in the root, and so is what is written back for
`namei`, unless the argument is `"."` or `"./"`. -/
theorem setpath_inRoot {procPath pathAddr : Str} {update : Int} {o : SetpathOut} (hu : update ≥ 1)
    (hp : InRoot R procPath) (h : setpath R.str procPath pathAddr update = .ok o) :
    InRoot R o.procPath ∧
      (o.ret = 0 → pathAddr ≠ dot → pathAddr ≠ dotSlash → InRoot R o.pathAddr) := by
  have hcs : ∀ c ∈ resolve (comps procPath) (comps pathAddr), Comp c :=
    comp_resolve (fun t ht => word_of_mem ht) hp.comps
  rcases setpath_cases hu rfl h with ⟨hd, rfl⟩ | ⟨_, rfl, ⟨-, rfl⟩ | ⟨hpre, rfl⟩⟩
  · refine ⟨hp, fun _ h₁ h₂ => ?_⟩
    rcases hd with hd | hd
    · exact absurd hd h₁
    · exact absurd hd h₂
  · refine ⟨?_, fun h => by simp at h⟩
    dsimp only
    split
    · exact hp
    · exact inRoot_root R
  · have hnew := inRoot_of_prefix hcs hpre
    refine ⟨?_, fun _ _ _ => hnew⟩
    dsimp only
    split
    · exact hp
    · exact hnew

/-! ### Runs -/

/-- The paths of the processes of the container. -/
abbrev Paths (ι : Type) := ι → Option Str

/-- The calls that read or change a path; `exec` is also the call that `ls` makes. -/
inductive PathOp (ι : Type) where
  | setroot (p : ι)
  | fork (p q : ι)
  | chdir (p : ι) (arg : Str)
  | exec (p : ι) (arg : Str)

variable {ι : Type} [DecidableEq ι]

/-- `p` calls `setpath` on `arg`. -/
def callSetpath (root : Str) (s : Paths ι) (p : ι) (arg : Str) (update : Int) :
    Option (Paths ι) := do
  let path ← s p
  let o ← (setpath root path arg update).toOption
  return Function.update s p (some o.procPath)

/-- One call. -/
def pathStep (root : Str) (s : Paths ι) : PathOp ι → Option (Paths ι)
  | .setroot p => do
    let path ← (fit root).toOption
    return Function.update s p (some path)
  | .fork p q => do
    let path ← s p
    return Function.update s q (some path)
  | .chdir p arg => callSetpath root s p arg 1
  | .exec p arg => callSetpath root s p arg 2

/-- Every path is in the root. -/
def AllInRoot (R : RootPath) (s : Paths ι) : Prop := ∀ p path, s p = some path → InRoot R path

theorem allInRoot_update {s : Paths ι} (h : AllInRoot R s) (p : ι) {path : Str}
    (hp : InRoot R path) : AllInRoot R (Function.update s p (some path)) := by
  intro q path' hq
  by_cases hqp : q = p
  · subst hqp
    rw [Function.update_self] at hq
    cases hq
    exact hp
  · rw [Function.update_of_ne hqp] at hq
    exact h q path' hq

theorem callSetpath_inRoot {s s' : Paths ι} {p : ι} {arg : Str} {update : Int} (hu : update ≥ 1)
    (h : AllInRoot R s) (hs : callSetpath R.str s p arg update = some s') : AllInRoot R s' := by
  obtain ⟨path, hp, hs⟩ := Option.bind_eq_some_iff.mp hs
  obtain ⟨o, ho, hs⟩ := Option.bind_eq_some_iff.mp hs
  cases hs
  exact allInRoot_update h p (setpath_inRoot hu (h p path hp) (Res.toOption_eq_some.mp ho)).1

/-- Every call keeps all paths in the root. -/
theorem pathStep_inRoot {s s' : Paths ι} {op : PathOp ι} (h : AllInRoot R s)
    (hs : pathStep R.str s op = some s') : AllInRoot R s' := by
  cases op with
  | setroot p =>
    obtain ⟨path, hp, hs⟩ := Option.bind_eq_some_iff.mp hs
    cases hs
    obtain ⟨-, rfl⟩ := fit_eq_ok.mp (Res.toOption_eq_some.mp hp)
    exact allInRoot_update h p (inRoot_root R)
  | fork p q =>
    obtain ⟨path, hp, hs⟩ := Option.bind_eq_some_iff.mp hs
    cases hs
    exact allInRoot_update h q (h p path hp)
  | chdir | exec => exact callSetpath_inRoot (by decide) h hs

/-- **Lexical confinement.**  In every state of every run every path is in the root, and whenever
`setpath` returns 0 for an argument other than `"."` or `"./"`, the string that it writes back is
in the root. -/
theorem inRoot_run (R : RootPath) {t : List (Paths ι × PathOp ι)} {s' : Paths ι}
    (hr : Run (fun s op s' => pathStep R.str s op = some s') (fun _ => none) t s') :
    (∀ x ∈ t, AllInRoot R x.1) ∧ AllInRoot R s' ∧
      ∀ p path arg update o, s' p = some path → update = 1 ∨ update = 2 →
        setpath R.str path arg update = .ok o → o.ret = 0 → arg ≠ dot → arg ≠ dotSlash →
        InRoot R o.pathAddr := by
  obtain ⟨ht, hs⟩ := hr.inv_all (I := AllInRoot R)
    (fun s op s' h hstep => pathStep_inRoot h hstep) (fun _ _ h => by cases h)
  refine ⟨ht, hs, fun p path arg update o hp hu ho hret hd hds => ?_⟩
  exact (setpath_inRoot (by omega) (hs p path hp) ho).2 hret hd hds

/-- The root `"/c/"`. -/
def rootC : RootPath where
  words := [[⟨99, by decide⟩]]
  ne_nil := by decide
  comp c hc := by
    rw [List.mem_singleton.mp hc]
    exact ⟨⟨by decide, fun x hx => by rw [List.mem_singleton.mp hx]; decide⟩, by decide⟩

/-- Process 0 enters the container and changes to `a`; its child 1 fails to change to `../..`,
which sets its path to the root, and runs `/a`. -/
def pathOps : List (PathOp (Fin 2)) :=
  [.setroot 0, .chdir 0 [chrA], .fork 0 1, .chdir 1 (dotdot ++ slash :: dotdot),
    .exec 1 [slash, chrA]]

/-- The path `"/c/a/"`. -/
def pathA : Str := rootC.str ++ glue slash [[chrA]]

theorem inRoot_pathOps : ∃ (s' : Paths (Fin 2)) (t : _),
    Run (fun s op s' => pathStep rootC.str s op = some s') (fun _ => none) t s' ∧
    (s' 0 = some pathA ∧ s' 1 = some rootC.str) ∧ AllInRoot rootC s' ∧
    setpath rootC.str rootC.str [slash, chrA] 2 = .ok ⟨0, rootC.str, pathA⟩ ∧
    InRoot rootC pathA := by
  obtain ⟨s', hr, hs⟩ := exists_run (fun _ _ _ h => h) (fun _ : Fin 2 => none) pathOps
    (fun s' => s' 0 = some pathA ∧ s' 1 = some rootC.str)
    (f := pathStep rootC.str) (by decide +kernel)
  have hset : setpath rootC.str rootC.str [slash, chrA] 2 = .ok ⟨0, rootC.str, pathA⟩ := by
    rw [← Res.toOption_eq_some]
    decide +kernel
  obtain ⟨-, hin, hback⟩ := inRoot_run rootC hr
  exact ⟨s', _, hr, hs, hin, hset, hback 1 _ _ 2 _ hs.2 (.inr rfl) hset rfl (by decide) (by decide)⟩

variable {r p : Str} {ds : List Str}

/-! ### `rootcmp` on paths -/

/-- Words, each after a `'/'`, and a `'/'` at the end or not. -/
def IsPath (s : Str) : Prop :=
  ∃ cs, (∀ c ∈ cs, Word isSlash c) ∧ (s = absPath cs ∨ s ++ [slash] = absPath cs)

theorem absPath_concat (cs : List Str) (c : Str) :
    absPath (cs ++ [c]) = absPath cs ++ c ++ [slash] := by
  simp [absPath, glue]

/-- A path with a `'/'` at its end, or without. -/
theorem IsPath.cases (h : IsPath s) : (s.getLast? = some slash ∧ s = absPath (comps s)) ∨
      (s.getLast? ≠ some slash ∧ s ++ [slash] = absPath (comps s)) := by
  obtain ⟨cs, hw, hs⟩ := h
  have hc : comps (absPath cs) = cs := by simpa using comps_absPath_append hw []
  rcases eq_nil_or_concat cs with rfl | ⟨ds, c, rfl⟩
  · rcases hs with rfl | hs
    · exact .inl ⟨rfl, rfl⟩
    · obtain rfl : s = [] := append_cancel_right (show s ++ [slash] = [] ++ [slash] from hs)
      exact .inr ⟨by simp, rfl⟩
  rw [concat_eq_append] at hw hs hc
  rcases hs with rfl | hs
  · exact .inl ⟨by simp [absPath_concat], by rw [hc]⟩
  obtain rfl : s = absPath ds ++ c := append_cancel_right (hs.trans (absPath_concat ds c))
  have hword := hw c (by simp)
  refine .inr ⟨fun hl => ?_, ?_⟩
  · -- the word `c` has no `'/'`
    rw [getLast?_append_of_ne_nil _ hword.ne_nil] at hl
    have := hword.clean slash (mem_of_getLast? hl)
    rw [isSlash_slash] at this
    cases this
  · rw [comps_absPath_append fun c hc => hw c (by simp [hc]), comps, hword.tokens, hs]

theorem absPath_prefix (r p : Str) : absPath (comps r) <+: absPath (comps p) ↔ comps r <+: comps p := by
  constructor
  · intro h
    exact prefix_of_glue isSlash_slash (fun _ => word_of_mem) (fun _ => word_of_mem)
      (cons_prefix_cons.mp h).2
  · rintro ⟨us, hu⟩
    exact ⟨glue slash us, by simp [absPath, ← hu, glue_append]⟩

/-- A path is not another one with a second `'/'` at its end. -/
theorem absPath_ne (r p : Str) : absPath (comps r) ≠ absPath (comps p) ++ [slash] := by
  intro h
  have hw : ∀ s : Str, ∀ c ∈ comps s, Word isSlash c := fun _ _ => word_of_mem
  have hc := congrArg comps (show absPath (comps r) ++ [] = _ from (append_nil _).trans h)
  rw [comps_absPath_append (hw r), comps_absPath_append (hw p)] at hc
  have hn : comps [slash] = [] := by rw [comps, tokens_delim isSlash_slash, tokens_nil]
  rw [hn, comps_nil, append_nil, append_nil] at hc
  rw [hc] at h
  simpa using congrArg length h

/-- **`rootcmp` decides containment**, unless `r` is `p` with another `'/'`, or ends inside a word of
`p`. -/
theorem rootcmp_contains (hr : IsPath r) (hp : IsPath p) : (rootcmp r p = 0 ↔ comps r <+: comps p) ↔
      r ≠ p ++ [slash] ∧ (r.getLast? = some slash ∨ ∀ c t, p = r ++ c :: t → c = slash) := by
  rw [rootcmp_eq_zero, ← absPath_prefix]
  have hne := absPath_ne r p
  rcases hr.cases with ⟨hl, hr⟩ | ⟨hl, hr⟩
  · rw [← hr] at hne ⊢
    simp only [hl, true_or, and_true]
    rcases hp.cases with ⟨-, hp⟩ | ⟨-, hp⟩ <;> rw [← hp] at hne ⊢
    · simp [hne]
    · rw [prefix_concat_iff]
      have hlong : r = p ++ [slash] → ¬ r <+: p := fun e h => by
        simpa [e] using h.length_le
      tauto
  · have hne' : r ≠ p ++ [slash] := fun e => hl (by simp [e])
    have hpre : p <+: absPath (comps p) := by
      rcases hp.cases with ⟨-, hp⟩ | ⟨-, hp⟩ <;> rw [← hp]
      exact prefix_append _ _
    rw [← hr]
    simp only [hl, false_or, hne', ne_eq, not_false_eq_true, true_and]
    constructor
    · rintro h c t rfl
      have hone := prefix_of_prefix_length_le (h.mp (prefix_append _ _))
        ((prefix_append (r ++ [c]) t).trans (by simpa using hpre)) (by simp)
      simpa using (append_cancel_left (hone.eq_of_length (by simp))).symm
    · refine fun h => ⟨?_, fun hlong => ?_⟩
      · rintro ⟨u, rfl⟩
        cases u with
        | cons c t =>
          rw [h c t rfl] at hpre ⊢
          exact IsPrefix.trans ⟨t, by simp⟩ hpre
        | nil =>
          rw [append_nil] at hp ⊢
          rcases hp.cases with ⟨hpl, -⟩ | ⟨-, hp⟩
          · exact absurd hpl hl
          · rw [← hp]
      · rcases hp.cases with ⟨-, hp⟩ | ⟨-, hp⟩ <;> rw [← hp] at hlong
        · exact (prefix_append _ _).trans hlong
        · rcases prefix_concat_iff.mp hlong with e | hlong
          · rw [append_cancel_right e]
          · exact (prefix_append _ _).trans hlong

/-- "/a" contains "/a/". -/
theorem rootcmp_contains_self : rootcmp [slash, chrA] [slash, chrA, slash] = 0 ∧
    (rootcmp [slash, chrA] [slash, chrA, slash] = 0 ↔
      comps [slash, chrA] <+: comps [slash, chrA, slash]) := by
  have hw : ∀ c ∈ [[chrA]], Word isSlash c := by
    intro c hc
    obtain rfl := mem_singleton.mp hc
    exact ⟨by simp, forall_mem_singleton.mpr rfl⟩
  have hr : IsPath [slash, chrA] := ⟨[[chrA]], hw, .inr rfl⟩
  have hp : IsPath [slash, chrA, slash] := ⟨[[chrA]], hw, .inl rfl⟩
  refine ⟨rfl, (rootcmp_contains hr hp).mpr ⟨by decide, .inr ?_⟩⟩
  rintro c t h
  cases h
  rfl

/-- **"/a" is taken to contain "/aa"**, whose first word is another. -/
theorem rootcmp_cuts_word : rootcmp [slash, chrA] [slash, chrA, chrA] = 0 ∧
    ¬ comps [slash, chrA] <+: comps [slash, chrA, chrA] := by
  exact ⟨by decide, by decide⟩

end Xv6
