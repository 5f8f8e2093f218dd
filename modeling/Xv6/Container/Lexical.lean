import Xv6.Container.SetPath

/-!
# Container — Lexical

What `setpath` computes.  On strings that fit their buffers, its loops compute `resolve`: the words
of the argument are applied one by one to the words of the path of the process, `".."` taking the
last one away (`newPath_eq_ok`).  An argument that starts with `'/'` is applied to the path of the
process like any other.  `setpath_cases` is what `setpath` then does with the result.
-/

namespace Xv6

open Lib Function List Res

/-- Is `c` a `'/'`? -/
def isSlash (c : Chr) : Bool := strchr delimSlash c

variable {ts : List Str} {path s procPath pathAddr root : Str} {o : SetpathOut}

theorem isSlash_iff {c : Chr} : isSlash c = true ↔ c = slash := by
  simp [isSlash, strchr, delimSlash]

theorem isSlash_slash : isSlash slash = true := isSlash_iff.mpr rfl

/-- The words of a path. -/
def comps (s : Str) : List Str := tokens isSlash s

/-- A word applied to a list of words. -/
def addComp (cs : List Str) (t : Str) : List Str := if t = dotdot then cs.dropLast else cs ++ [t]

/-- The words `ts` applied to `cs`. -/
def resolve (cs ts : List Str) : List Str := ts.foldl addComp cs

/-- The path with the words `cs`. -/
def absPath (cs : List Str) : Str := slash :: glue slash cs

/-! ### The loops of `setpath` -/

/-- `path_arr` holds, from index 1 on, pointers `ps` to the words `cs`. -/
structure Holds (st : Tok Buf) (a : PathArr) (ps : List (Ptr Buf)) (cs : List Str) : Prop where
  arr : ∀ j, a.arr (j + 1) = ps[j]?
  strs : List.Forall₂ (fun p c => st.str p = .ok c) ps cs
  clean : ∀ c ∈ cs, ∀ x ∈ c, isSlash x = false

variable {st st' : Tok Buf} {a a' : PathArr} {ps : List (Ptr Buf)} {cs : List Str} {t : Ptr Buf}
  {w r : Str} {z : Ptr Buf}

section

variable (h : Holds st a ps cs)

include h

theorem Holds.cuts {b : Buf} (hk : Cuts delimSlash b st st') : Holds st' a ps cs where
  arr := h.arr
  clean := h.clean
  strs := by
    have hc := h.clean
    have hs := h.strs
    clear h
    induction hs with
    | nil => exact .nil
    | cons hp _ ih =>
      refine .cons (hk.str _ _ (hc _ mem_cons_self) hp) (ih fun c hm => ?_)
      exact hc c (mem_cons_of_mem _ hm)

theorem Holds.length : ps.length = cs.length := h.strs.length_eq

/-- A pointer is written after the last one. -/
theorem Holds.snoc (ht : st.str t = .ok w) (hw : ∀ x ∈ w, isSlash x = false) (i : Nat) :
    Holds st ⟨update a.arr (cs.length + 1) (some t), i⟩ (ps ++ [t]) (cs ++ [w]) where
  arr j := by
    have hl := h.length
    dsimp only
    by_cases hj : j = cs.length
    · subst hj
      rw [update_self, ← hl]
      simp
    rw [update_of_ne (by omega), h.arr j]
    rcases Nat.lt_or_ge j ps.length with hlt | hge
    · rw [getElem?_append_left hlt]
    · rw [getElem?_eq_none hge, getElem?_eq_none (by simp; omega)]
  strs := rel_append h.strs (.cons ht .nil)
  clean c hc := by
    rcases mem_append.mp hc with hc | hc
    · exact h.clean c hc
    · rw [mem_singleton.mp hc]; exact hw

/-- The last pointer is taken away. -/
theorem Holds.dropLast (i : Nat) :
    Holds st ⟨update a.arr cs.length none, i⟩ ps.dropLast cs.dropLast where
  arr j := by
    have hl := h.length
    dsimp only
    rw [getElem?_dropLast, update_apply]
    split
    · next hj => rw [if_neg (by omega)]
    next hj =>
    rw [h.arr j]
    split
    · rfl
    · exact getElem?_eq_none (by omega)
  strs := by
    rw [dropLast_eq_take, dropLast_eq_take, h.length]
    exact forall₂_take _ h.strs
  clean c hc := h.clean c (mem_of_mem_dropLast hc)

/-- A null is written after the last pointer. -/
theorem Holds.null (i : Nat) : Holds st ⟨update a.arr (cs.length + 1) none, i⟩ ps cs where
  arr j := by
    have hl := h.length
    dsimp only
    by_cases hj : j = cs.length
    · rw [hj, update_self, getElem?_eq_none (by omega)]
    · rw [update_of_ne (by omega), h.arr j]
  strs := h.strs
  clean := h.clean

theorem Holds.at_end : a.arr (cs.length + 1) = none := by
  rw [h.arr, getElem?_eq_none (by rw [h.length])]

end

theorem write_ok {j : Nat} (hj : j < 128) (p : Option (Ptr Buf)) :
    a.write j p = .ok ⟨update a.arr j p, a.i⟩ := if_pos hj

theorem clean_of_comps (h : comps r = w :: cs) : ∀ x ∈ w, isSlash x = false :=
  (word_of_mem (h ▸ mem_cons_self : w ∈ comps r)).clean

/-- `strtok(0, "/")`. -/
theorem strtok_next (hl : st.lasts = some z) (hz : st.str z = .ok r) :
    (comps r = [] ∧ strtok st none delimSlash = .ok (none, st)) ∨
    ∃ w r' q z' st', comps r = w :: comps r' ∧ strtok st none delimSlash = .ok (some q, st') ∧
      st'.str q = .ok w ∧ st'.lasts = some z' ∧ z'.1 = z.1 ∧ st'.str z' = .ok r' ∧
      Cuts delimSlash z.1 st st' := by
  simp only [strtok, hl]
  rcases strtokAt_spec delimSlash st z hz with ⟨hr, hs⟩ |
    ⟨w', r', q, z', st', hr, -, hs, hq, hl', hb, hz', hk, -⟩
  · exact .inl ⟨hr, hs⟩
  · exact .inr ⟨w', r', q, z', st', hr, hs, hq, hl', hb, hz', hk⟩

/-- The loop over the words that are left on the current path, of which `w` is in `path_arr`. -/
theorem currLoop_spec (n : Nat) : ∀ {st a ps cs w r z}, Holds st a ps (cs ++ [w]) →
    a.i = cs.length + 1 → st.lasts = some z → st.str z = .ok r →
    (comps r).length + 1 < n → cs.length + (comps r).length + 2 < 128 →
    ∃ st' a' ps', currLoop n st a = .ok (st', a') ∧ Cuts delimSlash z.1 st st' ∧
      Holds st' a' ps' (cs ++ w :: comps r) ∧ a'.i = cs.length + (comps r).length + 2 := by
  induction n with
  | zero => intro _ _ _ _ _ _ _ _ _ _ _ hn; omega
  | succ n ih =>
    intro st a ps cs w r z h hi hl hz hn hb
    have hat : ∃ t, a.arr a.i = some t := by
      rw [hi, h.arr]
      exact ⟨_, getElem?_eq_getElem (by rw [h.length]; simp)⟩
    obtain ⟨t, hat⟩ := hat
    have hlen : (cs ++ [w]).length + 1 = a.i + 1 := by simp [hi]
    rw [currLoop, hat]
    dsimp only
    rcases strtok_next hl hz with ⟨hr, hs⟩ | ⟨w', r', q, z', st₁, hr, hs, hq, hl', hb', hz', hk⟩
    · have h₁ := h.null (a.i + 1)
      rw [hlen] at h₁
      rw [hr] at hn hb ⊢
      simp only [hs, ok_bind, write_ok (a := { a with i := a.i + 1 }) (j := a.i + 1)
        (by simp at hb; omega)]
      refine ⟨st, _, ps, ?_, .refl _ _ _, h₁, by simp [hi]⟩
      obtain ⟨n, rfl⟩ : ∃ m, n = m + 1 := ⟨n - 1, by simp at hn; omega⟩
      have hend := h₁.at_end
      rw [hlen] at hend
      rw [currLoop, hend]
    · have h₁ := (h.cuts hk).snoc hq (clean_of_comps hr) (a.i + 1)
      rw [hlen] at h₁
      rw [hr, length_cons] at hn hb ⊢
      simp only [hs, ok_bind, write_ok (a := { a with i := a.i + 1 }) (j := a.i + 1) (by omega)]
      obtain ⟨st', a', ps', he, hk', h', hi'⟩ := ih h₁ (by simp [hi]) hl' hz' (by omega)
        (by simp; omega)
      refine ⟨st', a', ps', he, hk.trans (hb' ▸ hk'), by simpa using h', ?_⟩
      rw [hi']
      simp
      omega

theorem addComp_length (cs : List Str) (w : Str) : (addComp cs w).length ≤ cs.length + 1 := by
  unfold addComp
  split
  · rw [length_dropLast]; omega
  · simp

/-- One word of the argument. -/
theorem addWord_spec (h : Holds st a ps cs) (hi : a.i = cs.length + 1) (ht : st.str t = .ok w)
    (hw : ∀ x ∈ w, isSlash x = false) (hb : cs.length + 1 < 128) :
    ∃ a' ps', a.addWord w t = .ok a' ∧ Holds st a' ps' (addComp cs w) ∧
      a'.i = (addComp cs w).length + 1 := by
  unfold PathArr.addWord addComp
  simp only [strcmp_eq_zero]
  split
  · unfold PathArr.pop
    split
    · next hgt =>
      rw [write_ok (by omega)]
      have h' := h.dropLast (a.i - 1)
      rw [show a.i - 1 = cs.length by omega] at h' ⊢
      exact ⟨_, _, rfl, h', by simp; omega⟩
    · next hgt =>
      obtain rfl : cs = [] := length_eq_zero_iff.mp (by omega)
      exact ⟨a, ps, rfl, by simpa using h, by simpa using hi⟩
  · unfold PathArr.push
    rw [write_ok (by omega), hi]
    exact ⟨_, _, rfl, h.snoc ht hw _, by simp⟩

/-- The loop over the words of the argument, of which `w` is at hand. -/
theorem argLoop_spec (n : Nat) : ∀ {st a ps cs w r z t}, Holds st a ps cs →
    a.i = cs.length + 1 → st.str t = .ok w → (∀ x ∈ w, isSlash x = false) →
    st.lasts = some z → st.str z = .ok r → (comps r).length < n →
    cs.length + (comps r).length + 1 < 128 → ∃ st' a' ps', argLoop n st a (some t) = .ok (st', a') ∧
      Holds st' a' ps' (resolve cs (w :: comps r)) ∧
      a'.i = (resolve cs (w :: comps r)).length + 1 := by
  induction n with
  | zero => intro _ _ _ _ _ _ _ _ _ _ _ _ _ _ hn; omega
  | succ n ih =>
    intro st a ps cs w r z t h hi ht hw hl hz hn hb
    obtain ⟨a₁, ps₁, ha, h₁, hi₁⟩ := addWord_spec h hi ht hw (by omega)
    rw [argLoop, ht]
    simp only [ok_bind, ha]
    rcases strtok_next hl hz with ⟨hr, hs⟩ | ⟨w', r', q, z', st₁, hr, hs, hq, hl', -, hz', hk⟩
    · rw [hs, hr]
      exact ⟨st, a₁, ps₁, by cases n <;> rfl, h₁, hi₁⟩
    rw [hr, length_cons] at hn hb
    have hle := addComp_length cs w
    obtain ⟨st', a', ps', he, h', hi'⟩ := ih (h₁.cuts hk) hi₁ hq (clean_of_comps hr) hl' hz'
      (by omega) (by omega)
    rw [hs, hr]
    exact ⟨st', a', ps', he, h', hi'⟩

/-- Words without a `".."` that run past the end of `path_arr`. -/
theorem argLoop_overrun (n : Nat) : ∀ {st a ps cs w r z t}, Holds st a ps cs →
    a.i = cs.length + 1 → st.str t = .ok w → (∀ x ∈ w, isSlash x = false) →
    st.lasts = some z → st.str z = .ok r → dotdot ∉ w :: comps r →
    128 ≤ cs.length + (comps r).length + 1 → ∀ x, argLoop n st a (some t) ≠ .ok x := by
  induction n with
  | zero => intro _ _ _ _ _ _ _ _ _ _ _ _ _ _ _ _ x hx; cases hx
  | succ n ih =>
    intro st a ps cs w r z t h hi ht hw hl hz hd hb x
    have hne : w ≠ dotdot := fun e => hd (e ▸ mem_cons_self)
    rw [argLoop, ht]
    by_cases hfull : cs.length + 1 < 128
    · obtain ⟨a₁, ps₁, ha, h₁, hi₁⟩ := addWord_spec h hi ht hw hfull
      simp only [ok_bind, ha]
      rcases strtok_next hl hz with ⟨hr, hs⟩ | ⟨w', r', q, z', st₁, hr, hs, hq, hl', -, hz', hk⟩
      · rw [hr, length_nil] at hb
        omega
      rw [hs]
      rw [hr] at hd hb
      rw [length_cons] at hb
      refine ih (h₁.cuts hk) hi₁ hq (clean_of_comps hr) hl' hz'
        (fun hm => hd (mem_cons_of_mem _ hm)) ?_ x
      rw [addComp, if_neg hne, length_append, length_singleton]
      omega
    · simp [PathArr.addWord, strcmp_eq_zero, hne, PathArr.push, PathArr.write, hi, hfull]

theorem length_resolve_of_notMem (hd : dotdot ∉ ts) :
    ∀ cs, (resolve cs ts).length = cs.length + ts.length := by
  induction ts with
  | nil => simp [resolve]
  | cons t ts ih =>
    intro cs
    have hne : t ≠ dotdot := fun e => hd (e ▸ mem_cons_self)
    have h := ih (fun hm => hd (mem_cons_of_mem _ hm)) (addComp cs t)
    simp only [resolve, foldl_cons, length_cons] at h ⊢
    rw [h, addComp, if_neg hne, length_append, length_singleton]
    omega

theorem word_addComp (hcs : ∀ c ∈ cs, Word isSlash c) (hw : Word isSlash w) :
    ∀ c ∈ addComp cs w, Word isSlash c := by
  intro c hc
  unfold addComp at hc
  split at hc
  · exact hcs c (mem_of_mem_dropLast hc)
  · rcases mem_append.mp hc with hc | hc
    · exact hcs c hc
    · rw [mem_singleton.mp hc]; exact hw

theorem word_resolve (hts : ∀ t ∈ ts, Word isSlash t) :
    ∀ {cs}, (∀ c ∈ cs, Word isSlash c) → ∀ c ∈ resolve cs ts, Word isSlash c := by
  induction ts with
  | nil => exact fun hcs => hcs
  | cons t ts ih =>
    intro cs hcs
    exact ih (fun u hu => hts u (mem_cons_of_mem _ hu)) (word_addComp hcs (hts t mem_cons_self))

theorem filter_words (h : ∀ c ∈ cs, Word isSlash c) : cs.filter (· ≠ []) = cs :=
  filter_eq_self.mpr fun c hc => decide_eq_true (h c hc).ne_nil

/-- The argument is added to the words of the current path.  An empty argument leaves a pointer to
an empty string in `path_arr`. -/
theorem addArg_spec (h : Holds st a ps cs) (hi : a.i = cs.length + 1)
    (hcs : ∀ c ∈ cs, Word isSlash c) (ht : st.str (.tempPath, 0) = .ok s)
    (hp : slash ∉ s → path = s ∧ st.str (.path, 0) = .ok s) (hlen : cs.length ≤ 64)
    (hs : cs.length + (comps s).length < 128) :
    ∃ st' a' ps' cs', addArg path s st a = .ok (st', a') ∧ Holds st' a' ps' cs' ∧
      cs'.filter (· ≠ []) = resolve cs (comps s) ∧ cs'.length ≤ a'.i ∧
      a'.i ≤ (resolve cs (comps s)).length + 1 := by
  have hcomps : ∀ c ∈ comps s, Word isSlash c := fun c hc => word_of_mem hc
  have hres := filter_words (word_resolve hcomps hcs)
  unfold addArg
  split
  · simp only [strtok]
    rcases strtokAt_spec delimSlash st _ ht with ⟨hr, he⟩ |
      ⟨w, r, q, z, st₁, hr, -, he, hq, hl, -, hz, hk, -⟩
    · have hr : comps s = [] := hr
      rw [he, hr]
      exact ⟨st, a, ps, cs, rfl, h, filter_words hcs, by omega, by rw [hi]; rfl⟩
    have hr : comps s = w :: comps r := hr
    rw [hr] at hs hres ⊢
    rw [length_cons] at hs
    obtain ⟨st', a', ps', hloop, h', hi'⟩ :=
      argLoop_spec 128 (h.cuts hk) hi hq (clean_of_comps hr) hl hz
      (by omega) (by omega)
    exact ⟨st', a', ps', _, by rw [he]; exact hloop, h', hres, by omega, by omega⟩
  · next hc =>
    have hc : slash ∉ s := by simpa using hc
    obtain ⟨rfl, hpath⟩ := hp hc
    have hclean : ∀ x ∈ path, isSlash x = false := by
      intro x hx
      by_contra hne
      rw [Bool.not_eq_false, isSlash_iff] at hne
      exact hc (hne ▸ hx)
    by_cases hnil : path = []
    · subst hnil
      have hw := h.snoc hpath hclean a.i
      rw [if_neg (by rw [strcmp_eq_zero]; decide), write_ok (by omega), hi]
      refine ⟨st, _, _, _, rfl, hi ▸ hw, ?_, by simp, by simp [resolve, comps]⟩
      rw [filter_append, filter_words hcs]
      simp [resolve, comps]
    · have hone : comps path = [path] := Word.tokens ⟨hnil, hclean⟩
      rw [hone] at hres ⊢
      obtain ⟨a', ps', ha, h', hi'⟩ := addWord_spec h hi hpath hclean (by omega)
      unfold PathArr.addWord at ha
      split at ha
      · next hd =>
        rw [if_pos hd, ha]
        exact ⟨st, a', ps', _, rfl, h', hres, by omega, by simp [resolve]; omega⟩
      next hd =>
      rw [if_neg hd, write_ok (by omega), hi]
      have hne : path ≠ dotdot := fun e => hd (strcmp_eq_zero.mpr e)
      refine ⟨st, _, _, _, rfl, h.snoc hpath hclean _, ?_, by simp, ?_⟩
      · rw [← hres]
        simp [resolve, addComp, hne]
      · simp [resolve, addComp, hne]

/-- An argument of 64 words of one character each, on a path of as many. -/
theorem addArg_overrun (h : Holds st a ps cs) (hi : a.i = cs.length + 1)
    (ht : st.str (.tempPath, 0) = .ok s) (hd : dotdot ∉ comps s) (hlen : 1 < (comps s).length)
    (hs : 128 ≤ cs.length + (comps s).length) : ∀ x, addArg path s st a ≠ .ok x := by
  intro x
  unfold addArg
  split
  · simp only [strtok]
    rcases strtokAt_spec delimSlash st _ ht with ⟨hr, he⟩ |
      ⟨w, r, q, z, st₁, hr, -, he, hq, hl, -, hz, hk, -⟩
    · have hr : comps s = [] := hr
      rw [hr, length_nil] at hlen
      omega
    have hr : comps s = w :: comps r := hr
    rw [hr] at hs hd
    rw [length_cons] at hs
    rw [he]
    exact argLoop_overrun 128 (h.cuts hk) hi hq (clean_of_comps hr) hl hz hd (by omega) x
  · next hc =>
    have hc : slash ∉ s := by simpa using hc
    by_cases hnil : s = []
    · rw [hnil] at hlen
      simp [comps] at hlen
    have hclean : ∀ x ∈ s, isSlash x = false := by
      intro x hx
      by_contra hne
      rw [Bool.not_eq_false, isSlash_iff] at hne
      exact hc (hne ▸ hx)
    rw [comps, Word.tokens ⟨hnil, hclean⟩, length_singleton] at hlen
    omega

/-- The words are copied back, each followed by `'/'`; empty strings are skipped. -/
theorem copyBack_spec (k : Nat) : ∀ {m : Nat} {ps : List (Ptr Buf)} {cs : List Str} {s : Str},
    (∀ j, a.arr (m + 1 + j) = ps[j]?) → List.Forall₂ (fun p c => st.str p = .ok c) ps cs →
    ps.length ≤ k → (∀ s', copyBack st a (range' (m + 1) k) s = .ok s' →
      s' = s ++ glue slash (cs.filter (· ≠ [])) ∧ (s.length < 128 → s'.length < 128)) ∧
    (m + k < 128 → (s ++ glue slash (cs.filter (· ≠ []))).length < 128 →
      ∃ s', copyBack st a (range' (m + 1) k) s = .ok s') := by
  induction k with
  | zero =>
    intro m ps cs s _ hs hk
    obtain rfl : ps = [] := length_eq_zero_iff.mp (by omega)
    cases hs
    simp [copyBack, glue]
  | succ k ih =>
    intro m ps cs s ha hs hk
    rw [range'_succ]
    unfold copyBack
    split
    swap
    · exact ⟨fun _ h => by simp at h, fun h => by omega⟩
    have hm : a.arr (m + 1) = ps[0]? := ha 0
    have ha' : ∀ j, a.arr (m + 1 + 1 + j) = ps.tail[j]? := by
      intro j
      rw [getElem?_tail, ← ha (j + 1)]
      congr 1
      omega
    rw [hm]
    cases hs with
    | nil =>
      obtain ⟨h₁, h₂⟩ := ih (s := s) ha' .nil (by simp)
      exact ⟨h₁, fun hb => h₂ (by omega)⟩
    | @cons p c ps cs hp hs =>
      simp only [length_cons, tail_cons] at hk ha'
      simp only [length_cons, Nat.zero_lt_succ, getElem?_pos, getElem_cons_zero, hp, ok_bind]
      by_cases hc : c = []
      · subst hc
        obtain ⟨h₁, h₂⟩ := ih (s := s) ha' hs (by omega)
        rw [filter_cons_of_neg (by simp)]
        exact ⟨h₁, fun hb => h₂ (by omega)⟩
      rw [if_pos (length_pos_iff.mpr hc), filter_cons_of_pos (by simpa using hc), glue_cons]
      obtain ⟨h₁, h₂⟩ := ih (s := s ++ c ++ [slash]) ha' hs (by omega)
      refine ⟨fun s' h => ?_, fun hb hl => ?_⟩
      · obtain ⟨s₁, hs₁, h⟩ := of_bind h
        obtain ⟨-, rfl⟩ := fit_eq_ok.mp hs₁
        obtain ⟨s₂, hs₂, h⟩ := of_bind h
        obtain ⟨hlt, rfl⟩ := fit_eq_ok.mp hs₂
        obtain ⟨he, hl⟩ := h₁ s' h
        exact ⟨by simpa using he, fun _ => hl hlt⟩
      · rw [fit_eq_ok.mpr ⟨by simp at hl ⊢; omega, rfl⟩, ok_bind,
          fit_eq_ok.mpr ⟨by simp at hl ⊢; omega, rfl⟩]
        exact h₂ (by omega) (by simpa using hl)

/-- The words of the current path are collected. -/
theorem currLoop_init (path s : Str) (hr : r.length < 128) : ∃ p st a st' a' ps,
      strtok ⟨buffers path r s, none⟩ (some (.tempCurrpath, 0)) delimSlash = .ok (p, st) ∧
      PathArr.init.write 1 p = .ok a ∧ currLoop 128 st a = .ok (st', a') ∧
      Holds st' a' ps (comps r) ∧ a'.i = (comps r).length + 1 ∧ (comps r).length ≤ 64 ∧
      st'.str (.tempPath, 0) = .ok s ∧ st'.str (.path, 0) = .ok path := by
  have hlen : (comps r).length ≤ 64 := by
    have h : 2 * (comps r).length ≤ r.length + 1 := tokens_length isSlash r
    omega
  have h₀ : Holds ⟨buffers path r s, none⟩ PathArr.init [] [] :=
    ⟨fun _ => rfl, .nil, by simp⟩
  have hs : (⟨buffers path r s, none⟩ : Tok Buf).str (.tempCurrpath, 0) = .ok r := readStr_bytes r
  have ht : (⟨buffers path r s, none⟩ : Tok Buf).str (.tempPath, 0) = .ok s := readStr_bytes s
  have hp : (⟨buffers path r s, none⟩ : Tok Buf).str (.path, 0) = .ok path := readStr_bytes path
  simp only [strtok]
  rcases strtokAt_spec delimSlash _ _ hs with ⟨hc, he⟩ |
    ⟨w, r', q, z, st₁, hc, -, he, hq, hl, hb, hz, hk, -⟩
  · have hc : comps r = [] := hc
    rw [hc]
    exact ⟨none, _, _, _, _, [], he, write_ok (by omega) _, by rw [currLoop]; rfl,
      h₀.null _, rfl, by simp, ht, hp⟩
  have hc : comps r = w :: comps r' := hc
  rw [hc] at hlen ⊢
  simp only [length_cons] at hlen ⊢
  have h₁ : Holds st₁ _ _ ([] ++ [w]) := (h₀.cuts hk).snoc hq (clean_of_comps hc) 1
  obtain ⟨st', a', ps', hloop, hk', h', hi'⟩ :=
    currLoop_spec 128 h₁ rfl hl hz (by omega) (by simp; omega)
  rw [hb] at hk'
  have hk' := hk.trans hk'
  refine ⟨some q, _, _, st', a', ps', he, write_ok (by omega) _, hloop, h', ?_, hlen, ?_, ?_⟩
  · rw [hi']
    simp
  · simpa only [Tok.str, hk'.other .tempPath (by decide)] using ht
  · simpa only [Tok.str, hk'.other .path (by decide)] using hp

theorem glue_length (hcs : ∀ c ∈ cs, Word isSlash c) :
    2 * cs.length ≤ (glue slash cs).length + 1 := by
  have h := tokens_length isSlash (glue slash cs)
  rwa [tokens_glue isSlash_slash hcs] at h

/-- **The new path.** -/
theorem newPath_eq_ok {new : Str} (hpath : slash ∉ pathAddr → path = pathAddr) :
    newPath procPath path pathAddr = .ok new ↔
      procPath.length < 128 ∧ pathAddr.length < 128 ∧ new.length < 128 ∧
      new = absPath (resolve (comps procPath) (comps pathAddr)) := by
  unfold newPath
  by_cases hp : procPath.length < 128
  swap
  · simp [fit, hp]
  by_cases ha : pathAddr.length < 128
  swap
  · simp [fit, hp, ha]
  obtain ⟨p, st, a, st', a', ps, he, hw, hloop, h, hi, hlen, ht, hb⟩ :=
    currLoop_init path pathAddr hp
  have hcs : ∀ c ∈ comps procPath, Word isSlash c := fun c hc => word_of_mem hc
  have hts : ∀ c ∈ comps pathAddr, Word isSlash c := fun c hc => word_of_mem hc
  have hwords := glue_length (word_resolve hts hcs)
  rw [fit_eq_ok.mpr ⟨hp, rfl⟩, ok_bind, fit_eq_ok.mpr ⟨ha, rfl⟩, ok_bind, he, ok_bind]
  dsimp only
  rw [hw, ok_bind, hloop, ok_bind]
  dsimp only
  by_cases hroom : (comps procPath).length + (comps pathAddr).length < 128
  · obtain ⟨st₁, a₁, ps₁, cs₁, harg, h₁, hf, hle, hge⟩ := addArg_spec h hi hcs ht
      (fun hs => ⟨hpath hs, by rw [hb, hpath hs]⟩) hlen hroom
    have harr : ∀ j, a₁.arr (0 + 1 + j) = ps₁[j]? := fun j => by rw [← h₁.arr j]; congr 1; omega
    obtain ⟨hpost, hfits⟩ := copyBack_spec a₁.i (s := [slash]) harr h₁.strs
      (by rw [h₁.length]; exact hle)
    rw [hf] at hpost hfits
    rw [harg, ok_bind]
    constructor
    · intro hc
      obtain ⟨hnew, hlt⟩ := hpost _ hc
      exact ⟨hp, ha, hlt (by simp), hnew⟩
    · rintro ⟨-, -, hn, hnew⟩
      rw [hnew] at hn
      simp only [absPath, length_cons] at hn
      obtain ⟨s', hs'⟩ := hfits (by omega) (by simpa using hn)
      rw [hs', (hpost _ hs').1, hnew]
      rfl
  · -- Both strings are full of words of one character: `path_arr` is overrun, and the new path
    -- would be too long.
    have hn : 2 * (comps pathAddr).length ≤ pathAddr.length + 1 := tokens_length _ _
    have hd : dotdot ∉ comps pathAddr := by
      intro hm
      have hm' : 2 * (comps pathAddr).length + dotdot.length ≤ pathAddr.length + 2 :=
        tokens_length_add hm
      have h2 : dotdot.length = 2 := rfl
      omega
    constructor
    · intro hc
      obtain ⟨x, hx, -⟩ := of_bind hc
      exact absurd hx (addArg_overrun h hi ht hd (by omega) (by omega) x)
    · rintro ⟨-, -, hnl, hnew⟩
      rw [hnew, absPath, length_cons] at hnl
      rw [length_resolve_of_notMem hd] at hwords
      omega

/-! ### The calls -/

theorem fromRoot_eq_ok (h : fromRoot root path = .ok s) :
    (path.head? = some slash ∧ s = root ++ path.tail) ∨ (path.head? ≠ some slash ∧ s = path) := by
  unfold fromRoot at h
  split at h
  · next hs => exact .inl ⟨hs, (fit_eq_ok.mp h).2⟩
  · next hs => exact .inr ⟨hs, (Except.ok.inj h).symm⟩

theorem stripSlash_of_not_mem (h : slash ∉ s) : stripSlash s = s := by
  unfold stripSlash
  rw [if_neg]
  rintro ⟨hl, -⟩
  exact h (mem_of_getLast? hl)

theorem head?_stripSlash (s : Str) : (stripSlash s).head? = s.head? := by
  unfold stripSlash
  split
  · next h =>
    match s, h with
    | a :: b :: s, _ => rfl
  · rfl

/-- The string that `setpath` compares with `"."`. -/
def dotTest (root pathAddr : Str) : Str :=
  stripSlash (if pathAddr.head? = some slash then root ++ pathAddr.tail else pathAddr)

theorem dotTest_eq (hs : fromRoot root path = .ok s) : dotTest root path = stripSlash s := by
  unfold dotTest
  rcases fromRoot_eq_ok hs with ⟨hsl, rfl⟩ | ⟨hsl, rfl⟩
  · rw [if_pos hsl]
  · rw [if_neg hsl]

/-- A name without a slash is left as it is. -/
theorem stripSlash_fromRoot (hs : fromRoot root path = .ok s) (hc : slash ∉ path) :
    stripSlash s = path := by
  rcases fromRoot_eq_ok hs with ⟨hsl, -⟩ | ⟨-, rfl⟩
  · exact absurd (mem_of_head? hsl) hc
  · exact stripSlash_of_not_mem hc

/-- What `setpath` does, whatever the root. -/
theorem setpath_spec {update : Int} (hu : update ≥ 1)
    (h : setpath root procPath pathAddr update = .ok o) :
    (dotTest root pathAddr = dot ∧ o = ⟨0, procPath, pathAddr⟩) ∨ (dotTest root pathAddr ≠ dot ∧
      ∃ new, new = absPath (resolve (comps procPath) (comps pathAddr)) ∧
        ((¬ root <+: new ∧ o = ⟨-1, if update = 2 then procPath else root, pathAddr⟩) ∨
          (root <+: new ∧ o = ⟨0, if update = 2 then procPath else new, new⟩))) := by
  unfold setpath at h
  obtain ⟨path, hpath, h⟩ := of_bind h
  obtain ⟨-, rfl⟩ := fit_eq_ok.mp hpath
  obtain ⟨s, hs, h⟩ := of_bind h
  dsimp only at h
  rw [dotTest_eq hs]
  by_cases hd : strcmp (stripSlash s) dot = 0
  · rw [if_pos hd] at h
    exact .inl ⟨strcmp_eq_zero.mp hd, (Except.ok.inj h).symm⟩
  rw [if_neg hd] at h
  refine .inr ⟨fun e => hd (strcmp_eq_zero.mpr e), ?_⟩
  obtain ⟨new, hnew, h⟩ := of_bind h
  rw [nextPath, if_pos hu, newPath_eq_ok (stripSlash_fromRoot hs)] at hnew
  refine ⟨new, hnew.2.2.2, ?_⟩
  by_cases hc : rootcmp root new = 0
  · rw [if_neg (not_not.mpr hc)] at h
    exact .inr ⟨rootcmp_eq_zero.mp hc, (Except.ok.inj h).symm⟩
  · rw [if_pos hc] at h
    exact .inl ⟨fun hp => hc (rootcmp_eq_zero.mpr hp), (Except.ok.inj h).symm⟩

theorem stripSlash_eq_dot (h : stripSlash s = dot) : s = dot ∨ s = dotSlash := by
  unfold stripSlash at h
  split at h
  · next hl =>
    refine .inr ?_
    rw [← dropLast_append_getLast? _ hl.1, h]
    rfl
  · exact .inl h

/-- The argument is `"."` or `"./"` when `setpath` stops at its test for `"."`. -/
theorem eq_dot_of_dotTest (hr : root.head? = some slash) (h : dotTest root path = dot) :
    path = dot ∨ path = dotSlash := by
  unfold dotTest at h
  split at h
  · have hs := head?_stripSlash (root ++ path.tail)
    obtain ⟨r, rfl⟩ := head?_eq_some_iff.mp hr
    rw [h] at hs
    have hs : some _ = some slash := hs
    exact absurd (Option.some.inj hs) (by decide)
  · exact stripSlash_eq_dot h

/-- **What `setpath` does**, for an update of the path or for `exec` and `ls`. -/
theorem setpath_cases {update : Int} (hu : update ≥ 1) (hr : root.head? = some slash)
    (h : setpath root procPath pathAddr update = .ok o) :
    ((pathAddr = dot ∨ pathAddr = dotSlash) ∧ o = ⟨0, procPath, pathAddr⟩) ∨
    ∃ new, new = absPath (resolve (comps procPath) (comps pathAddr)) ∧
      ((¬ root <+: new ∧ o = ⟨-1, if update = 2 then procPath else root, pathAddr⟩) ∨
        (root <+: new ∧ o = ⟨0, if update = 2 then procPath else new, new⟩)) := by
  rcases setpath_spec hu h with ⟨hd, ho⟩ | ⟨-, hnew⟩
  · exact .inl ⟨eq_dot_of_dotTest hr hd, ho⟩
  · exact .inr hnew

end Xv6
