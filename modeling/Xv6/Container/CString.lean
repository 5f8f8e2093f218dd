import Xv6.Lib.Split
import Xv6.Kernel.Base

/-!
# Container — CString

C strings and the functions of `string.c` and `container.c` on them.  A character is a non-zero
byte, and a string (`Str`) is the list of the characters before the terminating NUL, so that no
string holds a NUL.  A buffer that is changed in place is the list of its bytes, `none` being the
NUL; reading past what was written to it is a fault.

`strtok` keeps its place in the static variable `lasts` and cuts its argument by writing NULs.
`strtokAt_spec` says what one call does to the string that is left: it returns a pointer to the first
of its words, and `lasts` is left at a string that has the others.  What a pointer to a word points
to is not changed by later calls (`Cuts`).
-/

namespace Xv6

open Lib Function List

/-- A character of a C string. -/
abbrev Chr := { c : UInt8 // c ≠ 0 }

/-- A C string, without its NUL. -/
abbrev Str := List Chr

/-- The character `'/'`. -/
def slash : Chr := ⟨47, by decide⟩

/-- The character `'a'`. -/
def chrA : Chr := ⟨97, by decide⟩

/-- The string `"."`. -/
def dot : Str := [⟨46, by decide⟩]

/-- The string `".."`. -/
def dotdot : Str := [⟨46, by decide⟩, ⟨46, by decide⟩]

/-- The string `"./"`. -/
def dotSlash : Str := dot ++ [slash]

/-- The value of a `char`, which is signed. -/
def Chr.val (c : Chr) : Int := if c.1.toNat < 128 then c.1.toNat else (c.1.toNat : Int) - 256

/-- The first character of a string as `*s` reads it: 0 at its end. -/
def firstVal : Str → Int
  | [] => 0
  | c :: _ => c.val

/-- `strcmp`. -/
def strcmp : Str → Str → Int
  | a :: p, b :: q => if a = b then strcmp p q else a.val - b.val
  | a :: _, [] => a.val - 0
  | [], q => 0 - firstVal q

/-- `rootcmp`. -/
def rootcmp : Str → Str → Int
  | a :: p, b :: q => if a = b then rootcmp p q else a.val - b.val
  | a :: _, [] => a.val - 0
  | [], _ => 0

variable {p q : Str}

theorem Chr.val_inj {a b : Chr} (h : a.val = b.val) : a = b := by
  have ha : a.1.toNat < 256 := a.1.toNat_lt
  have hb : b.1.toNat < 256 := b.1.toNat_lt
  refine Subtype.ext (UInt8.toNat_inj.mp ?_)
  unfold Chr.val at h
  split at h <;> split at h <;> omega

theorem Chr.val_ne_zero (a : Chr) : a.val ≠ 0 := by
  have ha : a.1.toNat < 256 := a.1.toNat_lt
  have h0 : a.1.toNat ≠ 0 := fun h => a.2 (UInt8.toNat_inj.mp h)
  unfold Chr.val
  split <;> omega

theorem strcmp_eq_zero : strcmp p q = 0 ↔ p = q := by
  induction p generalizing q with
  | nil =>
    cases q with
    | nil => simp [strcmp, firstVal]
    | cons b q => simpa [strcmp, firstVal] using b.val_ne_zero
  | cons a p ih =>
    cases q with
    | nil => simpa [strcmp] using a.val_ne_zero
    | cons b q =>
      rw [strcmp]
      split
      · next e => simp [e, ih]
      · next e =>
        have : a.val - b.val ≠ 0 := fun h => e (Chr.val_inj (by omega))
        simp [e, this]

/-- **`rootcmp` is a test for a prefix.** -/
theorem rootcmp_eq_zero : rootcmp p q = 0 ↔ p <+: q := by
  induction p generalizing q with
  | nil => simp [rootcmp]
  | cons a p ih =>
    cases q with
    | nil => simpa [rootcmp] using a.val_ne_zero
    | cons b q =>
      rw [rootcmp]
      split
      · next e => simp [e, ih, cons_prefix_cons]
      · next e =>
        have : a.val - b.val ≠ 0 := fun h => e (Chr.val_inj (by omega))
        simp [e, this, cons_prefix_cons]

/-- The string `s` stored in a buffer of 128 bytes. -/
def fit (s : Str) : Res Str :=
  if s.length < 128 then .ok s else .error (.fault "a string overruns its buffer")

theorem fit_eq_ok {s t : Str} : fit s = .ok t ↔ s.length < 128 ∧ t = s := by
  unfold fit
  split
  · next h => simp [h, eq_comm]
  · next h => simp [h]

/-! ### Buffers -/

section Buffers

variable {β : Type} [DecidableEq β]

/-- The bytes written to a buffer. -/
abbrev Bytes := List (Option Chr)

/-- The bytes that `strcpy` writes. -/
def Str.bytes (s : Str) : Bytes := s.map some ++ [none]

/-- A pointer into one of the buffers `β`. -/
abbrev Ptr (β : Type) := β × Nat

/-- The buffers, and the static variable of `strtok`. -/
structure Tok (β : Type) where
  mem : β → Bytes
  lasts : Option (Ptr β)

/-- The string at the start of `l`. -/
def readStr : Bytes → Res Str
  | [] => .error (.fault "read past the end of a string")
  | none :: _ => .ok []
  | some c :: l => do
    let s ← readStr l
    return c :: s

/-- The string a pointer points to. -/
def Tok.str (st : Tok β) (p : Ptr β) : Res Str := readStr ((st.mem p.1).drop p.2)

/-- `strchr(delim, c) != 0`. -/
def strchr (delim : Str) (c : Chr) : Bool := delim.contains c

/-- The first loop of `strtok`: how many delimiters are skipped; `none` at the end of the string. -/
def skipDelims (delim : Str) : Bytes → Res (Option Nat)
  | [] => .error (.fault "read past the end of a string")
  | none :: _ => .ok none
  | some c :: l =>
    if strchr delim c then do
      let n ← skipDelims delim l
      return n.map (· + 1)
    else .ok (some 0)

/-- `strcspn`. -/
def strcspn (delim : Str) : Bytes → Res Nat
  | [] => .error (.fault "read past the end of a string")
  | none :: _ => .ok 0
  | some c :: l =>
    if strchr delim c then .ok 0
    else do
      let n ← strcspn delim l
      return n + 1

/-- `lasts = q; if (*lasts != 0) *lasts++ = 0;` -/
def setLasts (st : Tok β) (q : Ptr β) : Res (Tok β) :=
  match (st.mem q.1)[q.2]? with
  | none => .error (.fault "read past the end of a string")
  | some none => .ok { st with lasts := some q }
  | some (some _) =>
    .ok ⟨update st.mem q.1 ((st.mem q.1).set q.2 none), some (q.1, q.2 + 1)⟩

/-- `strtok` from the pointer `s` on. -/
def strtokAt (st : Tok β) (s : Ptr β) (delim : Str) : Res (Option (Ptr β) × Tok β) := do
  match ← skipDelims delim ((st.mem s.1).drop s.2) with
  | none => return (none, st)
  | some n =>
    let len ← strcspn delim ((st.mem s.1).drop (s.2 + n))
    let st ← setLasts st (s.1, s.2 + n + len)
    return (some (s.1, s.2 + n), st)

/-- `strtok(s, delim)`; a null `s` stands for `lasts`. -/
def strtok (st : Tok β) (s : Option (Ptr β)) (delim : Str) : Res (Option (Ptr β) × Tok β) :=
  match s with
  | some s => strtokAt st s delim
  | none =>
    match st.lasts with
    | some s => strtokAt st s delim
    | none => .error (.fault "strtok: null pointer")

variable {delim : Str} {l : Bytes} {s t : Str} {n q k : Nat} {c : Chr} {b : β} {st : Tok β}

theorem readStr_eq_nil : readStr l = .ok [] ↔ ∃ l', l = none :: l' := by
  constructor
  · intro h
    cases l with
    | nil => cases h
    | cons e l =>
      cases e with
      | none => exact ⟨l, rfl⟩
      | some c => obtain ⟨r, -, h⟩ := of_bind h; cases h
  · rintro ⟨l', rfl⟩
    rfl

theorem readStr_eq_cons :
    readStr l = .ok (c :: s) ↔ ∃ l', l = some c :: l' ∧ readStr l' = .ok s := by
  constructor
  · intro h
    cases l with
    | nil => cases h
    | cons e l =>
      cases e with
      | none => cases h
      | some e =>
        obtain ⟨r, hr, h⟩ := of_bind h
        cases h
        exact ⟨l, rfl, hr⟩
  · rintro ⟨l', rfl, h⟩
    rw [readStr, h]
    rfl

theorem readStr_bytes (s : Str) : readStr s.bytes = .ok s := by
  induction s with
  | nil => rfl
  | cons c s ih => exact readStr_eq_cons.mpr ⟨_, rfl, ih⟩

/-- Overwriting a character that is not in the string. -/
theorem readStr_set (hs : readStr l = .ok s) (hq : l[q]? = some (some c)) (hc : c ∉ s) :
    readStr (l.set q none) = .ok s := by
  induction s generalizing l q with
  | nil =>
    obtain ⟨l, rfl⟩ := readStr_eq_nil.mp hs
    cases q with
    | zero => simp at hq
    | succ q => rfl
  | cons e s ih =>
    obtain ⟨l, rfl, h⟩ := readStr_eq_cons.mp hs
    cases q with
    | zero => simp at hq; exact absurd (hq ▸ mem_cons_self) hc
    | succ q =>
      refine readStr_eq_cons.mpr ⟨_, rfl, ih h (by simpa using hq) fun hm => ?_⟩
      exact hc (mem_cons_of_mem _ hm)

theorem readStr_drop_set (hs : readStr (l.drop k) = .ok s) (hq : l[q]? = some (some c)) (hc : c ∉ s) :
    readStr ((l.set q none).drop k) = .ok s := by
  by_cases hk : q < k
  · rw [drop_set_of_lt hk]; exact hs
  rw [drop_set, if_neg hk]
  refine readStr_set hs ?_ hc
  rw [getElem?_drop, ← hq]
  congr 1
  omega

/-- The string from its `n`-th character on. -/
theorem readStr_drop (h : readStr l = .ok s) (hn : n ≤ s.length) :
    readStr (l.drop n) = .ok (s.drop n) := by
  induction n generalizing l s with
  | zero => exact h
  | succ n ih =>
    cases s with
    | nil => simp at hn
    | cons c s =>
      obtain ⟨l, rfl, hl⟩ := readStr_eq_cons.mp h
      exact ih hl (by simpa using hn)

/-- A string is cut at its `n`-th character. -/
theorem readStr_cut (h : readStr l = .ok s) (hn : n < s.length) :
    readStr (l.set n none) = .ok (s.take n) := by
  induction n generalizing l s with
  | zero =>
    cases s with
    | nil => simp at hn
    | cons c s =>
      obtain ⟨l, rfl, -⟩ := readStr_eq_cons.mp h
      rfl
  | succ n ih =>
    cases s with
    | nil => simp at hn
    | cons c s =>
      obtain ⟨l, rfl, hl⟩ := readStr_eq_cons.mp h
      exact readStr_eq_cons.mpr ⟨_, rfl, ih hl (by simpa using hn)⟩

theorem skipDelims_none (h : readStr l = .ok s) (hd : s.dropWhile (strchr delim) = []) :
    skipDelims delim l = .ok none := by
  induction s generalizing l with
  | nil =>
    obtain ⟨l, rfl⟩ := readStr_eq_nil.mp h
    rfl
  | cons c s ih =>
    obtain ⟨l, rfl, hl⟩ := readStr_eq_cons.mp h
    cases hc : strchr delim c with
    | false => rw [dropWhile_cons_of_neg (by simp [hc])] at hd; cases hd
    | true =>
      rw [dropWhile_cons_of_pos hc] at hd
      rw [skipDelims, if_pos hc, ih hl hd]
      rfl

theorem skipDelims_some (h : readStr l = .ok s) (hd : s.dropWhile (strchr delim) ≠ []) :
    skipDelims delim l = .ok (some (s.takeWhile (strchr delim)).length) := by
  induction s generalizing l with
  | nil => exact absurd rfl hd
  | cons c s ih =>
    obtain ⟨l, rfl, hl⟩ := readStr_eq_cons.mp h
    cases hc : strchr delim c with
    | false => simp [skipDelims, hc]
    | true =>
      rw [dropWhile_cons_of_pos hc] at hd
      rw [skipDelims, if_pos hc, ih hl hd, takeWhile_cons_of_pos hc]
      rfl

theorem strcspn_eq (h : readStr l = .ok s) :
    strcspn delim l = .ok (s.takeWhile fun c => !strchr delim c).length := by
  induction s generalizing l with
  | nil =>
    obtain ⟨l, rfl⟩ := readStr_eq_nil.mp h
    rfl
  | cons c s ih =>
    obtain ⟨l, rfl, hl⟩ := readStr_eq_cons.mp h
    cases hc : strchr delim c with
    | true => simp [strcspn, hc]
    | false =>
      rw [strcspn, if_neg (by simp [hc]), ih hl, takeWhile_cons_of_pos (by simp [hc])]
      rfl

/-- `st'` is `st` with delimiters in the buffer `b` overwritten by NULs: strings without delimiters
stay. -/
structure Cuts (delim : Str) (b : β) (st st' : Tok β) : Prop where
  str : ∀ p t, (∀ c ∈ t, strchr delim c = false) → st.str p = .ok t → st'.str p = .ok t
  other : ∀ b', b' ≠ b → st'.mem b' = st.mem b'

omit [DecidableEq β] in
theorem Cuts.refl (delim : Str) (b : β) (st : Tok β) : Cuts delim b st st :=
  ⟨fun _ _ _ h => h, fun _ _ => rfl⟩

omit [DecidableEq β] in
theorem Cuts.trans {st₁ st' : Tok β} (h₁ : Cuts delim b st st₁) (h₂ : Cuts delim b st₁ st') :
    Cuts delim b st st' :=
  ⟨fun p t ht h => h₂.str p t ht (h₁.str p t ht h),
    fun b' hb => (h₂.other b' hb).trans (h₁.other b' hb)⟩

/-- A delimiter is overwritten by a NUL. -/
theorem cuts_set (lasts : Option (Ptr β)) (hq : (st.mem b)[q]? = some (some c))
    (hc : strchr delim c = true) :
    Cuts delim b st ⟨update st.mem b ((st.mem b).set q none), lasts⟩ where
  other b' hb := update_of_ne hb _ _
  str := by
    rintro ⟨b', k⟩ t ht h
    by_cases hb : b' = b
    · subst hb
      simp only [Tok.str, update_self] at h ⊢
      refine readStr_drop_set h hq fun hm => ?_
      rw [ht c hm] at hc
      cases hc
    · simpa only [Tok.str, update_of_ne hb] using h

/-- All that differs between `st` and `st'` is that delimiters of the string `s` at `p` are NULs. -/
def Nulled (delim s : Str) (p : Ptr β) (st st' : Tok β) : Prop :=
  ∀ b i, (st'.mem b)[i]? = (st.mem b)[i]? ∨ b = p.1 ∧ (st'.mem b)[i]? = some none ∧
    ∃ l c, i = p.2 + l ∧ s[l]? = some c ∧ strchr delim c = true

omit [DecidableEq β] in
theorem Nulled.trans {st₁ st' : Tok β} {p : Ptr β} {j : Nat} (h₁ : Nulled delim s p st st₁)
    (h₂ : Nulled delim (s.drop j) (p.1, p.2 + j) st₁ st') : Nulled delim s p st st' := by
  intro b i
  rcases h₂ b i with e | ⟨hb, hn, l, c, hi, hc, hd⟩
  · rw [e]; exact h₁ b i
  · rw [getElem?_drop] at hc
    exact .inr ⟨hb, hn, j + l, c, by rw [hi, Nat.add_assoc], hc, hd⟩

/-- The word `w` before `q` is cut off the string `v` that starts there with a delimiter, if it is
not empty. -/
theorem setLasts_spec (delim : Str) {w v : Str} (h : st.str (b, k) = .ok (w ++ v))
    (hv : ∀ c ∈ v.head?, strchr delim c = true) :
    ∃ e st', setLasts st (b, k + w.length) = .ok st' ∧ st'.str (b, k) = .ok w ∧ e ≤ v.length ∧
      v.drop e = v.tail ∧ st'.lasts = some (b, k + w.length + e) ∧
      st'.str (b, k + w.length + e) = .ok v.tail ∧ Cuts delim b st st' ∧
      Nulled delim (w ++ v) (b, k) st st' := by
  have h : readStr ((st.mem b).drop k) = .ok (w ++ v) := h
  have hq : readStr ((st.mem b).drop (k + w.length)) = .ok v := by
    have := readStr_drop (n := w.length) h (by simp)
    rwa [drop_drop, drop_left] at this
  have hget : (st.mem b)[k + w.length]? = ((st.mem b).drop (k + w.length))[0]? := by
    rw [getElem?_drop, Nat.add_zero]
  unfold setLasts
  cases v with
  | nil =>
    obtain ⟨l, hl⟩ := readStr_eq_nil.mp hq
    rw [hl] at hget
    rw [hget]
    rw [append_nil] at h
    exact ⟨0, _, rfl, h, by simp, rfl, rfl, hq, ⟨fun _ _ _ h => h, fun _ _ => rfl⟩, fun _ _ => .inl rfl⟩
  | cons e v =>
    obtain ⟨l, hl, hl'⟩ := readStr_eq_cons.mp hq
    rw [hl] at hget
    rw [hget]
    refine ⟨1, _, rfl, ?_, by simp, rfl, rfl, ?_, cuts_set _ hget (hv e rfl), fun b' i => ?_⟩
    · have hcut := readStr_cut (n := w.length) h (by simp)
      rw [take_left] at hcut
      simpa [Tok.str, drop_set] using hcut
    · have hdrop : (st.mem b).drop (k + w.length + 1) = l := by
        rw [← drop_drop, hl]
        rfl
      simpa [Tok.str, drop_set_of_lt, hdrop] using hl'
    · dsimp only
      by_cases hi : b' = b ∧ i = k + w.length
      · obtain ⟨rfl, rfl⟩ := hi
        refine .inr ⟨rfl, ?_, w.length, e, rfl, by simp, hv e rfl⟩
        have hlt : k + w.length < (st.mem b').length := (List.getElem?_eq_some_iff.mp hget).1
        simp [hlt]
      refine .inl ?_
      by_cases hb : b' = b
      · subst hb
        rw [update_self, getElem?_set_ne fun e => hi ⟨rfl, e.symm⟩]
      · rw [update_of_ne hb]

/-- **One call of `strtok`** on the string `s`: there is no word left, or it returns a pointer to
the first word `t`, and `lasts` points to the rest `r` of `s`, which has the other words. -/
theorem strtokAt_spec (delim : Str) (st : Tok β) (p : Ptr β) (hs : st.str p = .ok s) :
    (tokens (strchr delim) s = [] ∧ strtokAt st p delim = .ok (none, st)) ∨
    ∃ t r q z st', tokens (strchr delim) s = t :: tokens (strchr delim) r ∧ r.length < s.length ∧
      strtokAt st p delim = .ok (some q, st') ∧ st'.str q = .ok t ∧ st'.lasts = some z ∧
      z.1 = p.1 ∧ st'.str z = .ok r ∧ Cuts delim p.1 st st' ∧ Nulled delim s p st st' ∧
      ∃ i j, q = (p.1, p.2 + i) ∧ z = (p.1, p.2 + j) ∧ i < j ∧ j ≤ s.length ∧ r = s.drop j := by
  obtain ⟨b, k⟩ := p
  have hs : readStr ((st.mem b).drop k) = .ok s := hs
  unfold strtokAt
  cases hd : s.dropWhile (strchr delim) with
  | nil =>
    refine .inl ⟨by rw [← tokens_dropWhile, hd, tokens_nil], ?_⟩
    rw [skipDelims_none hs hd]
    rfl
  | cons c r =>
    have hc : strchr delim c = false := by
      have := head?_dropWhile_not (strchr delim) s
      simpa [hd] using this
    have hs' : s = s.takeWhile (strchr delim) ++ c :: r := by
      rw [← hd, takeWhile_append_dropWhile]
    rw [skipDelims_some hs (by simp [hd])]
    generalize s.takeWhile (strchr delim) = pre at hs'
    -- `s` is delimiters, then the word `w`, then `v`
    let w := c :: r.takeWhile fun c => !strchr delim c
    let v := r.dropWhile fun c => !strchr delim c
    have hwv : c :: r = w ++ v := by simp [w, v, takeWhile_append_dropWhile]
    have h₁ : readStr ((st.mem b).drop (k + pre.length)) = .ok (w ++ v) := by
      have h := readStr_drop (n := pre.length) hs (by simp [hs'])
      rwa [drop_drop, hs', drop_left, hwv] at h
    have hcspn : strcspn delim ((st.mem b).drop (k + pre.length)) = .ok w.length := by
      rw [strcspn_eq h₁, ← hwv, takeWhile_cons_of_pos (by simp [hc])]
    have hv : ∀ e ∈ v.head?, strchr delim e = true := fun e he => by
      have := head?_dropWhile_not (fun c => !strchr delim c) r
      rw [Option.mem_def.mp he] at this
      simpa using this
    obtain ⟨e, st', hset, ht, he, htail, hl, hz, hk, hn⟩ := setLasts_spec delim h₁ hv
    have hlen : s.length = pre.length + w.length + v.length := by
      rw [hs', hwv, length_append, length_append, Nat.add_assoc]
    have hdrop : s.drop (pre.length + w.length + e) = v.tail := by
      rw [Nat.add_assoc, ← drop_drop, hs', drop_left, hwv, ← drop_drop, drop_left, htail]
    have hpos : 0 < w.length := by simp [w]
    refine .inr ⟨w, v.tail, (b, k + pre.length), _, st', ?_, ?_, ?_, ht, hl, rfl, hz, hk, ?_,
      pre.length, pre.length + w.length + e, rfl, ?_, by omega, by omega, hdrop.symm⟩
    · rw [← tokens_dropWhile, hd, tokens_cons hc]
    · rw [length_tail]; omega
    · simp only [Res.ok_bind, hcspn, hset]
      rfl
    · refine Nulled.trans (j := pre.length) (fun _ _ => .inl rfl) ?_
      rwa [hs', drop_left, hwv]
    · simp only [Nat.add_assoc]

end Buffers

end Xv6
