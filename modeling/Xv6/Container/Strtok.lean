import Xv6.Container.CString

/-!
# Container — Strtok

All calls of `strtok` on one string, without another call in between: `strtok(s, delim)`, and then
`strtok(0, delim)` until it returns 0.  They return pointers to the words of `s`, in their order,
each word ending with a NUL at its place in `s`, and all they write is NULs over delimiters of `s`
(`strtok_words`).
-/

namespace Xv6

open Lib

variable {β : Type} [DecidableEq β] {delim s : Str} {p q : Ptr β} {st : Tok β} {fuel : Nat}

/-- The pointers that the calls return, up to the first 0. -/
def strtokCalls (delim : Str) : Nat → Tok β → Option (Ptr β) → Res (List (Ptr β) × Tok β)
  | 0, _, _ => .error (.fault "strtok has not returned 0 yet")
  | fuel + 1, st, s => do
    match ← strtok st s delim with
    | (none, st) => return ([], st)
    | (some q, st) =>
      let (qs, st) ← strtokCalls delim fuel st none
      return (q :: qs, st)

theorem strtokCalls_null (h : st.lasts = some p) :
    strtokCalls delim fuel st none = strtokCalls delim fuel st (some p) := by
  cases fuel with
  | zero => rfl
  | succ fuel => simp only [strtokCalls, strtok, h]

/-- What the calls on the string `s` at `p` return, and leave in `st'`. -/
structure Words (delim s : Str) (p : Ptr β) (st st' : Tok β) (qs : List (Ptr β)) : Prop where
  words : qs.map st'.str = (tokens (strchr delim) s).map .ok
  order : qs.Pairwise (·.2 < ·.2)
  inside : ∀ q ∈ qs, q.1 = p.1 ∧ p.2 ≤ q.2 ∧ q.2 < p.2 + s.length
  nulled : Nulled delim s p st st'

/-- **`strtok` splits a string.** -/
theorem strtok_words (delim s : Str) (st : Tok β) (p : Ptr β) (hs : st.str p = .ok s) :
    ∃ qs st', (∀ fuel > s.length, strtokCalls delim fuel st (some p) = .ok (qs, st')) ∧
      Cuts delim p.1 st st' ∧ Words delim s p st st' qs := by
  -- the string that is left gets shorter with each call
  induction hn : s.length using Nat.strong_induction_on generalizing s st p with
  | _ n ih =>
    subst hn
    rcases strtokAt_spec delim st p hs with ⟨ht, hc⟩ |
      ⟨t, r, q, z, st₁, ht, hlen, hc, hq, hl, -, hz, hcut, hnull, i, j, rfl, rfl, hij, hj, rfl⟩
    · refine ⟨[], st, fun fuel hf => ?_, .refl _ _ _, by simp [ht], .nil, by simp,
        fun _ _ => .inl rfl⟩
      obtain ⟨fuel, rfl⟩ := Nat.exists_eq_add_one_of_ne_zero (Nat.ne_zero_of_lt hf)
      rw [strtokCalls, strtok, hc]
      rfl
    · obtain ⟨qs, st', hcalls, hcut', hw⟩ := ih _ hlen _ st₁ _ hz rfl
      have hword : ∀ c ∈ t, strchr delim c = false :=
        (word_of_mem (ht ▸ List.mem_cons_self : t ∈ tokens (strchr delim) s)).clean
      rw [List.length_drop] at hcalls hlen
      refine ⟨(p.1, p.2 + i) :: qs, st', fun fuel hf => ?_, hcut.trans hcut', ?_, ?_, ?_, ?_⟩
      · obtain ⟨fuel, rfl⟩ := Nat.exists_eq_add_one_of_ne_zero (Nat.ne_zero_of_lt hf)
        rw [strtokCalls, strtok, hc]
        simp only [Res.ok_bind]
        rw [strtokCalls_null hl, hcalls fuel (by omega)]
        rfl
      · rw [ht, List.map_cons, List.map_cons, hw.words, hcut'.str _ t hword hq]
      · refine List.pairwise_cons.mpr ⟨fun q' hq' => ?_, hw.order⟩
        have := (hw.inside q' hq').2.1
        dsimp only at this ⊢
        omega
      · intro q' hq'
        rcases List.mem_cons.mp hq' with rfl | hq'
        · exact ⟨rfl, by omega, by dsimp only; omega⟩
        obtain ⟨hb, hle, hlt⟩ := hw.inside q' hq'
        rw [List.length_drop] at hlt
        dsimp only at hle hlt
        exact ⟨hb, by omega, by omega⟩
      · exact hnull.trans hw.nulled

/-- The one word of "/a". -/
theorem strtok_words_one : ∃ qs st', (∀ fuel > 2, strtokCalls [slash] fuel
      ⟨fun _ : Unit => Str.bytes [slash, chrA], none⟩ (some ((), 0)) = .ok (qs, st')) ∧
    Cuts [slash] () ⟨fun _ => Str.bytes [slash, chrA], none⟩ st' ∧
    Words [slash] [slash, chrA] ((), 0) ⟨fun _ => Str.bytes [slash, chrA], none⟩ st' qs :=
  strtok_words [slash] [slash, chrA] ⟨fun _ => Str.bytes [slash, chrA], none⟩ ((), 0)
    (readStr_bytes _)

end Xv6
