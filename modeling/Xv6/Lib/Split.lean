import Mathlib.Data.List.Basic
import Mathlib.Data.List.Infix
import Mathlib.Data.List.TakeWhile

/-!
# Lib — Split

Words separated by delimiters.  `tokens d s` is the list of the maximal non-empty segments of `s`
without a delimiter; `glue c ts` puts the delimiter `c` after each word of `ts`.  Splitting undoes
glueing (`tokens_glue`), and among glued lists the prefix order of characters is the prefix order
of words (`prefix_of_glue`).
-/

namespace Xv6.Lib

open List

variable {α : Type*} {d : α → Bool} {c : α} {s t : List α} {ts us : List (List α)}

/-- A non-empty list without delimiters. -/
structure Word (d : α → Bool) (t : List α) : Prop where
  ne_nil : t ≠ []
  clean : ∀ c ∈ t, d c = false

/-- The words of `s`. -/
def tokens (d : α → Bool) (s : List α) : List (List α) :=
  (s.splitOnP d).filter fun t => !t.isEmpty

/-- The words `ts`, each followed by `c`. -/
def glue (c : α) (ts : List (List α)) : List α := ts.flatMap fun t => t ++ [c]

@[simp] theorem tokens_nil (d : α → Bool) : tokens d [] = [] := rfl

theorem tokens_delim (h : d c = true) : tokens d (c :: s) = tokens d s := by
  simp [tokens, splitOnP_cons_eq_if_modifyHead, h]

theorem Word.tokens (h : Word d t) : tokens d t = [t] := by
  have hs : t.splitOnP d = [t] := splitOnP_eq_singleton (by simpa using h.clean)
  simp [Lib.tokens, hs, h.ne_nil]

theorem Word.tokens_append (h : Word d t) (hc : d c = true) (s : List α) :
    Lib.tokens d (t ++ c :: s) = t :: Lib.tokens d s := by
  have hs : (t ++ c :: s).splitOnP d = t :: s.splitOnP d :=
    splitOnP_append_cons_of_forall_mem (by simpa using h.clean) _ hc _
  simp [Lib.tokens, hs, h.ne_nil]

theorem word_takeWhile (h : d c = false) : Word d (c :: s.takeWhile fun x => !d x) := by
  refine ⟨by simp, fun x hx => ?_⟩
  rcases mem_cons.mp hx with rfl | hx
  · exact h
  · simpa using mem_takeWhile_imp hx

/-- The first word of a list that does not start with a delimiter, and the words after the
delimiter that ends it. -/
theorem tokens_cons (h : d c = false) : tokens d (c :: s) =
    (c :: s.takeWhile fun x => !d x) :: tokens d (s.dropWhile fun x => !d x).tail := by
  have hw := word_takeWhile (s := s) h
  have hs : c :: s = (c :: s.takeWhile fun x => !d x) ++ s.dropWhile fun x => !d x := by
    simp [takeWhile_append_dropWhile]
  cases hr : s.dropWhile fun x => !d x with
  | nil =>
    rw [hr, append_nil] at hs
    rw [tail_nil, tokens_nil, ← hw.tokens, ← hs]
  | cons e r =>
    have he : d e = true := by
      have := head?_dropWhile_not (fun x => !d x) s
      simpa [hr] using this
    rw [hr] at hs
    rw [tail_cons, ← hw.tokens_append he, ← hs]

/-- Induction along the words of a list. -/
theorem tokens_induct {P : List α → Prop} (nil : P [])
    (delim : ∀ c s, d c = true → P s → P (c :: s))
    (word : ∀ c s, d c = false → P (s.dropWhile fun x => !d x).tail → P (c :: s)) (s : List α) :
    P s := by
  induction hn : s.length using Nat.strong_induction_on generalizing s with
  | _ n ih =>
    cases s with
    | nil => exact nil
    | cons c s =>
      subst hn
      cases hc : d c with
      | true => exact delim c s hc (ih _ (by simp) s rfl)
      | false =>
        have hle := (dropWhile_suffix (fun x => !d x) (l := s)).length_le
        exact word c s hc (ih _ (by simp; omega) _ rfl)

theorem word_of_mem (h : t ∈ tokens d s) : Word d t := by
  induction s using tokens_induct (d := d) with
  | nil => simp at h
  | delim c s hc ih => exact ih (tokens_delim hc ▸ h)
  | word c s hc ih =>
    rw [tokens_cons hc] at h
    rcases mem_cons.mp h with rfl | h
    · exact word_takeWhile hc
    · exact ih h

theorem tokens_dropWhile (d : α → Bool) (s : List α) : tokens d (s.dropWhile d) = tokens d s := by
  induction s with
  | nil => rfl
  | cons c s ih =>
    cases hc : d c with
    | true => rw [dropWhile_cons_of_pos hc, ih, tokens_delim hc]
    | false => rw [dropWhile_cons_of_neg (by simp [hc])]

theorem tokens_length (d : α → Bool) (s : List α) : 2 * (tokens d s).length ≤ s.length + 1 := by
  induction s using tokens_induct (d := d) with
  | nil => simp
  | delim c s hc ih =>
    rw [tokens_delim hc, length_cons]
    omega
  | word c s hc ih =>
    rw [tokens_cons hc, length_cons, length_cons]
    have hle := (dropWhile_suffix (fun x => !d x) (l := s)).length_le
    cases hr : s.dropWhile fun x => !d x with
    | nil => simp
    | cons e r =>
      rw [hr] at ih hle
      rw [tail_cons] at ih ⊢
      rw [length_cons] at hle
      omega

/-- A long word leaves room for fewer others. -/
theorem tokens_length_add (h : t ∈ tokens d s) :
    2 * (tokens d s).length + t.length ≤ s.length + 2 := by
  induction s using tokens_induct (d := d) with
  | nil => simp at h
  | delim c s hc ih =>
    rw [tokens_delim hc] at h ⊢
    have hle := ih h
    rw [length_cons]
    omega
  | word c s hc ih =>
    rw [tokens_cons hc] at h ⊢
    have hsum : (s.takeWhile fun x => !d x).length + (s.dropWhile fun x => !d x).length =
        s.length := by
      rw [← length_append, takeWhile_append_dropWhile]
    have hlen := tokens_length d (s.dropWhile fun x => !d x).tail
    have htail : ∀ u ∈ tokens d (s.dropWhile fun x => !d x).tail,
        (s.dropWhile fun x => !d x) ≠ [] := by
      intro u hu he
      rw [he] at hu
      simp at hu
    rw [length_tail] at hlen
    simp only [length_cons]
    rcases mem_cons.mp h with rfl | h
    · rw [length_cons]
      cases hr : tokens d (s.dropWhile fun x => !d x).tail with
      | nil => rw [length_nil]; omega
      | cons u us =>
        have hpos := length_pos_iff.mpr (htail u (by rw [hr]; exact mem_cons_self))
        rw [hr] at hlen
        omega
    · have hle := ih h
      have hpos := length_pos_iff.mpr (htail t h)
      rw [length_tail] at hle
      omega

@[simp] theorem glue_cons (c : α) (t : List α) (ts : List (List α)) :
    glue c (t :: ts) = t ++ c :: glue c ts := by
  simp [glue]

theorem glue_append (c : α) (ts us : List (List α)) : glue c (ts ++ us) = glue c ts ++ glue c us := by
  simp [glue]

/-- Splitting undoes glueing. -/
theorem tokens_glue_append (hc : d c = true) (h : ∀ t ∈ ts, Word d t) (s : List α) :
    tokens d (glue c ts ++ s) = ts ++ tokens d s := by
  induction ts with
  | nil => rfl
  | cons t ts ih =>
    rw [glue_cons, append_assoc, cons_append, (h t mem_cons_self).tokens_append hc, cons_append,
      ih fun u hu => h u (mem_cons_of_mem _ hu)]

theorem tokens_glue (hc : d c = true) (h : ∀ t ∈ ts, Word d t) : tokens d (glue c ts) = ts := by
  simpa using tokens_glue_append hc h []

/-- **A prefix in characters is a prefix in words.** -/
theorem prefix_of_glue (hc : d c = true) (hts : ∀ t ∈ ts, Word d t) (hus : ∀ t ∈ us, Word d t)
    (h : glue c ts <+: glue c us) : ts <+: us := by
  obtain ⟨r, hr⟩ := h
  refine ⟨tokens d r, ?_⟩
  rw [← tokens_glue_append hc hts, hr, tokens_glue hc hus]

end Xv6.Lib
