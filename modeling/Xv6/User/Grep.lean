import Xv6.Container.CString
import Mathlib.Data.List.Flatten

/-!
# User — Grep

`grep.c`: the matcher, and the loop that reads and prints lines.

A pattern is read as a list of items: a character with a star, a `$` at the end, or a character.  An
item denotes words, in the case of `$` depending on the text after the word, and a list of items
denotes their concatenations (`Denotes`).

* `match_iff`: `match` finds a word that the pattern denotes, at the start of the text if the pattern
  starts with `^` and anywhere if not.
* `grep_iff`: `grep` prints the lines that match, for every pattern, if and only if each `read`
  returns a newline; a buffer without one is dropped (`grep_drops`).
-/

namespace Xv6.Grep

def caret : Chr := ⟨94, by decide⟩

def star : Chr := ⟨42, by decide⟩

def dollar : Chr := ⟨36, by decide⟩

theorem period_ne : (46 : UInt8) ≠ 0 := by decide

def period : Chr := ⟨46, period_ne⟩

theorem newline_ne : (10 : UInt8) ≠ 0 := by decide

def newline : Chr := ⟨10, newline_ne⟩

/-! ### The matcher -/

mutual

/-- `matchhere(re, text)`. -/
def matchhere (re text : Str) : Bool :=
  match re with
  | [] => true
  | c :: re =>
    if re.head? = some star then matchstar c re.tail text
    else if c = dollar ∧ re = [] then decide (text = [])
    else match text with
      | [] => false
      | t :: text => if c = period ∨ c = t then matchhere re text else false
termination_by (re.length, text.length, 0)

/-- `matchstar(c, re, text)`. -/
def matchstar (c : Chr) (re text : Str) : Bool :=
  if matchhere re text then true
  else match text with
    | [] => false
    | t :: text => if c = t ∨ c = period then matchstar c re text else false
termination_by (re.length, text.length, 1)

end

/-- The loop of `match`. -/
def matchLoop (re : Str) : Str → Bool
  | [] => matchhere re []
  | t :: text => if matchhere re (t :: text) then true else matchLoop re text

/-- `match(re, text)`. -/
def matchText (re text : Str) : Bool :=
  if re.head? = some caret then matchhere re.tail text else matchLoop re text

/-! ### Patterns -/

/-- What a pattern is made of. -/
inductive Item where
  | repeated (c : Chr)
  | textEnd
  | char (c : Chr)

/-- The items of a pattern without `^`. -/
def items : Str → List Item
  | [] => []
  | c :: re =>
    if re.head? = some star then .repeated c :: items re.tail
    else if c = dollar ∧ re = [] then [.textEnd]
    else .char c :: items re
termination_by re => re.length

/-- The character `c` of a pattern stands for `a`. -/
def StandsFor (c a : Chr) : Prop := c = period ∨ c = a

/-- The words of an item, before the text `after`. -/
def Item.Denotes : Item → (word after : Str) → Prop
  | .repeated c, word, _ => ∀ a ∈ word, StandsFor c a
  | .textEnd, word, after => word = [] ∧ after = []
  | .char c, word, _ => ∃ a, word = [a] ∧ StandsFor c a

/-- The words of a list of items. -/
def Denotes : List Item → (word after : Str) → Prop
  | [], word, _ => word = []
  | i :: is, word, after =>
    ∃ w₁ w₂, word = w₁ ++ w₂ ∧ i.Denotes w₁ (w₂ ++ after) ∧ Denotes is w₂ after

/-- The text begins with a word of the items. -/
def Begins (is : List Item) (text : Str) : Prop :=
  ∃ word after, text = word ++ after ∧ Denotes is word after

variable {i : Item} {is : List Item} {c : Chr} {re text : Str}

theorem begins_nil : Begins [] text := ⟨[], text, rfl, rfl⟩

theorem begins_cons : Begins (i :: is) text ↔
    ∃ word rest, text = word ++ rest ∧ i.Denotes word rest ∧ Begins is rest := by
  constructor
  · rintro ⟨_, after, rfl, w₁, w₂, rfl, hi, his⟩
    exact ⟨w₁, w₂ ++ after, List.append_assoc .., hi, w₂, after, rfl, his⟩
  · rintro ⟨w₁, _, rfl, hi, w₂, after, rfl, his⟩
    exact ⟨w₁ ++ w₂, after, (List.append_assoc ..).symm, w₁, w₂, rfl, hi, his⟩

theorem begins_textEnd : Begins [.textEnd] text ↔ text = [] := by
  rw [begins_cons]
  constructor
  · rintro ⟨_, _, rfl, ⟨rfl, rfl⟩, -⟩
    rfl
  · rintro rfl
    exact ⟨[], [], rfl, ⟨rfl, rfl⟩, begins_nil⟩

theorem begins_char : Begins (.char c :: is) text ↔
    ∃ a rest, text = a :: rest ∧ StandsFor c a ∧ Begins is rest := by
  rw [begins_cons]
  constructor
  · rintro ⟨_, rest, rfl, ⟨a, rfl, ha⟩, h⟩
    exact ⟨a, rest, rfl, ha, h⟩
  · rintro ⟨a, rest, rfl, ha, h⟩
    exact ⟨[a], rest, rfl, ⟨a, rfl, ha⟩, h⟩

/-- A starred character stands for nothing, or for one character and then again. -/
theorem begins_repeated : Begins (.repeated c :: is) text ↔ Begins is text ∨
    ∃ a rest, text = a :: rest ∧ StandsFor c a ∧ Begins (.repeated c :: is) rest := by
  simp only [begins_cons (i := .repeated c)]
  constructor
  · rintro ⟨word, rest, rfl, hw, h⟩
    cases word with
    | nil => exact .inl h
    | cons a word =>
      obtain ⟨ha, hw⟩ := List.forall_mem_cons.mp hw
      exact .inr ⟨a, word ++ rest, rfl, ha, word, rest, rfl, hw, h⟩
  · rintro (h | ⟨a, _, rfl, ha, word, rest, rfl, hw, h⟩)
    · exact ⟨[], text, rfl, by simp [Item.Denotes], h⟩
    · exact ⟨a :: word, rest, rfl, List.forall_mem_cons.mpr ⟨ha, hw⟩, h⟩

/-- `matchstar` tries all the numbers of repetitions that the text has. -/
theorem matchstar_iff (h : ∀ text, matchhere re text = true ↔ Begins (items re) text) :
    matchstar c re text = true ↔ Begins (.repeated c :: items re) text := by
  induction text with
  | nil =>
    rw [matchstar, begins_repeated, ← h]
    simp
  | cons t text ih =>
    rw [matchstar, begins_repeated, ← h]
    simp [StandsFor, or_comm, ih]

/-- **`matchhere`** decides whether the text begins with a word of the pattern. -/
theorem matchhere_iff : ∀ re text, matchhere re text = true ↔ Begins (items re) text
  | [], text => by
    rw [matchhere, items]
    exact iff_of_true rfl begins_nil
  | c :: re, text => by
    rw [matchhere.eq_def, items]
    dsimp only
    split
    · exact matchstar_iff (matchhere_iff re.tail)
    split
    · rw [begins_textEnd, decide_eq_true_iff]
    rw [begins_char]
    cases text with
    | nil => simp
    | cons t text => simp [StandsFor, matchhere_iff re text]
termination_by re => re.length

theorem matchLoop_iff : matchLoop re text = true ↔
    ∃ before rest, text = before ++ rest ∧ Begins (items re) rest := by
  induction text with
  | nil =>
    rw [matchLoop, matchhere_iff]
    simp
  | cons t text ih =>
    simp only [matchLoop, Bool.if_true_left, Bool.or_eq_true, decide_eq_true_eq, matchhere_iff, ih]
    constructor
    · rintro (h | ⟨before, rest, rfl, h⟩)
      · exact ⟨[], _, rfl, h⟩
      · exact ⟨t :: before, rest, rfl, h⟩
    · rintro ⟨before, rest, e, h⟩
      cases before with
      | nil => exact .inl (e ▸ h)
      | cons a before =>
        cases e
        exact .inr ⟨before, rest, rfl, h⟩

/-- **The matcher decides the language of patterns.** -/
theorem match_iff (re text : Str) : matchText re text = true ↔
    if re.head? = some caret then Begins (items re.tail) text
    else ∃ before rest, text = before ++ rest ∧ Begins (items re) rest := by
  unfold matchText
  split
  · exact matchhere_iff _ _
  · exact matchLoop_iff

/-! ### Lines -/

/-- The loop over the lines of the string `p`: what is written, and where `p` is left. -/
def lines (pattern p : Str) : Str × Str :=
  match _h : p.dropWhile (· ≠ newline) with
  | [] => ([], p)
  | _ :: rest =>
    let line := p.takeWhile (· ≠ newline)
    let (out, p) := lines pattern rest
    ((if matchText pattern line then line ++ [newline] else []) ++ out, p)
termination_by p.length
decreasing_by
  have := (List.dropWhile_suffix (l := p) (· ≠ newline)).length_le
  rw [_h, List.length_cons] at this
  omega

/-- `sizeof(buf)`. -/
def BUFSIZE : Nat := 1024

/-- The loop of `grep`, with the `m` bytes that `buf` holds and what `read` is going to return.  A
`read` of 0 bytes returns 0. -/
def grepLoop (pattern : Str) : (buf : Str) → (reads : List Str) → Str
  | _, [] => []
  | buf, piece :: reads =>
    if buf.length < BUFSIZE - 1 then
      let (out, p) := lines pattern (buf ++ piece)
      -- `if (p == buf) m = 0`
      out ++ grepLoop pattern (if p = buf ++ piece then [] else p) reads
    else []

/-- `grep(pattern, fd)`: what it writes. -/
def grep (pattern : Str) (reads : List Str) : Str := grepLoop pattern [] reads

/-- The text with the given lines. -/
def unlines (ls : List Str) : Str := ls.flatMap (· ++ [newline])

variable {pattern s t buf line : Str} {ls reads : List Str}

theorem takeWhile_line (h : newline ∉ line) (s : Str) :
    (line ++ s).takeWhile (· ≠ newline) = line ++ s.takeWhile (· ≠ newline) :=
  List.takeWhile_append_of_pos fun c hc => by simpa using fun e : c = newline => h (e ▸ hc)

theorem dropWhile_line (h : newline ∉ line) (s : Str) :
    (line ++ s).dropWhile (· ≠ newline) = s.dropWhile (· ≠ newline) :=
  List.dropWhile_append_of_pos fun c hc => by simpa using fun e : c = newline => h (e ▸ hc)

theorem lines_none (h : newline ∉ s) : lines pattern s = ([], s) := by
  have hd := dropWhile_line h []
  rw [List.append_nil] at hd
  rw [lines.eq_def]
  split
  · rfl
  · next h => rw [hd] at h; cases h

theorem lines_line (h : newline ∉ line) (rest : Str) : lines pattern (line ++ newline :: rest) =
    ((if matchText pattern line then line ++ [newline] else []) ++ (lines pattern rest).1,
      (lines pattern rest).2) := by
  have ht := takeWhile_line h (newline :: rest)
  have hd := dropWhile_line h (newline :: rest)
  rw [List.takeWhile_cons_of_neg (by simp), List.append_nil] at ht
  rw [List.dropWhile_cons_of_neg (by simp)] at hd
  rw [lines.eq_def, ht]
  split
  · next h => rw [hd] at h; cases h
  next h =>
  rw [hd] at h
  cases h
  rfl

/-- The loop stops behind the last newline, and writes no more than it has read. -/
theorem lines_rest (pattern s : Str) : newline ∉ (lines pattern s).2 ∧
    (lines pattern s).1.length + (lines pattern s).2.length ≤ s.length := by
  by_cases h : newline ∈ s
  · obtain ⟨line, rest, rfl, hline⟩ := List.eq_append_cons_of_mem h
    obtain ⟨hr, hle⟩ := lines_rest pattern rest
    rw [lines_line hline]
    refine ⟨hr, ?_⟩
    simp only [List.length_append, List.length_cons]
    split
    · simp only [List.length_append, List.length_singleton]
      omega
    · simp only [List.length_nil]
      omega
  · rw [lines_none h]
    exact ⟨h, by simp⟩
termination_by s.length
decreasing_by simp [*]; omega

/-- The start `s` of a text, up to a newline at most, is in the first line. -/
theorem line_of_prefix (hs : s ++ t = unlines ls) (h : newline ∉ s) (hl : ∀ l ∈ ls, newline ∉ l) :
    s ++ t = [] ∨ ∃ l ∈ ls, s ++ t.takeWhile (· ≠ newline) = l := by
  cases ls with
  | nil => exact .inl hs
  | cons l ls =>
    refine .inr ⟨l, by simp, ?_⟩
    rw [← takeWhile_line h, hs, unlines, List.flatMap_cons, List.append_assoc,
      takeWhile_line (hl l (by simp))]
    simp

/-- The loop on the start `s` of a text takes whole lines, and leaves the start of the next one. -/
theorem lines_unlines (pattern : Str) (hl : ∀ l ∈ ls, newline ∉ l) (hs : s ++ t = unlines ls) :
    ∃ ls₁ ls₂, ls = ls₁ ++ ls₂ ∧ (lines pattern s).2 ++ t = unlines ls₂ ∧
      (lines pattern s).1 = unlines (ls₁.filter (matchText pattern)) := by
  induction ls generalizing s with
  | nil =>
    obtain ⟨rfl, rfl⟩ := List.append_eq_nil_iff.mp hs
    rw [lines_none (by simp)]
    exact ⟨[], [], rfl, rfl, rfl⟩
  | cons l ls ih =>
    obtain ⟨hl₀, hls⟩ := List.forall_mem_cons.mp hl
    by_cases h : newline ∈ s
    · obtain ⟨line, rest, rfl, hline⟩ := List.eq_append_cons_of_mem h
      rw [unlines, List.flatMap_cons, List.append_assoc, List.append_assoc] at hs
      have ht := congrArg (List.takeWhile (· ≠ newline)) hs
      rw [takeWhile_line hline, takeWhile_line hl₀] at ht
      obtain rfl : line = l := by simpa using ht
      obtain ⟨ls₁, ls₂, rfl, hr, hout⟩ := ih hls (List.cons.inj (List.append_cancel_left hs)).2
      rw [lines_line hline]
      refine ⟨line :: ls₁, ls₂, rfl, hr, ?_⟩
      rw [hout, List.filter_cons]
      split <;> simp [unlines]
    · rw [lines_none h]
      exact ⟨[], l :: ls, rfl, hs, rfl⟩

/-! ### The loop of `grep` -/

/-- If every `read` returns a newline, no line is lost. -/
theorem grepLoop_eq (hl : ∀ l ∈ ls, newline ∉ l ∧ l.length < BUFSIZE - 1)
    (hs : buf ++ reads.flatten = unlines ls) (hb : newline ∉ buf) (hr : ∀ x ∈ reads, newline ∈ x) :
    grepLoop pattern buf reads = unlines (ls.filter (matchText pattern)) := by
  induction reads generalizing buf ls with
  | nil =>
    cases ls with
    | nil => rfl
    | cons l ls =>
      simp only [List.flatten_nil, List.append_nil] at hs
      rw [hs] at hb
      simp [unlines] at hb
  | cons x reads ih =>
    obtain ⟨hx, hr⟩ := List.forall_mem_cons.mp hr
    have hshort : buf.length < BUFSIZE - 1 := by
      rcases line_of_prefix hs hb fun l h => (hl l h).1 with h | ⟨l, h, rfl⟩
      · rw [(List.append_eq_nil_iff.mp h).1]
        decide
      · have := (hl _ h).2
        rw [List.length_append] at this
        omega
    rw [List.flatten_cons, ← List.append_assoc] at hs
    obtain ⟨ls₁, ls₂, rfl, hs₂, hout⟩ :=
      lines_unlines pattern (fun l h => (hl l h).1) hs
    have hrest := (lines_rest pattern (buf ++ x)).1
    have hne : (lines pattern (buf ++ x)).2 ≠ buf ++ x := fun e => by
      rw [e] at hrest
      exact hrest (List.mem_append_right _ hx)
    rw [grepLoop, if_pos hshort]
    simp only [if_neg hne]
    rw [hout, ih (fun l h => hl l (by simp [h])) hs₂ hrest hr]
    simp [unlines]

/-- A `read` without a newline is lost. -/
theorem grepLoop_length (pattern : Str) (hb : newline ∉ buf) (reads : List Str) :
    (grepLoop pattern buf reads).length + (reads.filter (newline ∉ ·)).flatten.length ≤
      buf.length + reads.flatten.length := by
  induction reads generalizing buf with
  | nil => simp [grepLoop]
  | cons x reads ih =>
    rw [grepLoop]
    split
    · obtain ⟨hrest, hle⟩ := lines_rest pattern (buf ++ x)
      simp only [List.length_append, List.flatten_cons] at hle ⊢
      by_cases h : newline ∈ x
      · have hne : (lines pattern (buf ++ x)).2 ≠ buf ++ x := fun e => by
          rw [e] at hrest
          exact hrest (List.mem_append_right _ h)
        have := ih hrest
        rw [if_neg hne, List.filter_cons_of_neg (by simpa using h)]
        omega
      · have := ih List.not_mem_nil
        rw [lines_none (by simp [hb, h]), List.filter_cons_of_pos (by simpa using h)]
        simp only [if_true, List.flatten_cons, List.length_append, List.length_nil] at this ⊢
        omega
    · have := (List.filter_sublist (p := (newline ∉ ·)) (l := x :: reads)).flatten.length_le
      simp only [List.length_nil]
      omega

theorem matchText_nil (text : Str) : matchText [] text = true := by
  cases text <;> simp [matchText, matchLoop, matchhere]

/-- **The lines that match are printed**, for every pattern, if and only if every `read` returns a
newline. -/
theorem grep_iff (hl : ∀ l ∈ ls, newline ∉ l ∧ l.length < BUFSIZE - 1)
    (hne : ∀ x ∈ reads, x ≠ []) (hs : reads.flatten = unlines ls) :
    (∀ pattern, grep pattern reads = unlines (ls.filter (matchText pattern))) ↔
      ∀ x ∈ reads, newline ∈ x := by
  constructor
  · intro h x hx
    by_contra hn
    have hle := grepLoop_length [] List.not_mem_nil reads
    have h := h []
    rw [grep, List.filter_eq_self.mpr fun l _ => matchText_nil l, ← hs] at h
    rw [h] at hle
    have hlost : (reads.filter (newline ∉ ·)).flatten = [] :=
      List.eq_nil_of_length_eq_zero (by simpa using hle)
    exact hne x hx (List.flatten_eq_nil_iff.mp hlost x (List.mem_filter.mpr ⟨hx, by simpa using hn⟩))
  · exact fun hr pattern => grepLoop_eq hl hs (by simp) hr

/-- The line "a", read in one piece. -/
theorem grep_iff_one : (∀ x ∈ [[chrA, newline]], newline ∈ x) ∧
    ∀ pattern, grep pattern [[chrA, newline]] = unlines ([[chrA]].filter (matchText pattern)) := by
  have hl : ∀ l ∈ [[chrA]], newline ∉ l ∧ l.length < BUFSIZE - 1 := by decide
  exact ⟨by decide, (grep_iff hl (by decide) rfl).mpr (by decide)⟩

/-- **Half a line is dropped**: the line "a" is read in two pieces, and the "a" is not printed. -/
theorem grep_drops : grep [] [[chrA], [newline]] = [newline] ∧
    grep [] [[chrA, newline]] = [chrA, newline] := by
  have h : lines [] [newline] = ([newline], []) := by
    rw [← List.nil_append [newline], lines_line (by simp), lines_none (by simp), matchText_nil]
    rfl
  have h' : lines [] [chrA, newline] = ([chrA, newline], []) := by
    rw [← List.singleton_append, lines_line (by decide), lines_none (by simp), matchText_nil]
    rfl
  constructor
  · simp [grep, grepLoop, lines_none (show newline ∉ [chrA] by decide), h, BUFSIZE]
  · simp [grep, grepLoop, h', BUFSIZE]

end Xv6.Grep
