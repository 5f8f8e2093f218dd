import Xv6.Shell.Grammar

/-!
# Shell — Tokens

`gettoken` and `peek` on the tokens of the input.  `At inp s ts` says that the text from the cursor
`s` on is made of the tokens `ts`; `peek` looks at the first of them (`peek_spec`), and `gettoken`
takes it away (`gettoken_nil`, `gettoken_sym`, `gettoken_word`).  The pointers that `gettoken`
returns for a word delimit its text, and the character after it is none of a word (`Span`).
-/

namespace Xv6.Shell

open List

variable {inp t w t' : Str} {s : Nat} {ts : List Token} {c : Chr} {o : Sym}

/-- The text from `s` on is made of the tokens `ts`. -/
structure At (inp : Str) (s : Nat) (ts : List Token) : Prop where
  le : s ≤ inp.length
  spells : Spells ts (inp.drop s)

/-- The pointers `q` and `eq` delimit the word `w`. -/
structure Span (inp : Str) (q eq : Nat) (w : Str) : Prop where
  text : w <+: inp.drop q
  eq_add : eq = q + w.length
  words : ∀ c ∈ w, isWord c = true
  stop : ∀ c ∈ inp[eq]?, isWord c = false
  le : eq ≤ inp.length

/-! ### Characters -/

theorem isSpace_of_isWord (h : isWord c = true) : isSpace c = false := by
  unfold isWord at h
  unfold isSpace
  simp only [Bool.and_eq_true, Bool.not_eq_true'] at h
  exact h.1

theorem notMem_symbols (h : isWord c = true) : c ∉ symbols := by
  unfold isWord at h
  simp only [Bool.and_eq_true, Bool.not_eq_true', strchr] at h
  intro hc
  have := contains_iff_mem.mpr hc
  rw [h.2] at this
  cases this

theorem strchr_eq_false {toks : Str} (htoks : ∀ x ∈ toks, x ∈ symbols) (h : isWord c = true) :
    strchr toks c = false := by
  rw [Bool.eq_false_iff]
  intro hc
  exact notMem_symbols h (htoks c (contains_iff_mem.mp hc))

/-- The first character of a symbol. -/
def Sym.first : Sym → Chr
  | .lt => Shell.lt
  | .gt | .app => Shell.gt
  | .bar => Shell.bar
  | .amp => Shell.amp
  | .semi => Shell.semi
  | .lpar => Shell.lpar
  | .rpar => Shell.rpar

/-- What `gettoken` returns for a symbol. -/
def Sym.code : Sym → UInt8
  | .app => 43
  | o => o.first.1

theorem Sym.text_eq (o : Sym) : ∃ p, o.text = o.first :: p := by
  cases o <;> exact ⟨_, rfl⟩

theorem Sym.not_space (o : Sym) : isSpace o.first = false := by
  cases o <;> decide

/-! ### Whitespace -/

theorem drop_skip (inp : Str) (P : Chr → Bool) (s : Nat) :
    inp.drop (skip inp P s) = (inp.drop s).dropWhile P := by
  unfold skip
  rw [← drop_drop]
  generalize inp.drop s = t
  calc t.drop (t.takeWhile P).length
      = (t.takeWhile P ++ t.dropWhile P).drop (t.takeWhile P).length := by
        rw [takeWhile_append_dropWhile]
    _ = t.dropWhile P := drop_left

theorem skip_le {P : Chr → Bool} (h : s ≤ inp.length) : skip inp P s ≤ inp.length := by
  have hp := (List.takeWhile_prefix P (l := inp.drop s)).length_le
  rw [length_drop] at hp
  unfold skip
  omega

theorem Spells.strip (h : Spells ts t) : Spells ts (t.dropWhile isSpace) := by
  induction h with
  | nil => exact .nil
  | space hc h ih =>
    rw [dropWhile_cons_of_pos hc]
    exact ih
  | @sym _ o t ho h _ =>
    obtain ⟨p, hp⟩ := o.text_eq
    have hd : (o.text ++ t).dropWhile isSpace = o.text ++ t := by
      rw [hp, cons_append, dropWhile_cons_of_neg (by simp [o.not_space])]
    rw [hd]
    exact .sym ho h
  | @word _ w t hne hw hs h _ =>
    obtain ⟨c, w', rfl⟩ := exists_cons_of_ne_nil hne
    have hc := isSpace_of_isWord (hw c mem_cons_self)
    have hd : (c :: w' ++ t).dropWhile isSpace = c :: w' ++ t := by
      rw [cons_append, dropWhile_cons_of_neg (by simp [hc])]
    rw [hd]
    exact .word hne hw hs h

theorem At.strip (h : At inp s ts) : At inp (skip inp isSpace s) ts :=
  ⟨skip_le h.le, by rw [drop_skip]; exact h.spells.strip⟩

/-- The text of a token, after whitespace. -/
theorem Spells.sym_inv (h : Spells (.sym o :: ts) t) :
    ∃ t', t.dropWhile isSpace = o.text ++ t' ∧ (o = .gt → t'.head? ≠ some gt) ∧ Spells ts t' := by
  obtain ⟨p, hp⟩ := o.text_eq
  generalize hts : Token.sym o :: ts = us at h
  induction h with
  | nil => cases hts
  | space hc h ih =>
    rw [dropWhile_cons_of_pos hc]
    exact ih hts
  | @sym _ _ t ho h ih =>
    cases hts
    refine ⟨t, ?_, ho, h⟩
    rw [hp, cons_append, dropWhile_cons_of_neg (by simp [o.not_space])]
  | word => cases hts

theorem Spells.word_inv (h : Spells (.word w :: ts) t) :
    ∃ t', t.dropWhile isSpace = w ++ t' ∧ w ≠ [] ∧ (∀ c ∈ w, isWord c = true) ∧
      (∀ c ∈ t'.head?, isWord c = false) ∧ Spells ts t' := by
  generalize hts : Token.word w :: ts = us at h
  induction h with
  | nil => cases hts
  | space hc h ih =>
    rw [dropWhile_cons_of_pos hc]
    exact ih hts
  | sym => cases hts
  | @word _ _ t hne hw hs h ih =>
    cases hts
    refine ⟨t, ?_, hne, hw, hs, h⟩
    obtain ⟨c, w', rfl⟩ := exists_cons_of_ne_nil hne
    rw [cons_append, dropWhile_cons_of_neg (by simp [isSpace_of_isWord (hw c mem_cons_self)])]

theorem Spells.nil_inv (h : Spells [] t) : t.dropWhile isSpace = [] := by
  generalize hts : ([] : List Token) = us at h
  induction h with
  | nil => rfl
  | space hc h ih =>
    rw [dropWhile_cons_of_pos hc]
    exact ih hts
  | sym => cases hts
  | word => cases hts

/-- A text that starts with a symbol. -/
theorem exists_sym (c : Chr) (t : Str) (hspace : ¬ isSpace c = true) (hword : ¬ isWord c = true) :
    ∃ (o : Sym) (t' : Str), o.text ++ t' = c :: t ∧ (o = .gt → t'.head? ≠ some gt) ∧
      t'.length < (c :: t).length := by
  have hc : c ∈ symbols := by
    unfold isWord at hword
    unfold isSpace at hspace
    simp only [Bool.and_eq_true, Bool.not_eq_true', not_and, Bool.not_eq_false] at hword
    exact contains_iff_mem.mp (hword (by simpa using hspace))
  have hone : ∀ o : Sym, o ≠ .gt → o.text = [c] → ∃ (o : Sym) (t' : Str),
      o.text ++ t' = c :: t ∧ (o = .gt → t'.head? ≠ some gt) ∧ t'.length < (c :: t).length :=
    fun o ho he => ⟨o, t, by rw [he]; rfl, fun e => absurd e ho, by simp⟩
  simp only [symbols, mem_cons, not_mem_nil, or_false] at hc
  rcases hc with rfl | rfl | rfl | rfl | rfl | rfl | rfl
  · exact hone .lt (by decide) rfl
  · exact hone .bar (by decide) rfl
  · by_cases hgt : t.head? = some gt
    · obtain ⟨t', rfl⟩ := head?_eq_some_iff.mp hgt
      exact ⟨.app, t', rfl, fun e => absurd e (by decide), by simp only [length_cons]; omega⟩
    · exact ⟨.gt, t, rfl, fun _ => hgt, by simp⟩
  · exact hone .amp (by decide) rfl
  · exact hone .semi (by decide) rfl
  · exact hone .lpar (by decide) rfl
  · exact hone .rpar (by decide) rfl

/-- Every text is made of tokens. -/
theorem exists_spells (t : Str) : ∃ ts, Spells ts t := by
  induction hn : t.length using Nat.strong_induction_on generalizing t with
  | _ n ih =>
    subst hn
    cases t with
    | nil => exact ⟨[], .nil⟩
    | cons c t =>
      by_cases hspace : isSpace c = true
      · obtain ⟨ts, h⟩ := ih t.length (by simp) t rfl
        exact ⟨ts, .space hspace h⟩
      by_cases hword : isWord c = true
      · obtain ⟨ts, h⟩ := ih (t.dropWhile isWord).length
          (Nat.lt_succ_of_le (dropWhile_suffix isWord).length_le) _ rfl
        refine ⟨.word (c :: t.takeWhile isWord) :: ts, ?_⟩
        rw [show c :: t = c :: t.takeWhile isWord ++ t.dropWhile isWord by
          rw [cons_append, takeWhile_append_dropWhile]]
        refine .word (cons_ne_nil _ _) (fun x hx => ?_) (fun x hx => ?_) h
        · rcases mem_cons.mp hx with rfl | hx
          · exact hword
          · exact mem_takeWhile_imp hx
        · have hx' := head?_dropWhile_not isWord t
          rw [hx] at hx'
          simpa using hx'
      · -- What is neither whitespace nor of a word is a symbol.
        obtain ⟨o, t', ho, hgt, hlen⟩ := exists_sym c t hspace hword
        obtain ⟨ts, h⟩ := ih t'.length hlen t' rfl
        exact ⟨.sym o :: ts, ho ▸ .sym hgt h⟩

theorem Spells.length_le (h : Spells ts t) : ts.length ≤ t.length := by
  induction h with
  | nil => exact le_rfl
  | space _ _ ih => rw [length_cons]; omega
  | @sym _ o t _ _ ih =>
    obtain ⟨p, hp⟩ := o.text_eq
    rw [hp, length_append, length_cons, length_cons]
    omega
  | @word _ w t hne _ _ _ ih =>
    have := length_pos_iff.mpr hne
    rw [length_append, length_cons]
    omega

theorem At.length_le (h : At inp s ts) : ts.length ≤ inp.length := by
  have := h.spells.length_le
  rw [length_drop] at this
  omega

/-! ### `peek` and `gettoken` -/

/-- Does the first token start with one of the characters `toks`? -/
def starts (toks : Str) : List Token → Bool
  | .sym o :: _ => strchr toks o.first
  | _ => false

theorem getElem?_skip (P : Chr → Bool) (s : Nat) :
    inp[skip inp P s]? = ((inp.drop s).dropWhile P).head? := by
  rw [← drop_skip, head?_drop]

theorem peek_spec (toks : Str) (htoks : ∀ x ∈ toks, x ∈ symbols) (h : At inp s ts) :
    (peek inp s toks).1 = starts toks ts ∧ At inp (peek inp s toks).2 ts := by
  refine ⟨?_, h.strip⟩
  unfold peek
  dsimp only
  rw [getElem?_skip]
  cases ts with
  | nil => rw [h.spells.nil_inv]; rfl
  | cons t ts =>
    cases t with
    | sym o =>
      obtain ⟨t', ht, -, -⟩ := h.spells.sym_inv
      obtain ⟨p, hp⟩ := o.text_eq
      rw [ht, hp]
      rfl
    | word w =>
      obtain ⟨t', ht, hne, hw, -, -⟩ := h.spells.word_inv
      obtain ⟨c, w', rfl⟩ := exists_cons_of_ne_nil hne
      rw [ht]
      exact strchr_eq_false htoks (hw c mem_cons_self)

theorem gettoken_nil (h : At inp s []) :
    (gettoken inp s).ret = 0 ∧ At inp (gettoken inp s).ps [] := by
  have hnone : inp[skip inp isSpace s]? = none := by rw [getElem?_skip, h.spells.nil_inv]; rfl
  unfold gettoken
  dsimp only
  rw [hnone]
  exact ⟨rfl, h.strip.strip⟩

/-- The cursor behind a prefix of the text. -/
theorem at_append {q : Nat} {p : Str} (hq : inp.drop q = p ++ t') (hle : q ≤ inp.length)
    (h : Spells ts t') : At inp (q + p.length) ts := by
  have hlen := congrArg length hq
  rw [length_drop, length_append] at hlen
  refine ⟨by omega, ?_⟩
  rw [← drop_drop, hq, drop_left]
  exact h

theorem gettoken_sym (h : At inp s (.sym o :: ts)) :
    (gettoken inp s).ret = o.code ∧ At inp (gettoken inp s).ps ts := by
  obtain ⟨t', ht, hgt, hs⟩ := h.spells.sym_inv
  have hle : skip inp isSpace s ≤ inp.length := skip_le h.le
  have hdrop := drop_skip inp isSpace s
  rw [ht] at hdrop
  have hnext := at_append hdrop hle hs
  have hfirst : inp[skip inp isSpace s]? = some o.first := by
    obtain ⟨p, hp⟩ := o.text_eq
    rw [getElem?_skip, ht, hp]
    rfl
  have hsecond : inp[skip inp isSpace s + 1]? = (o.text ++ t')[1]? := by
    rw [← hdrop, getElem?_drop]
  unfold gettoken
  dsimp only
  rw [hfirst]
  cases o with
  | app =>
    have hgt' : inp[skip inp isSpace s + 1]? = some gt := hsecond
    have hc : strchr [bar, lpar, rpar, semi, amp, lt] gt = false := by decide
    simp only [Sym.first, hc, hgt', if_pos, Bool.false_eq_true, if_false]
    exact ⟨rfl, hnext.strip⟩
  | gt =>
    have hgt' : inp[skip inp isSpace s + 1]? ≠ some gt := by
      rw [hsecond, show (Sym.gt.text ++ t')[1]? = t'.head? from head?_eq_getElem?.symm]
      exact hgt rfl
    have hc : strchr [bar, lpar, rpar, semi, amp, lt] gt = false := by decide
    simp only [Sym.first, hc, if_neg hgt', if_pos, Bool.false_eq_true, if_false]
    exact ⟨rfl, hnext.strip⟩
  | lt | bar | amp | semi | lpar | rpar => exact ⟨rfl, hnext.strip⟩

theorem takeWhile_word (hw : ∀ c ∈ w, isWord c = true) (hs : ∀ c ∈ t'.head?, isWord c = false) :
    (w ++ t').takeWhile isWord = w := by
  rw [takeWhile_append_of_pos hw]
  cases t' with
  | nil => simp
  | cons c t' => rw [takeWhile_cons_of_neg (by simp [hs c rfl]), append_nil]

theorem gettoken_word (h : At inp s (.word w :: ts)) :
    (gettoken inp s).ret = 97 ∧ At inp (gettoken inp s).ps ts ∧
      Span inp (gettoken inp s).q (gettoken inp s).eq w := by
  obtain ⟨t', ht, hne, hw, hs, hspells⟩ := h.spells.word_inv
  have hle : skip inp isSpace s ≤ inp.length := skip_le h.le
  have hdrop := drop_skip inp isSpace s
  rw [ht] at hdrop
  have hnext := at_append hdrop hle hspells
  obtain ⟨c, w', rfl⟩ := exists_cons_of_ne_nil hne
  have hc := hw c mem_cons_self
  have hfirst : inp[skip inp isSpace s]? = some c := by rw [getElem?_skip, ht]; rfl
  have hskip : skip inp isWord (skip inp isSpace s) = skip inp isSpace s + (c :: w').length := by
    rw [skip, hdrop, takeWhile_word hw hs]
  have hop : strchr [bar, lpar, rpar, semi, amp, lt] c = false :=
    strchr_eq_false (by simp [symbols]) hc
  have hgt : c ≠ gt := fun e => notMem_symbols hc (by rw [e]; decide)
  unfold gettoken
  dsimp only
  rw [hfirst]
  simp only [hop, if_neg hgt, Bool.false_eq_true, if_false, hskip]
  refine ⟨trivial, hnext.strip, ⟨t', hdrop.symm⟩, rfl, hw, ?_, hnext.le⟩
  rw [← getElem?_drop, hdrop, getElem?_append_right le_rfl, Nat.sub_self, ← head?_eq_getElem?]
  exact hs

end Xv6.Shell
