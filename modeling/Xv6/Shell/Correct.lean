import Xv6.Shell.Tokens

/-!
# Shell — Correct

The parser accepts exactly its grammar (`parsecmd_iff`).

* `parse_cases`: within the bound on its calls the parser panics, or it has taken the tokens of a
  derivation and built its tree.
* `parseline_complete`: tokens that derive from `line`, before a `)` or the end of the input, are
  taken as a whole.
* `read_nulterminate`: the strings that are read from the buffer after `nulterminate` are the texts
  of the words, since the character after a word belongs to no other word.
-/

namespace Xv6.Shell

open List

variable {inp w a b : Str} {s q eq n : Nat} {ts ts₂ ts₁ : List Token} {cmd : Cmd} {t : Tree}
  {ws : List Str} {rs : List Redir} {o : Sym}

/-- The pointers of `cmd` delimit the words of `t`. -/
inductive Text (inp : Str) : Cmd → Tree → Prop where
  | exec {args : List (Nat × Nat)} {ws : List Str}
      (h : List.Forall₂ (fun a w => Span inp a.1 a.2 w) args ws) : Text inp (.exec args) (.exec ws)
  | redir {cmd : Cmd} {t : Tree} {q eq mode fd : Nat} {w : Str} (h : Text inp cmd t)
      (hs : Span inp q eq w) : Text inp (.redir cmd q eq mode fd) (.redir t w mode fd)
  | pipe {l r : Cmd} {t u : Tree} (hl : Text inp l t) (hr : Text inp r u) :
      Text inp (.pipe l r) (.pipe t u)
  | list {l r : Cmd} {t u : Tree} (hl : Text inp l t) (hr : Text inp r u) :
      Text inp (.list l r) (.list t u)
  | back {cmd : Cmd} {t : Tree} (h : Text inp cmd t) : Text inp (.back cmd) (.back t)

theorem wrap_append (t : Tree) (rs rs' : List Redir) : wrap t (rs ++ rs') = wrap (wrap t rs) rs' :=
  foldl_append

/-- An argument is added under the redirections. -/
theorem Text.addArg (h : Text inp cmd (wrap (.exec ws) rs)) (hs : Span inp q eq w) :
    Text inp (cmd.addArg q eq) (wrap (.exec (ws ++ [w])) rs) := by
  induction rs using reverseRecOn generalizing cmd with
  | nil =>
    cases h with
    | exec h => exact .exec (rel_append h (.cons hs .nil))
  | append_singleton rs r ih =>
    rw [wrap_append] at h ⊢
    cases h with
    | redir h hr => exact .redir (ih h) hr

/-! ### First tokens -/

theorem starts_imp (hab : ∀ o : Sym, strchr a o.first = true → strchr b o.first = false)
    (h : starts a ts = true) : starts b ts = false := by
  cases ts with
  | nil => rfl
  | cons u ts =>
    cases u with
    | word w => rfl
    | sym o => exact hab o h

/-- What can follow `exec`. -/
def EndsExec (ts : List Token) : Prop := ts = [] ∨ starts [bar, rpar, amp, semi] ts = true

/-- What can follow `line`. -/
def EndsLine (ts : List Token) : Prop := ts = [] ∨ starts [rpar] ts = true

theorem EndsExec.starts (h : EndsExec ts)
    (hb : ∀ o : Sym, strchr [bar, rpar, amp, semi] o.first = true → strchr b o.first = false) :
    starts b ts = false := by
  rcases h with rfl | h
  · rfl
  · exact starts_imp hb h

theorem EndsLine.starts (h : EndsLine ts)
    (hb : ∀ o : Sym, strchr [rpar] o.first = true → strchr b o.first = false) :
    starts b ts = false := by
  rcases h with rfl | h
  · rfl
  · exact starts_imp hb h

theorem EndsLine.endsExec (h : EndsLine ts) : EndsExec ts := by
  rcases h with rfl | h
  · exact .inl rfl
  refine .inr ?_
  cases ts with
  | nil => cases h
  | cons u ts =>
    cases u with
    | word w => cases h
    | sym o => cases o <;> first | rfl | cases h

/-- The tokens start with a symbol of which only one starts with `c`. -/
theorem exists_of_starts {c : Chr} (ho : ∀ o' : Sym, o'.first = c → o' = o)
    (h : starts [c] ts = true) : ∃ ts', ts = .sym o :: ts' := by
  cases ts with
  | nil => cases h
  | cons u ts =>
    cases u with
    | word w => cases h
    | sym o' =>
      have hc : o'.first = c := by simpa [starts, strchr] using h
      exact ⟨ts, by rw [ho o' hc]⟩

/-! ### Redirections -/

/-- What a symbol of redirection and a word stand for. -/
def Sym.redir (o : Sym) (w : Str) : Redir :=
  if o = .lt then ⟨w, O_RDONLY, 0⟩ else ⟨w, O_WRONLY ||| O_CREATE, 1⟩

theorem redirs_cons (ho : strchr [lt, gt] o.first = true) (h : Redirs ts rs) :
    Redirs (.sym o :: .word w :: ts) (o.redir w :: rs) := by
  cases o with
  | lt => exact .lt h
  | gt => exact .gt h
  | app => exact .app h
  | bar | amp | semi | lpar | rpar => cases ho

theorem redirs_inv (h : Redirs ts rs) :
    (ts = [] ∧ rs = []) ∨ ∃ o w ts' rs', strchr [lt, gt] (Sym.first o) = true ∧
      ts = .sym o :: .word w :: ts' ∧ rs = o.redir w :: rs' ∧ Redirs ts' rs' := by
  cases h with
  | nil => exact .inl ⟨rfl, rfl⟩
  | lt h => exact .inr ⟨.lt, _, _, _, rfl, rfl, rfl, h⟩
  | gt h => exact .inr ⟨.gt, _, _, _, rfl, rfl, rfl, h⟩
  | app h => exact .inr ⟨.app, _, _, _, rfl, rfl, rfl, h⟩

theorem redircmd_text (ho : strchr [lt, gt] o.first = true) (h : Text inp cmd t)
    (hs : Span inp q eq w) : Text inp (redircmd cmd o.code q eq) (wrap t [o.redir w]) := by
  cases o with
  | lt => exact .redir h hs
  | gt => exact .redir h hs
  | app => exact .redir h hs
  | bar | amp | semi | lpar | rpar => cases ho

/-- The outcome `r` of a function that takes tokens off `ts`: a panic, or a command, and a cursor
behind tokens with `G`. -/
def Parses (inp : Str) (ts : List Token) (G : List Token → Tree → Prop)
    (r : Except Halt (Cmd × Nat)) : Prop :=
  (∃ msg, r = .error (.panic msg)) ∨ ∃ cmd s' ts₁ ts₂ t, r = .ok (cmd, s') ∧ ts = ts₁ ++ ts₂ ∧
    At inp s' ts₂ ∧ G ts₁ t ∧ Text inp cmd t

theorem parseredirs_cases (n : Nat) : ∀ {s ts cmd t}, At inp s ts → Text inp cmd t →
    ts.length < n → Parses inp ts (fun ts₁ u => ∃ rs, Redirs ts₁ rs ∧ u = wrap t rs)
      (parseredirs inp n cmd s) := by
  induction n with
  | zero => intro _ _ _ _ _ _ hn; omega
  | succ n ih =>
    intro s ts cmd t hat ht hn
    obtain ⟨hp, hat'⟩ := peek_spec [lt, gt] (by simp [symbols]) hat
    rw [parseredirs]
    dsimp only
    rw [hp]
    cases hstart : starts [lt, gt] ts with
    | false => exact .inr ⟨cmd, _, [], ts, t, rfl, rfl, hat', ⟨[], .nil, rfl⟩, ht⟩
    | true =>
      rw [if_pos rfl]
      cases ts with
      | nil => cases hstart
      | cons u ts =>
      cases u with
      | word w => cases hstart
      | sym o =>
      obtain ⟨hret, hnext⟩ := gettoken_sym hat'
      cases ts with
      | nil => rw [if_pos (by rw [(gettoken_nil hnext).1]; decide)]; exact .inl ⟨_, rfl⟩
      | cons u ts =>
      cases u with
      | sym o' =>
        rw [if_pos (by rw [(gettoken_sym hnext).1]; cases o' <;> decide)]
        exact .inl ⟨_, rfl⟩
      | word w =>
        obtain ⟨hword, hnext', hspan⟩ := gettoken_word hnext
        rw [if_neg (by rw [hword]; decide), hret]
        rw [length_cons, length_cons] at hn
        rcases ih hnext' (redircmd_text hstart ht hspan) (by omega) with
          h | ⟨cmd', s', ts₁, ts₂, u, hr, rfl, h₂, ⟨rs, hrs, rfl⟩, ht'⟩
        · exact .inl h
        · refine .inr ⟨cmd', s', _, ts₂, _, hr, rfl, h₂, ⟨_, redirs_cons hstart hrs, ?_⟩, ht'⟩
          rw [← wrap_append]
          rfl

theorem parseredirs_complete :
    ∀ {s cmd t ts₁ rs}, Redirs ts₁ rs → At inp s (ts₁ ++ ts₂) → starts [lt, gt] ts₂ = false →
    Text inp cmd t → ts₁.length < n →
    ∃ cmd' s', parseredirs inp n cmd s = .ok (cmd', s') ∧ At inp s' ts₂ ∧
      Text inp cmd' (wrap t rs) := by
  induction n with
  | zero => intro _ _ _ _ _ _ _ _ _ hn; omega
  | succ n ih =>
    intro s cmd t ts₁ rs hr hat hend ht hn
    obtain ⟨hp, hat'⟩ := peek_spec [lt, gt] (by simp [symbols]) hat
    rw [parseredirs]
    dsimp only
    rw [hp]
    rcases redirs_inv hr with ⟨rfl, rfl⟩ | ⟨o, w, ts', rs', ho, rfl, rfl, hr'⟩
    · rw [nil_append] at hat' ⊢
      rw [hend]
      exact ⟨cmd, _, rfl, hat', ht⟩
    have hstart : starts [lt, gt] (.sym o :: .word w :: ts' ++ ts₂) = true := ho
    obtain ⟨hret, hnext⟩ := gettoken_sym hat'
    obtain ⟨hword, hnext', hspan⟩ := gettoken_word hnext
    rw [hstart, if_pos rfl, if_neg (by rw [hword]; decide), hret]
    rw [length_cons, length_cons] at hn
    obtain ⟨cmd', s', hrun, h₂, ht'⟩ := ih hr' hnext' hend (redircmd_text ho ht hspan) (by omega)
    refine ⟨cmd', s', hrun, h₂, ?_⟩
    rw [← wrap_append] at ht'
    exact ht'

/-! ### Arguments -/

/-- The tokens are `(word redir*)*` behind the words `ws₀` and redirections `rs₀`. -/
def ArgsAfter (ws₀ : List Str) (rs₀ : List Redir) (ts : List Token) (u : Tree) : Prop :=
  ∃ ws rs, Args ts ws rs ∧ (ws₀ ++ ws).length ≤ 9 ∧ u = wrap (.exec (ws₀ ++ ws)) (rs₀ ++ rs)

theorem parseargs_cases (n : Nat) : ∀ {s ts cmd ws₀ rs₀}, At inp s ts →
    Text inp cmd (wrap (.exec ws₀) rs₀) → ws₀.length ≤ 9 → ts.length < n →
    Parses inp ts (ArgsAfter ws₀ rs₀) (parseargs inp n cmd ws₀.length s) := by
  induction n with
  | zero => intro _ _ _ _ _ _ _ _ hn; omega
  | succ n ih =>
    intro s ts cmd ws₀ rs₀ hat ht hw hn
    obtain ⟨hp, hat'⟩ := peek_spec [bar, rpar, amp, semi] (by simp [symbols]) hat
    have hnone : ArgsAfter ws₀ rs₀ [] (wrap (.exec ws₀) rs₀) :=
      ⟨[], [], .nil, by simpa using hw, by simp⟩
    rw [parseargs]
    dsimp only
    rw [hp]
    cases hstart : starts [bar, rpar, amp, semi] ts with
    | true =>
      rw [if_pos rfl]
      exact .inr ⟨cmd, _, [], ts, _, rfl, rfl, hat', hnone, ht⟩
    | false =>
      rw [if_neg (by decide)]
      cases ts with
      | nil =>
        obtain ⟨hret, hnext⟩ := gettoken_nil hat'
        rw [if_pos hret]
        exact .inr ⟨cmd, _, [], [], _, rfl, rfl, hnext, hnone, ht⟩
      | cons u ts =>
      cases u with
      | sym o =>
        obtain ⟨hret, hnext⟩ := gettoken_sym hat'
        rw [hret, if_neg (by cases o <;> decide), if_pos (by cases o <;> decide)]
        exact .inl ⟨_, rfl⟩
      | word w =>
        obtain ⟨hret, hnext, hspan⟩ := gettoken_word hat'
        rw [hret, if_neg (by decide), if_neg (by decide)]
        by_cases hmax : ws₀.length + 1 ≥ MAXARGS
        · rw [if_pos hmax]
          exact .inl ⟨_, rfl⟩
        rw [if_neg hmax]
        have hmax : ws₀.length + 1 < 10 := Nat.lt_of_not_le hmax
        have hlen := hnext.length_le
        rcases parseredirs_cases (inp.length + 1) hnext (ht.addArg hspan) (by omega) with
          ⟨msg, hr⟩ | ⟨cmd', s', ts₁, ts₂, u, hr, rfl, h₂, ⟨rs, hrs, rfl⟩, ht'⟩
        · rw [hr]
          exact .inl ⟨_, rfl⟩
        rw [hr]
        rw [← wrap_append] at ht'
        rw [length_cons, length_append] at hn
        have hstep := ih h₂ ht' (by simp; omega) (by omega)
        rw [length_append, length_singleton] at hstep
        rcases hstep with h | ⟨cmd'', s'', ts₃, ts₄, v, hr', rfl, h₄, ⟨ws, rs', ha, hle, rfl⟩, ht''⟩
        · exact .inl h
        refine .inr ⟨cmd'', s'', _, ts₄, _, hr', ?_, h₄, ⟨w :: ws, rs ++ rs', .cons hrs ha, ?_, ?_⟩,
          ht''⟩
        · simp
        · simpa using hle
        · simp

theorem starts_args (ha : Args ts₁ ws rs) (h : starts a ts₂ = false) :
    starts a (ts₁ ++ ts₂) = false := by
  cases ha with
  | nil => exact h
  | cons hr ha => rfl

theorem parseargs_complete :
    ∀ {s cmd ws₀ rs₀ ts₁ ws rs}, Args ts₁ ws rs → At inp s (ts₁ ++ ts₂) → EndsExec ts₂ →
    Text inp cmd (wrap (.exec ws₀) rs₀) → (ws₀ ++ ws).length ≤ 9 → ts₁.length < n →
    ∃ cmd' s', parseargs inp n cmd ws₀.length s = .ok (cmd', s') ∧ At inp s' ts₂ ∧
      Text inp cmd' (wrap (.exec (ws₀ ++ ws)) (rs₀ ++ rs)) := by
  induction n with
  | zero => intro _ _ _ _ _ _ _ _ _ _ _ _ hn; omega
  | succ n ih =>
    intro s cmd ws₀ rs₀ ts₁ ws rs ha hat hend ht hlen hn
    obtain ⟨hp, hat'⟩ := peek_spec [bar, rpar, amp, semi] (by simp [symbols]) hat
    rw [parseargs]
    dsimp only
    rw [hp]
    cases ha with
    | nil =>
      rw [append_nil, append_nil]
      rw [nil_append] at hat' ⊢
      rcases hend with rfl | hend
      · obtain ⟨hret, hnext⟩ := gettoken_nil hat'
        rw [if_neg (by decide), if_pos hret]
        exact ⟨cmd, _, rfl, hnext, ht⟩
      · rw [hend, if_pos rfl]
        exact ⟨cmd, _, rfl, hat', ht⟩
    | @cons ts₃ ts₄ w ws rs₁ rs₂ hr ha =>
      have hw : (ws₀ ++ [w] ++ ws).length ≤ 9 := by simpa using hlen
      rw [length_append, length_append, length_singleton] at hw
      rw [cons_append, append_assoc] at hat'
      obtain ⟨hret, hnext, hspan⟩ := gettoken_word hat'
      rw [if_neg (by simp [starts]), hret, if_neg (by decide), if_neg (by decide),
        if_neg (by rw [MAXARGS]; omega)]
      have hle := hnext.length_le
      rw [length_append] at hle
      obtain ⟨cmd', s', hrun, h₂, ht'⟩ := parseredirs_complete (n := inp.length + 1) hr hnext
        (starts_args ha (hend.starts fun o => by cases o <;> decide)) (ht.addArg hspan) (by omega)
      rw [hrun]
      rw [← wrap_append] at ht'
      rw [length_cons, length_append] at hn
      obtain ⟨cmd'', s'', hrun', h₃, ht''⟩ := ih ha h₂ hend ht' (by simpa using hlen) (by omega)
      rw [length_append, length_singleton] at hrun'
      refine ⟨cmd'', s'', hrun', h₃, ?_⟩
      simpa using ht''

/-! ### `'&'*` -/

theorem parseback_cases (n : Nat) : ∀ {s ts cmd t}, At inp s ts → Text inp cmd t →
    ts.length < n → ∃ cmd' s' k ts₂, parseback inp n cmd s = .ok (cmd', s') ∧
      ts = replicate k (.sym .amp) ++ ts₂ ∧ At inp s' ts₂ ∧ Text inp cmd' (backs k t) := by
  induction n with
  | zero => intro _ _ _ _ _ _ hn; omega
  | succ n ih =>
    intro s ts cmd t hat ht hn
    obtain ⟨hp, hat'⟩ := peek_spec [amp] (by simp [symbols]) hat
    rw [parseback]
    rw [hp]
    cases hstart : starts [amp] ts with
    | false => exact ⟨cmd, _, 0, ts, rfl, rfl, hat', ht⟩
    | true =>
      obtain ⟨ts, rfl⟩ := exists_of_starts (o := .amp) (fun o' => by cases o' <;> decide) hstart
      obtain ⟨-, hnext⟩ := gettoken_sym hat'
      rw [length_cons] at hn
      obtain ⟨cmd', s', k, ts₂, hr, rfl, h₂, ht'⟩ := ih hnext (.back ht) (by omega)
      exact ⟨cmd', s', k + 1, ts₂, hr, rfl, h₂, ht'⟩

theorem parseback_complete (k : Nat) : ∀ {n s cmd t},
    At inp s (replicate k (.sym .amp) ++ ts₂) → starts [amp] ts₂ = false → Text inp cmd t →
    k < n → ∃ cmd' s', parseback inp n cmd s = .ok (cmd', s') ∧ At inp s' ts₂ ∧
      Text inp cmd' (backs k t) := by
  induction k with
  | zero =>
    intro n s cmd t hat hend ht hn
    obtain ⟨n, rfl⟩ : ∃ n', n = n' + 1 := ⟨n - 1, by omega⟩
    obtain ⟨hp, hat'⟩ := peek_spec [amp] (by simp [symbols]) hat
    rw [parseback]
    rw [hp, replicate_zero, nil_append, hend]
    exact ⟨cmd, _, rfl, hat', ht⟩
  | succ k ih =>
    intro n s cmd t hat hend ht hn
    obtain ⟨n, rfl⟩ : ∃ n', n = n' + 1 := ⟨n - 1, by omega⟩
    obtain ⟨hp, hat'⟩ := peek_spec [amp] (by simp [symbols]) hat
    rw [replicate_succ, cons_append] at hat'
    obtain ⟨-, hnext⟩ := gettoken_sym hat'
    rw [parseback]
    rw [hp]
    exact ih hnext hend (.back ht) (by omega)

/-! ### The functions that call each other -/

/-- Within `n` calls, each function panics or takes the tokens of a derivation. -/
structure Level (inp : Str) (n : Nat) : Prop where
  line : ∀ {s ts}, At inp s ts → 4 * ts.length + 4 ≤ n → Parses inp ts Line (parseline inp n s)
  pipe : ∀ {s ts}, At inp s ts → 4 * ts.length + 3 ≤ n → Parses inp ts Pipe (parsepipe inp n s)
  exec : ∀ {s ts}, At inp s ts → 4 * ts.length + 2 ≤ n → Parses inp ts Exec (parseexec inp n s)
  block : ∀ {s ts}, At inp s ts → starts [lpar] ts = true → 4 * ts.length + 1 ≤ n →
    Parses inp ts Exec (parseblock inp n s)

section

variable (h : Level inp n) (hat : At inp s ts)

include h hat

theorem Level.line_succ (hn : 4 * ts.length + 4 ≤ n + 1) :
    Parses inp ts Line (parseline inp (n + 1) s) := by
  rw [parseline]
  rcases h.pipe hat (by omega) with ⟨msg, hr⟩ | ⟨cmd, s₁, ts₁, ts₂, t, hr, rfl, h₁, hg, ht⟩
  · rw [hr]
    exact .inl ⟨msg, rfl⟩
  rw [hr]
  have hlen := h₁.length_le
  obtain ⟨cmd', s₂, k, ts₃, hr', rfl, h₂, ht'⟩ :=
    parseback_cases (inp.length + 1) h₁ ht (by omega)
  change Parses inp _ Line (parseback inp (inp.length + 1) cmd s₁ >>= _)
  rw [hr']
  obtain ⟨hp, h₃⟩ := peek_spec [semi] (by simp [symbols]) h₂
  change Parses inp _ Line (if (peek inp s₂ [semi]).1 = true then _ else _)
  rw [hp]
  cases hstart : starts [semi] ts₃ with
  | false => exact .inr ⟨cmd', _, _, ts₃, _, rfl, by simp, h₃, .last k hg, ht'⟩
  | true =>
    obtain ⟨ts₄, rfl⟩ := exists_of_starts (o := .semi) (fun o' => by cases o' <;> decide) hstart
    obtain ⟨-, hnext⟩ := gettoken_sym h₃
    simp only [length_append, length_cons] at hn
    rw [if_pos rfl]
    rcases h.line hnext (by omega) with ⟨msg, hr⟩ | ⟨right, s₃, ts₅, ts₆, u, hr, rfl, h₅, hg', hu⟩
    · rw [hr]
      exact .inl ⟨msg, rfl⟩
    · rw [hr]
      exact .inr ⟨_, s₃, _, ts₆, _, rfl, by simp, h₅, .seq k hg hg', .list ht' hu⟩

theorem Level.pipe_succ (hn : 4 * ts.length + 3 ≤ n + 1) :
    Parses inp ts Pipe (parsepipe inp (n + 1) s) := by
  rw [parsepipe]
  rcases h.exec hat (by omega) with ⟨msg, hr⟩ | ⟨cmd, s₁, ts₁, ts₂, t, hr, rfl, h₁, hg, ht⟩
  · rw [hr]
    exact .inl ⟨msg, rfl⟩
  rw [hr]
  obtain ⟨hp, h₂⟩ := peek_spec [bar] (by simp [symbols]) h₁
  change Parses inp _ Pipe (if (peek inp s₁ [bar]).1 = true then _ else _)
  rw [hp]
  cases hstart : starts [bar] ts₂ with
  | false => exact .inr ⟨cmd, _, _, ts₂, _, rfl, rfl, h₂, .last hg, ht⟩
  | true =>
    obtain ⟨ts₃, rfl⟩ := exists_of_starts (o := .bar) (fun o' => by cases o' <;> decide) hstart
    obtain ⟨-, hnext⟩ := gettoken_sym h₂
    simp only [length_append, length_cons] at hn
    rw [if_pos rfl]
    rcases h.pipe hnext (by omega) with ⟨msg, hr⟩ | ⟨right, s₃, ts₅, ts₆, u, hr, rfl, h₅, hg', hu⟩
    · rw [hr]
      exact .inl ⟨msg, rfl⟩
    · rw [hr]
      exact .inr ⟨_, s₃, _, ts₆, _, rfl, by simp, h₅, .seq hg hg', .pipe ht hu⟩

theorem Level.exec_succ (hn : 4 * ts.length + 2 ≤ n + 1) :
    Parses inp ts Exec (parseexec inp (n + 1) s) := by
  obtain ⟨hp, h₁⟩ := peek_spec [lpar] (by simp [symbols]) hat
  rw [parseexec]
  dsimp only
  rw [hp]
  cases hstart : starts [lpar] ts with
  | true => exact h.block h₁ hstart (by omega)
  | false =>
    have hlen := h₁.length_le
    rw [if_neg (by decide)]
    rcases parseredirs_cases (inp.length + 1) h₁ (.exec .nil) (by omega) with
      ⟨msg, hr⟩ | ⟨cmd, s', ts₁, ts₂, u, hr, rfl, h₂, ⟨rs, hrs, rfl⟩, ht⟩
    · rw [hr]
      exact .inl ⟨msg, rfl⟩
    rw [hr]
    have hlen := h₂.length_le
    rcases parseargs_cases (inp.length + 1) h₂ ht (by simp) (by omega) with
      hr' | ⟨cmd', s'', ts₃, ts₄, v, hr', rfl, h₄, ⟨ws, rs', ha, hle, rfl⟩, ht'⟩
    · exact .inl hr'
    · exact .inr ⟨cmd', s'', _, ts₄, _, hr', by simp, h₄, .args hrs ha hle, ht'⟩

theorem Level.block_succ (hstart : starts [lpar] ts = true)
    (hn : 4 * ts.length + 1 ≤ n + 1) : Parses inp ts Exec (parseblock inp (n + 1) s) := by
  obtain ⟨hp, h₁⟩ := peek_spec [lpar] (by simp [symbols]) hat
  obtain ⟨ts, rfl⟩ := exists_of_starts (o := .lpar) (fun o' => by cases o' <;> decide) hstart
  obtain ⟨-, hnext⟩ := gettoken_sym h₁
  rw [length_cons] at hn
  rw [parseblock]
  dsimp only
  rw [hp, hstart, if_pos rfl]
  rcases h.line hnext (by omega) with ⟨msg, hr⟩ | ⟨cmd, s₁, ts₁, ts₂, t, hr, rfl, h₂, hg, ht⟩
  · rw [hr]
    exact .inl ⟨msg, rfl⟩
  rw [hr]
  obtain ⟨hp', h₃⟩ := peek_spec [rpar] (by simp [symbols]) h₂
  change Parses inp _ Exec (if (peek inp s₁ [rpar]).1 = true then _ else _)
  rw [hp']
  cases hstart' : starts [rpar] ts₂ with
  | false => exact .inl ⟨_, rfl⟩
  | true =>
    obtain ⟨ts₂, rfl⟩ := exists_of_starts (o := .rpar) (fun o' => by cases o' <;> decide) hstart'
    obtain ⟨-, hnext'⟩ := gettoken_sym h₃
    have hlen := hnext'.length_le
    rw [if_pos rfl]
    rcases parseredirs_cases (inp.length + 1) hnext' ht (by omega) with
      hr' | ⟨cmd', s', ts₃, ts₄, u, hr', rfl, h₄, ⟨rs, hrs, rfl⟩, ht'⟩
    · exact .inl hr'
    · exact .inr ⟨cmd', s', _, ts₄, _, hr', by simp, h₄, .block hg hrs, ht'⟩

end

theorem parse_cases (inp : Str) (n : Nat) : Level inp n := by
  induction n with
  | zero =>
    exact ⟨fun _ h => by omega, fun _ h => by omega, fun _ h => by omega, fun _ _ h => by omega⟩
  | succ n ih => exact ⟨ih.line_succ, ih.pipe_succ, ih.exec_succ, ih.block_succ⟩

/-! ### Completeness -/

theorem endsExec_amps (k : Nat) (h : EndsExec ts₂) : EndsExec (replicate k (.sym .amp) ++ ts₂) := by
  cases k with
  | zero => exact h
  | succ k => exact .inr rfl

theorem starts_amps (k : Nat) (ha : strchr a amp = false) (h : starts a ts₂ = false) :
    starts a (replicate k (.sym .amp) ++ ts₂) = false := by
  cases k with
  | zero => exact h
  | succ k => exact ha

theorem starts_redirs (hr : Redirs ts₁ rs)
    (ha : ∀ o : Sym, strchr [lt, gt] o.first = true → strchr a o.first = false)
    (h : starts a ts₂ = false) : starts a (ts₁ ++ ts₂) = false := by
  rcases redirs_inv hr with ⟨rfl, -⟩ | ⟨o, w, ts', rs', ho, rfl, -, -⟩
  · exact h
  · exact ha o ho

mutual

theorem parseline_complete {ts₁ : List Token} {t : Tree} (h : Line ts₁ t) :
    ∀ {s ts₂ n}, At inp s (ts₁ ++ ts₂) → EndsLine ts₂ → 4 * ts₁.length + 4 ≤ n →
    ∃ cmd s', parseline inp n s = .ok (cmd, s') ∧ At inp s' ts₂ ∧ Text inp cmd t := by
  intro s ts₂ n hat hend hn
  obtain ⟨n, rfl⟩ : ∃ n', n = n' + 1 := ⟨n - 1, by omega⟩
  rw [parseline]
  cases h with
  | @last ts t k h =>
    rw [append_assoc] at hat
    rw [length_append] at hn
    obtain ⟨cmd, s₁, hr, h₁, ht⟩ := parsepipe_complete h hat (endsExec_amps k hend.endsExec)
      (starts_amps k (by decide) (hend.starts fun o => by cases o <;> decide))
      (show 4 * ts.length + 3 ≤ n by omega)
    have hlen := h₁.length_le
    rw [length_append, length_replicate] at hlen
    obtain ⟨cmd', s₂, hr', h₂, ht'⟩ := parseback_complete (n := inp.length + 1) k h₁
      (hend.starts fun o => by cases o <;> decide) ht (by omega)
    obtain ⟨hp, h₃⟩ := peek_spec [semi] (by simp [symbols]) h₂
    rw [hend.starts fun o => by cases o <;> decide] at hp
    refine ⟨cmd', _, ?_, h₃, ht'⟩
    rw [hr]
    change (parseback inp (inp.length + 1) cmd s₁ >>= _) = _
    rw [hr']
    change (if (peek inp s₂ [semi]).1 = true then _ else _) = _
    rw [hp]
    rfl
  | @seq ts ts' t t' k h h' =>
    rw [append_assoc, append_assoc, cons_append] at hat
    simp only [length_append, length_cons] at hn
    have hsemi : EndsExec (.sym .semi :: (ts' ++ ts₂)) := .inr rfl
    obtain ⟨cmd, s₁, hr, h₁, ht⟩ := parsepipe_complete h hat (endsExec_amps k hsemi)
      (starts_amps k (by decide) rfl) (show 4 * ts.length + 3 ≤ n by omega)
    have hlen := h₁.length_le
    rw [length_append, length_replicate] at hlen
    obtain ⟨cmd', s₂, hr', h₂, ht'⟩ := parseback_complete (n := inp.length + 1) k h₁ rfl ht
      (by omega)
    obtain ⟨hp, h₃⟩ := peek_spec [semi] (by simp [symbols]) h₂
    obtain ⟨-, hnext⟩ := gettoken_sym h₃
    obtain ⟨right, s₃, hr'', h₄, hu⟩ := parseline_complete h' hnext hend
      (show 4 * ts'.length + 4 ≤ n by omega)
    refine ⟨_, s₃, ?_, h₄, .list ht' hu⟩
    rw [hr]
    change (parseback inp (inp.length + 1) cmd s₁ >>= _) = _
    rw [hr']
    change (if (peek inp s₂ [semi]).1 = true then _ else _) = _
    rw [hp]
    change (parseline inp n _ >>= _) = _
    rw [hr'']
    rfl

theorem parsepipe_complete {ts₁ : List Token} {t : Tree} (h : Pipe ts₁ t) :
    ∀ {s ts₂ n}, At inp s (ts₁ ++ ts₂) → EndsExec ts₂ → starts [bar] ts₂ = false →
    4 * ts₁.length + 3 ≤ n →
    ∃ cmd s', parsepipe inp n s = .ok (cmd, s') ∧ At inp s' ts₂ ∧ Text inp cmd t := by
  intro s ts₂ n hat hend hbar hn
  obtain ⟨n, rfl⟩ : ∃ n', n = n' + 1 := ⟨n - 1, by omega⟩
  rw [parsepipe]
  cases h with
  | last h =>
    obtain ⟨cmd, s₁, hr, h₁, ht⟩ := parseexec_complete h hat hend
      (show 4 * ts₁.length + 2 ≤ n by omega)
    obtain ⟨hp, h₂⟩ := peek_spec [bar] (by simp [symbols]) h₁
    refine ⟨cmd, _, ?_, h₂, ht⟩
    rw [hr]
    change (if (peek inp s₁ [bar]).1 = true then _ else _) = _
    rw [hp, hbar]
    rfl
  | @seq ts ts' t t' h h' =>
    rw [append_assoc, cons_append] at hat
    simp only [length_append, length_cons] at hn
    obtain ⟨cmd, s₁, hr, h₁, ht⟩ := parseexec_complete h hat (.inr rfl)
      (show 4 * ts.length + 2 ≤ n by omega)
    obtain ⟨hp, h₂⟩ := peek_spec [bar] (by simp [symbols]) h₁
    obtain ⟨-, hnext⟩ := gettoken_sym h₂
    obtain ⟨right, s₂, hr', h₃, hu⟩ := parsepipe_complete h' hnext hend hbar
      (show 4 * ts'.length + 3 ≤ n by omega)
    refine ⟨_, s₂, ?_, h₃, .pipe ht hu⟩
    rw [hr]
    change (if (peek inp s₁ [bar]).1 = true then _ else _) = _
    rw [hp]
    change (parsepipe inp n _ >>= _) = _
    rw [hr']
    rfl

theorem parseexec_complete {ts₁ : List Token} {t : Tree} (h : Exec ts₁ t) :
    ∀ {s ts₂ n}, At inp s (ts₁ ++ ts₂) → EndsExec ts₂ → 4 * ts₁.length + 2 ≤ n →
    ∃ cmd s', parseexec inp n s = .ok (cmd, s') ∧ At inp s' ts₂ ∧ Text inp cmd t := by
  intro s ts₂ n hat hend hn
  obtain ⟨n, rfl⟩ : ∃ n', n = n' + 1 := ⟨n - 1, by omega⟩
  obtain ⟨hp, h₁⟩ := peek_spec [lpar] (by simp [symbols]) hat
  rw [parseexec]
  dsimp only
  rw [hp]
  have hredir : starts [lt, gt] ts₂ = false := hend.starts fun o => by cases o <;> decide
  cases h with
  | @block ts ts' t rs h hr =>
    rw [cons_append, append_assoc, cons_append] at h₁
    simp only [length_append, length_cons] at hn
    obtain ⟨n, rfl⟩ : ∃ n', n = n' + 1 := ⟨n - 1, by omega⟩
    obtain ⟨hp', h₂⟩ := peek_spec [lpar] (by simp [symbols]) h₁
    obtain ⟨-, hnext⟩ := gettoken_sym h₂
    obtain ⟨cmd, s₁, hline, h₃, ht⟩ := parseline_complete h hnext (.inr rfl)
      (show 4 * ts.length + 4 ≤ n by omega)
    obtain ⟨hp'', h₄⟩ := peek_spec [rpar] (by simp [symbols]) h₃
    obtain ⟨-, hnext'⟩ := gettoken_sym h₄
    have hlen := hnext'.length_le
    rw [length_append] at hlen
    obtain ⟨cmd', s₂, hrun, h₅, ht'⟩ := parseredirs_complete (n := inp.length + 1) hr hnext'
      hredir ht (by omega)
    refine ⟨cmd', s₂, ?_, h₅, ht'⟩
    change parseblock inp (n + 1) _ = _
    rw [parseblock]
    dsimp only
    rw [hp']
    change (parseline inp n _ >>= _) = _
    rw [hline]
    change (if (peek inp s₁ [rpar]).1 = true then _ else _) = _
    rw [hp'']
    exact hrun
  | @args ts ts' ws rs rs' hr ha hlen =>
    have hlp : starts [lpar] (ts ++ ts' ++ ts₂) = false := by
      rw [append_assoc]
      exact starts_redirs hr (fun o => by cases o <;> decide)
        (starts_args ha (hend.starts fun o => by cases o <;> decide))
    have hle := h₁.length_le
    rw [length_append, length_append] at hle
    rw [append_assoc] at h₁
    obtain ⟨cmd, s₁, hrun, h₂, ht⟩ := parseredirs_complete (n := inp.length + 1) hr h₁
      (starts_args ha hredir) (.exec .nil) (by omega)
    obtain ⟨cmd', s₂, hrun', h₃, ht'⟩ := parseargs_complete (n := inp.length + 1) ha h₂ hend ht
      hlen (by omega)
    refine ⟨cmd', s₂, ?_, h₃, ht'⟩
    rw [hlp, if_neg (by decide), hrun]
    exact hrun'

end

/-! ### `nulterminate` -/

/-- The pointers to the ends of the words of a command. -/
def Cmd.ends : Cmd → List Nat
  | .exec args => args.map (·.2)
  | .redir cmd _ efile _ _ => cmd.ends ++ [efile]
  | .pipe l r => l.ends ++ r.ends
  | .list l r => l.ends ++ r.ends
  | .back cmd => cmd.ends

theorem terminate_append (es es' : List Nat) (buf : Bytes) :
    terminate (es ++ es') buf = terminate es' (terminate es buf) := foldl_append

theorem nulterminate_eq (cmd : Cmd) (buf : Bytes) :
    nulterminate cmd buf = terminate cmd.ends buf := by
  induction cmd generalizing buf with
  | exec args => rfl
  | redir cmd file efile mode fd ih =>
    rw [nulterminate, ih, Cmd.ends, terminate_append]
    rfl
  | pipe _ _ ihl ihr | list _ _ ihl ihr => rw [nulterminate, ihl, ihr, Cmd.ends, terminate_append]
  | back cmd ih => rw [nulterminate, ih, Cmd.ends]

theorem getElem?_terminate {es : List Nat} {p : Nat} : ∀ {buf : Bytes}, p < buf.length →
    (terminate es buf)[p]? = if p ∈ es then some none else buf[p]? := by
  induction es with
  | nil => intro buf _; simp [terminate]
  | cons e es ih =>
    intro buf hp
    change (terminate es (buf.set e none))[p]? = _
    rw [ih (by simpa using hp), getElem?_set]
    by_cases h : p ∈ es
    · simp [h]
    by_cases he : e = p
    · subst he
      simp [hp]
    · simp [h, he, Ne.symm he]

/-- The ends of words are no characters of words. -/
theorem Text.ends (h : Text inp cmd t) : ∀ e ∈ cmd.ends, ∀ c ∈ inp[e]?, isWord c = false := by
  induction h with
  | @exec args ws h =>
    induction h with
    | nil => intro e he; cases he
    | cons hs _ ih =>
      intro e he
      rcases mem_cons.mp he with rfl | he
      · exact hs.stop
      · exact ih e he
  | redir h hs ih =>
    intro e he
    rcases mem_append.mp he with he | he
    · exact ih e he
    · rw [mem_singleton.mp he]
      exact hs.stop
  | pipe _ _ ihl ihr | list _ _ ihl ihr =>
    intro e he
    rcases mem_append.mp he with he | he
    · exact ihl e he
    · exact ihr e he
  | back h ih => exact ih

/-- A word in a buffer, with a NUL behind it. -/
theorem readStr_of_getElem? {buf : Bytes} : ∀ {q : Nat},
    (∀ i c, w[i]? = some c → buf[q + i]? = some (some c)) → buf[q + w.length]? = some none →
    readStr (buf.drop q) = .ok w := by
  induction w with
  | nil =>
    intro q _ hend
    rw [length_nil, Nat.add_zero] at hend
    obtain ⟨hlt, he⟩ := List.getElem?_eq_some_iff.mp hend
    rw [drop_eq_getElem_cons hlt, he]
    rfl
  | cons c w ih =>
    intro q hw hend
    have hc := hw 0 c rfl
    rw [Nat.add_zero] at hc
    obtain ⟨hlt, he⟩ := List.getElem?_eq_some_iff.mp hc
    rw [drop_eq_getElem_cons hlt, he, readStr, ih]
    · rfl
    · intro i d hd
      rw [show q + 1 + i = q + (i + 1) by omega]
      exact hw (i + 1) d hd
    · rw [show q + 1 + w.length = q + (c :: w).length by rw [length_cons]; omega]
      exact hend

theorem getElem?_bytes (inp : Str) (p : Nat) (hp : p ≤ inp.length) :
    inp.bytes[p]? = some inp[p]? := by
  unfold Str.bytes
  rcases Nat.lt_or_eq_of_le hp with h | rfl
  · rw [getElem?_append_left (by simpa using h), getElem?_map, getElem?_eq_getElem h]
    rfl
  · rw [getElem?_append_right (by simp), length_map, Nat.sub_self, getElem?_eq_none le_rfl]
    rfl

section Terminated

variable {es : List Nat} (hes : ∀ e ∈ es, ∀ c ∈ inp[e]?, isWord c = false)

include hes

/-- A word is read back. -/
theorem Span.read {q eq : Nat} {w : Str} (h : Span inp q eq w) (he : eq ∈ es) :
    readStr ((terminate es inp.bytes).drop q) = .ok w := by
  obtain ⟨rest, hrest⟩ := h.text
  have hlen : inp.bytes.length = inp.length + 1 := by simp [Str.bytes]
  have hle := h.le
  have heq := h.eq_add
  refine readStr_of_getElem? (fun i c hc => ?_) ?_
  · obtain ⟨hi, -⟩ := List.getElem?_eq_some_iff.mp hc
    have hinp : inp[q + i]? = some c := by
      rw [← getElem?_drop, ← hrest, getElem?_append_left hi, hc]
    have hnot : q + i ∉ es := by
      intro hm
      have hword := h.words c (mem_of_getElem? hc)
      rw [hes _ hm c hinp] at hword
      cases hword
    rw [getElem?_terminate (by omega), if_neg hnot, getElem?_bytes _ _ (by omega), hinp]
  · rw [← heq, getElem?_terminate (by omega), if_pos he]

theorem readArgs_ok {args : List (Nat × Nat)} {ws : List Str}
    (h : List.Forall₂ (fun a w => Span inp a.1 a.2 w) args ws) (hsub : ∀ a ∈ args, a.2 ∈ es) :
    readArgs (terminate es inp.bytes) (args.map (·.1)) = .ok ws := by
  induction h with
  | nil => rfl
  | cons hs _ ih =>
    rw [map_cons, readArgs, hs.read hes (hsub _ mem_cons_self),
      ih fun a ha => hsub a (mem_cons_of_mem _ ha)]
    rfl

theorem Text.read (h : Text inp cmd t) (hsub : ∀ e ∈ cmd.ends, e ∈ es) :
    cmd.read (terminate es inp.bytes) = .ok t := by
  induction h with
  | exec h =>
    rw [Cmd.read, readArgs_ok hes h fun a ha => hsub a.2 (mem_map_of_mem ha)]
    rfl
  | redir h hs ih =>
    rw [Cmd.read, ih fun e he => hsub e (mem_append_left _ he), Res.ok_bind,
      hs.read hes (hsub _ (mem_append_right _ (mem_singleton_self _)))]
    rfl
  | pipe hl hr ihl ihr | list hl hr ihl ihr =>
    rw [Cmd.read, ihl fun e he => hsub e (mem_append_left _ he), Res.ok_bind,
      ihr fun e he => hsub e (mem_append_right _ he)]
    rfl
  | back h ih =>
    rw [Cmd.read, ih hsub]
    rfl

end Terminated

theorem read_nulterminate (h : Text inp cmd t) : cmd.read (nulterminate cmd inp.bytes) = .ok t := by
  rw [nulterminate_eq]
  exact h.read h.ends fun _ he => he

/-! ### `parsecmd` -/

theorem at_zero (h : Spells ts inp) : At inp 0 ts := ⟨Nat.zero_le _, h⟩

/-- The cursor is at the end of the input when no token is left. -/
theorem peek_end (h : At inp s ts) : (peek inp s []).2 = inp.length ↔ ts = [] := by
  have hat : At inp (peek inp s []).2 ts := (peek_spec [] (by simp [symbols]) h).2
  constructor
  · intro he
    have hs := hat.spells
    rw [he, drop_length] at hs
    have hlen := hs.length_le
    exact length_eq_zero_iff.mp (Nat.le_zero.mp hlen)
  · rintro rfl
    have hdrop : inp.drop (peek inp s []).2 = [] := by
      change inp.drop (skip inp isSpace s) = []
      rw [drop_skip, h.spells.nil_inv]
    have hle := drop_eq_nil_iff.mp hdrop
    have := hat.le
    omega

theorem parsecmd_complete (h : Derives inp t) : ∃ cmd buf, parsecmd inp = .ok (cmd, buf) ∧
    cmd.read buf = .ok t := by
  obtain ⟨ts, hs, hline⟩ := h
  have hat : At inp 0 (ts ++ []) := by rw [append_nil]; exact at_zero hs
  have hlen := hs.length_le
  obtain ⟨cmd, s', hr, h₂, ht⟩ := parseline_complete hline hat (.inl rfl)
    (show 4 * ts.length + 4 ≤ 4 * inp.length + 4 by omega)
  refine ⟨cmd, nulterminate cmd inp.bytes, ?_, read_nulterminate ht⟩
  rw [parsecmd, hr]
  change (if (peek inp s' []).2 ≠ inp.length then _ else _) = _
  rw [if_neg (not_not.mpr ((peek_end h₂).mpr rfl))]
  rfl

theorem parsecmd_cases (inp : Str) : (∃ msg, parsecmd inp = .error (.panic msg)) ∨
    ∃ cmd buf t, parsecmd inp = .ok (cmd, buf) ∧ Derives inp t ∧ cmd.read buf = .ok t := by
  obtain ⟨ts, hs⟩ := exists_spells inp
  have hlen := hs.length_le
  rw [parsecmd]
  rcases (parse_cases inp (4 * inp.length + 4)).line (at_zero hs) (by omega) with
    ⟨msg, hr⟩ | ⟨cmd, s', ts₁, ts₂, t, hr, rfl, h₂, hline, ht⟩
  · rw [hr]
    exact .inl ⟨msg, rfl⟩
  rw [hr]
  change (∃ msg, (if (peek inp s' []).2 ≠ inp.length then _ else _) = _) ∨ ∃ cmd' buf t',
    (if (peek inp s' []).2 ≠ inp.length then _ else _) = _ ∧ _
  by_cases hend : (peek inp s' []).2 = inp.length
  · rw [if_neg (not_not.mpr hend)]
    obtain rfl := (peek_end h₂).mp hend
    rw [append_nil] at hs
    exact .inr ⟨cmd, _, t, rfl, ⟨ts₁, hs, hline⟩, read_nulterminate ht⟩
  · rw [if_pos hend]
    exact .inl ⟨_, rfl⟩

/-- **The shell accepts exactly its grammar.**  On every input `parsecmd` ends; it returns, and does
not panic, exactly when the whole input derives from `line`; and what is read from the tree after
`nulterminate` is the tree of the derivation, the only one the input has. -/
theorem parsecmd_iff (inp : Str) : parsecmd inp ≠ .error .deep ∧
    ((∃ r, parsecmd inp = .ok r) ↔ ∃ t, Derives inp t) ∧ ∀ cmd buf, parsecmd inp = .ok (cmd, buf) →
      ∃ t, Derives inp t ∧ cmd.read buf = .ok t ∧ ∀ t', Derives inp t' → t' = t := by
  rcases parsecmd_cases inp with ⟨msg, hr⟩ | ⟨cmd, buf, t, hr, hd, hread⟩
  · refine ⟨fun h => (by rw [hr] at h; cases h), ⟨?_, ?_⟩, ?_⟩
    · rintro ⟨r, h⟩
      rw [hr] at h
      cases h
    · rintro ⟨t, h⟩
      obtain ⟨cmd, buf, h, -⟩ := parsecmd_complete h
      exact ⟨_, h⟩
    · intro cmd buf h
      rw [hr] at h
      cases h
  · refine ⟨fun h => (by rw [hr] at h; cases h), ⟨fun _ => ⟨t, hd⟩, fun _ => ⟨_, hr⟩⟩, ?_⟩
    intro cmd' buf' h
    rw [hr] at h
    cases h
    refine ⟨t, hd, hread, fun t' h' => ?_⟩
    obtain ⟨cmd', buf', h', hread'⟩ := parsecmd_complete h'
    rw [hr] at h'
    cases h'
    rw [hread] at hread'
    exact (Except.ok.inj hread').symm

end Xv6.Shell
