import Xv6.Shell.Parse

/-!
# Shell — Grammar

The command language of the shell.  `Spells` says which tokens a text is made of: symbols and words,
with whitespace anywhere between them; a word is a maximal run of characters that are neither
whitespace nor symbols, and `>` is a token where it is not followed by another one.  Over the tokens
the grammar is

    line  ::= pipe '&'* [';' line]
    pipe  ::= exec ['|' pipe]
    exec  ::= '(' line ')' redir* | redir* (word redir*)*      with at most 9 words
    redir ::= ('<' | '>' | '>>') word

and each derivation has its tree.
-/

namespace Xv6.Shell

/-- The symbols of the language. -/
inductive Sym where
  | lt
  | gt
  | app
  | bar
  | amp
  | semi
  | lpar
  | rpar
  deriving DecidableEq

/-- How a symbol is written. -/
def Sym.text : Sym → Str
  | .lt => [Shell.lt]
  | .gt => [Shell.gt]
  | .app => [Shell.gt, Shell.gt]
  | .bar => [Shell.bar]
  | .amp => [Shell.amp]
  | .semi => [Shell.semi]
  | .lpar => [Shell.lpar]
  | .rpar => [Shell.rpar]

inductive Token where
  | sym (o : Sym)
  | word (w : Str)
  deriving DecidableEq

/-- The text `s` is made of the given tokens. -/
inductive Spells : List Token → Str → Prop where
  | nil : Spells [] []
  | space {ts : List Token} {c : Chr} {s : Str} (hc : isSpace c = true) (h : Spells ts s) :
      Spells ts (c :: s)
  | sym {ts : List Token} {o : Sym} {s : Str} (ho : o = .gt → s.head? ≠ some gt)
      (h : Spells ts s) : Spells (.sym o :: ts) (o.text ++ s)
  | word {ts : List Token} {w s : Str} (hne : w ≠ []) (hw : ∀ c ∈ w, isWord c = true)
      (hs : ∀ c ∈ s.head?, isWord c = false) (h : Spells ts s) : Spells (.word w :: ts) (w ++ s)

/-- What a redirection puts around a command. -/
structure Redir where
  file : Str
  mode : Nat
  fd : Nat

/-- `redir*`. -/
inductive Redirs : List Token → List Redir → Prop where
  | nil : Redirs [] []
  | lt {ts : List Token} {w : Str} {rs : List Redir} (h : Redirs ts rs) :
      Redirs (.sym .lt :: .word w :: ts) (⟨w, O_RDONLY, 0⟩ :: rs)
  | gt {ts : List Token} {w : Str} {rs : List Redir} (h : Redirs ts rs) :
      Redirs (.sym .gt :: .word w :: ts) (⟨w, O_WRONLY ||| O_CREATE, 1⟩ :: rs)
  | app {ts : List Token} {w : Str} {rs : List Redir} (h : Redirs ts rs) :
      Redirs (.sym .app :: .word w :: ts) (⟨w, O_WRONLY ||| O_CREATE, 1⟩ :: rs)

/-- `(word redir*)*`. -/
inductive Args : List Token → List Str → List Redir → Prop where
  | nil : Args [] [] []
  | cons {ts ts' : List Token} {w : Str} {ws : List Str} {rs rs' : List Redir}
      (hr : Redirs ts rs) (h : Args ts' ws rs') :
      Args (.word w :: (ts ++ ts')) (w :: ws) (rs ++ rs')

/-- The redirections `rs` around `t`, the first of them innermost. -/
def wrap (t : Tree) (rs : List Redir) : Tree := rs.foldl (fun t r => .redir t r.file r.mode r.fd) t

/-- `t` in the background, `n` times. -/
def backs (n : Nat) (t : Tree) : Tree := Tree.back^[n] t

mutual

/-- `line`. -/
inductive Line : List Token → Tree → Prop where
  | last {ts : List Token} {t : Tree} (n : Nat) (h : Pipe ts t) :
      Line (ts ++ List.replicate n (.sym .amp)) (backs n t)
  | seq {ts ts' : List Token} {t t' : Tree} (n : Nat) (h : Pipe ts t) (h' : Line ts' t') :
      Line (ts ++ List.replicate n (.sym .amp) ++ .sym .semi :: ts') (.list (backs n t) t')

/-- `pipe`. -/
inductive Pipe : List Token → Tree → Prop where
  | last {ts : List Token} {t : Tree} (h : Exec ts t) : Pipe ts t
  | seq {ts ts' : List Token} {t t' : Tree} (h : Exec ts t) (h' : Pipe ts' t') :
      Pipe (ts ++ .sym .bar :: ts') (.pipe t t')

/-- `exec`. -/
inductive Exec : List Token → Tree → Prop where
  | block {ts ts' : List Token} {t : Tree} {rs : List Redir} (h : Line ts t) (hr : Redirs ts' rs) :
      Exec (.sym .lpar :: (ts ++ .sym .rpar :: ts')) (wrap t rs)
  | args {ts ts' : List Token} {ws : List Str} {rs rs' : List Redir} (hr : Redirs ts rs)
      (ha : Args ts' ws rs') (hlen : ws.length ≤ 9) :
      Exec (ts ++ ts') (wrap (.exec ws) (rs ++ rs'))

end

/-- The text derives from `line`, with the tree `t`. -/
def Derives (s : Str) (t : Tree) : Prop := ∃ ts, Spells ts s ∧ Line ts t

end Xv6.Shell
