import Xv6.Lib.Run
import Xv6.Container.SetPath

/-!
# Container — Preempt

`setpath` by several processes at once, one call of `strtok` at a time.  The buffers of a `setpath`
are in its own frame, but `lasts`, the place of `strtok`, is one static variable for all of them:
`strtok(0, "/")` goes on in the string of whoever called last, and cuts it there.

`setpathProg` is `setpath` as a program of such steps (`TokProg`); run alone it is the `setpath` of
`SetPath.lean` (`run_setpathProg`).  If every `strtok(0, "/")` is made by the process whose call of
`strtok` has set `lasts` last, each call of `setpath` returns and leaves what it does when it runs
alone (`setpath_independent`); otherwise a process can end up in a directory of another
(`setpath_mixes_paths`).
-/

namespace Xv6

open Lib Function Option Res

/-- A program that writes its buffers, calls `strtok` and reads strings. -/
inductive TokProg (β α : Type) : Type where
  | ret (a : α)
  | stop (e : Stop)
  /-- a string is copied into the buffer `b` -/
  | store (b : β) (l : Bytes) (k : TokProg β α)
  /-- `strtok(s, "/")` -/
  | call (s : Option (Ptr β)) (k : Option (Ptr β) → TokProg β α)
  /-- the string at `p` is read -/
  | read (p : Ptr β) (k : Str → TokProg β α)

namespace TokProg

variable {β γ α α' : Type}

/-- `p`, and then `g` with its result. -/
def bind : TokProg β α → (α → TokProg β α') → TokProg β α'
  | ret a, g => g a
  | stop e, _ => stop e
  | store b l k, g => store b l (k.bind g)
  | call s k, g => call s fun r => (k r).bind g
  | read p k, g => read p fun s => (k s).bind g

instance : Monad (TokProg β) where
  pure := ret
  bind := bind

/-- A step that can stop the machine. -/
def ofRes : Res α → TokProg β α
  | .ok a => ret a
  | .error e => stop e

/-- The program run alone. -/
def run [DecidableEq β] : TokProg β α → Tok β → Res (α × Tok β)
  | ret a, st => .ok (a, st)
  | stop e, _ => .error e
  | store b l k, st => k.run { st with mem := update st.mem b l }
  | call s k, st => strtok st s delimSlash >>= fun x => (k x.1).run x.2
  | read p k, st => st.str p >>= fun s => (k s).run st

/-- What the program has returned. -/
def result? : TokProg β α → Option α
  | ret a => some a
  | _ => none

end TokProg

/-! ### The program -/

/-- `path_arr` and the index `i`, as `PathArr`, with pointers into any frame. -/
structure WordArr (β : Type) where
  arr : Nat → Option (Ptr β)
  i : Nat

section Program

variable {β : Type}

namespace WordArr

/-- `path_arr[0] = "/"`, and `i` is 1. -/
def init (own : Buf → β) : WordArr β := ⟨fun j => if j = 0 then some (own .root, 0) else none, 1⟩

/-- `path_arr[j] = p`. -/
def write (a : WordArr β) (j : Nat) (p : Option (Ptr β)) : Res (WordArr β) :=
  if j < 128 then .ok { a with arr := update a.arr j p }
  else .error (.fault "path_arr: index out of range")

/-- `if (i > 1) path_arr[--i] = 0;` -/
def pop (a : WordArr β) : Res (WordArr β) :=
  if a.i > 1 then write { a with i := a.i - 1 } (a.i - 1) none else .ok a

/-- `path_arr[i++] = p` -/
def push (a : WordArr β) (p : Ptr β) : Res (WordArr β) := do
  let a ← a.write a.i (some p)
  return { a with i := a.i + 1 }

end WordArr

open TokProg

/-- `while (path_arr[i] != 0) { path_arr[++i] = strtok(0, "/"); }` -/
def currProg : Nat → WordArr β → TokProg β (WordArr β)
  | 0, _ => stop (.fault "setpath: the loop does not end")
  | n + 1, a =>
    match a.arr a.i with
    | none => ret a
    | some _ => call none fun p => do
      let a ← ofRes (WordArr.write { a with i := a.i + 1 } (a.i + 1) p)
      currProg n a

/-- The loop over the words of the argument. -/
def argProg : Nat → WordArr β → Option (Ptr β) → TokProg β (WordArr β)
  | _, a, none => ret a
  | 0, _, some _ => stop (.fault "setpath: the loop does not end")
  | n + 1, a, some t => read t fun s => do
    let a ← ofRes (if strcmp s dotdot = 0 then a.pop else a.push t)
    call none fun t => argProg n a t

/-- The words of the argument, or the whole of it when it has no `'/'`, are added to `path_arr`. -/
def addArgProg (own : Buf → β) (path pathAddr : Str) (a : WordArr β) : TokProg β (WordArr β) :=
  if pathAddr.contains slash then call (some (own .tempPath, 0)) fun t => argProg 128 a t
  else ofRes (if strcmp path dotdot = 0 then a.pop else a.write a.i (some (own .path, 0)))

/-- The loop that copies the words back. -/
def copyProg (a : WordArr β) : List Nat → Str → TokProg β Str
  | [], s => ret s
  | j :: js, s =>
    if j < 128 then
      match a.arr j with
      | none => copyProg a js s
      | some p => read p fun t =>
        if t.length > 0 then do
          let s ← ofRes (fit (s ++ t))
          let s ← ofRes (fit (s ++ [slash]))
          copyProg a js s
        else copyProg a js s
    else stop (.fault "path_arr: index out of range")

/-- The new path of a process with path `procPath`; `own` are the buffers of this call. -/
def newPathProg (own : Buf → β) (procPath path pathAddr : Str) : TokProg β Str := do
  let currpath ← ofRes (fit procPath)
  let temp ← ofRes (fit pathAddr)
  store (own .root) (Str.bytes [slash]) <| store (own .path) path.bytes <|
    store (own .tempCurrpath) currpath.bytes <| store (own .tempPath) temp.bytes <|
    call (some (own .tempCurrpath, 0)) fun p => do
      let a ← ofRes ((WordArr.init own).write 1 p)
      let a ← currProg 128 a
      let a ← addArgProg own path pathAddr a
      copyProg a (List.range' 1 a.i) [slash]

/-- What `setpath` writes into `myproc()->path`, before it tests it. -/
def nextPathProg (own : Buf → β) (procPath path pathAddr : Str) (update : Int) : TokProg β Str :=
  if update ≥ 1 then newPathProg own procPath path pathAddr else ofRes (fit path)

/-- `setpath(index, path_addr, update)`. -/
def setpathProg (own : Buf → β) (root procPath pathAddr : Str) (update : Int) :
    TokProg β SetpathOut := do
  let path ← ofRes (fit pathAddr)
  let path ← ofRes (fromRoot root path)
  let path := stripSlash path
  if strcmp path dot = 0 then return ⟨0, procPath, pathAddr⟩
  let new ← nextPathProg own procPath path pathAddr update
  if rootcmp root new ≠ 0 then return ⟨-1, if update = 2 then procPath else root, pathAddr⟩
  return ⟨0, if update = 2 then procPath else new, new⟩

end Program

/-! ### Run alone -/

namespace TokProg

section Run

variable {β α α' : Type} [DecidableEq β]

theorem run_bind (p : TokProg β α) (g : α → TokProg β α') (st : Tok β) :
    (p >>= g).run st = p.run st >>= fun x => (g x.1).run x.2 := by
  change (p.bind g).run st = _
  induction p generalizing st with
  | ret a => rfl
  | stop e => rfl
  | store b l k ih => exact ih _
  | call s k ih =>
    simp only [bind, run]
    cases strtok st s delimSlash with
    | error e => rfl
    | ok x => exact ih x.1 x.2
  | read p k ih =>
    simp only [bind, run]
    cases st.str p with
    | error e => rfl
    | ok s => exact ih s st

theorem run_ofRes (x : Res α) (st : Tok β) :
    (ofRes x : TokProg β α).run st = x.map fun a => (a, st) := by
  cases x <;> rfl

end Run

end TokProg

/-- The array of `SetPath.lean`. -/
def PathArr.words (a : PathArr) : WordArr Buf := ⟨a.arr, a.i⟩

open TokProg

section Alone

variable {st : Tok Buf}

theorem PathArr.words_write (a : PathArr) (j : Nat) (p : Option (Ptr Buf)) :
    a.words.write j p = (a.write j p).map PathArr.words := by
  unfold WordArr.write PathArr.write
  split <;> rfl

theorem PathArr.words_pop (a : PathArr) : a.words.pop = a.pop.map PathArr.words := by
  unfold WordArr.pop PathArr.pop PathArr.words
  dsimp only
  split
  · exact PathArr.words_write { a with i := a.i - 1 } (a.i - 1) none
  · rfl

theorem PathArr.words_push (a : PathArr) (p : Ptr Buf) :
    a.words.push p = (a.push p).map PathArr.words := by
  have hi : a.words.i = a.i := rfl
  unfold WordArr.push PathArr.push
  rw [hi, PathArr.words_write]
  cases a.write a.i (some p) <;> rfl

theorem run_currProg (n : Nat) : ∀ (st : Tok Buf) (a : PathArr),
    (currProg n a.words).run st = (currLoop n st a).map fun x => (x.2.words, x.1) := by
  induction n with
  | zero => intro st a; rfl
  | succ n ih =>
    intro st a
    unfold currProg currLoop
    cases ha : a.arr a.i with
    | none =>
      simp only [PathArr.words, ha]
      rfl
    | some q =>
      simp only [PathArr.words, ha, run]
      cases strtok st none delimSlash with
      | error e => rfl
      | ok x =>
        obtain ⟨p, st'⟩ := x
        simp only [ok_bind]
        have hw := PathArr.words_write { a with i := a.i + 1 } (a.i + 1) p
        simp only [PathArr.words] at hw
        rw [run_bind, run_ofRes, hw]
        cases PathArr.write { a with i := a.i + 1 } (a.i + 1) p with
        | error e => rfl
        | ok a' => exact ih st' a'

theorem run_argProg (n : Nat) : ∀ (st : Tok Buf) (a : PathArr) (t : Option (Ptr Buf)),
    (argProg n a.words t).run st = (argLoop n st a t).map fun x => (x.2.words, x.1) := by
  induction n with
  | zero =>
    intro st a t
    cases t <;> rfl
  | succ n ih =>
    intro st a t
    cases t with
    | none => rfl
    | some t =>
      unfold argProg argLoop
      simp only [run]
      cases st.str t with
      | error e => rfl
      | ok s =>
        simp only [ok_bind]
        have hw : (if strcmp s dotdot = 0 then a.words.pop else a.words.push t) =
            (a.addWord s t).map PathArr.words := by
          unfold PathArr.addWord
          split
          · exact a.words_pop
          · exact a.words_push t
        rw [hw, run_bind, run_ofRes]
        cases a.addWord s t with
        | error e => rfl
        | ok a' =>
          change (strtok st none delimSlash >>= fun x => (argProg n a'.words x.1).run x.2) =
            Except.map _ (strtok st none delimSlash >>= fun x => argLoop n x.2 a' x.1)
          cases strtok st none delimSlash with
          | error e => rfl
          | ok x => exact ih x.2 a' x.1

theorem run_addArgProg (path pathAddr : Str) (st : Tok Buf) (a : PathArr) :
    (addArgProg id path pathAddr a.words).run st =
      (addArg path pathAddr st a).map fun x => (x.2.words, x.1) := by
  unfold addArgProg addArg
  split
  · change (strtok st (some (.tempPath, 0)) delimSlash >>= fun x =>
      (argProg 128 a.words x.1).run x.2) =
      Except.map _ (strtok st (some (.tempPath, 0)) delimSlash >>= fun x => argLoop 128 x.2 a x.1)
    cases strtok st (some (.tempPath, 0)) delimSlash with
    | error e => rfl
    | ok x => exact run_argProg 128 x.2 a x.1
  · rw [run_ofRes]
    split
    · rw [PathArr.words_pop]
      cases a.pop <;> rfl
    have hw := a.words_write a.i (some (.path, 0))
    change Except.map _ (a.words.write a.i (some (.path, 0))) = _
    rw [hw]
    cases a.write a.i (some (.path, 0)) <;> rfl

theorem run_copyProg (a : PathArr) (st : Tok Buf) : ∀ (js : List Nat) (s : Str),
    (copyProg a.words js s).run st = (copyBack st a js s).map fun s => (s, st) := by
  intro js
  induction js with
  | nil => intro s; rfl
  | cons j js ih =>
    intro s
    unfold copyProg copyBack
    split
    · cases ha : a.arr j with
      | none => simp only [PathArr.words, ha]; exact ih s
      | some p =>
        simp only [PathArr.words, ha, run]
        cases st.str p with
        | error e => rfl
        | ok t =>
          simp only [ok_bind]
          split
          · rw [run_bind, run_ofRes]
            cases fit (s ++ t) with
            | error e => rfl
            | ok s₁ =>
              change (ofRes (fit (s₁ ++ [slash])) >>= fun s => copyProg a.words js s).run st = _
              rw [run_bind, run_ofRes]
              change _ = Except.map _ (fit (s₁ ++ [slash]) >>= fun s => copyBack st a js s)
              cases fit (s₁ ++ [slash]) with
              | error e => rfl
              | ok s₂ => exact ih s₂
          · exact ih s
    · rfl

/-- The four buffers of a call. -/
theorem update_buffers (m : Buf → Bytes) (path currpath temp : Str) :
    update (update (update (update m .root (Str.bytes [slash]))
      .path path.bytes) .tempCurrpath currpath.bytes) .tempPath temp.bytes =
      buffers path currpath temp := by
  funext b
  cases b <;> rfl

theorem run_newPathProg (procPath path pathAddr : Str) (m : Buf → Bytes) :
    ((newPathProg id procPath path pathAddr).run ⟨m, none⟩).map Prod.fst =
      newPath procPath path pathAddr := by
  unfold newPathProg newPath
  rw [run_bind, run_ofRes]
  cases fit procPath with
  | error e => rfl
  | ok currpath =>
    change Except.map _ ((ofRes (fit pathAddr) >>= _).run _) = _
    rw [run_bind, run_ofRes]
    cases fit pathAddr with
    | error e => rfl
    | ok temp =>
      simp only [Except.map, ok_bind, run, id_eq, update_buffers]
      cases strtok ⟨buffers path currpath temp, none⟩ (some (.tempCurrpath, 0)) delimSlash with
      | error e => rfl
      | ok x =>
        obtain ⟨q, st⟩ := x
        simp only [ok_bind]
        rw [run_bind, run_ofRes, show WordArr.init id = PathArr.init.words from rfl,
          PathArr.words_write]
        cases PathArr.init.write 1 q with
        | error e => rfl
        | ok a =>
          simp only [Except.map, ok_bind]
          rw [run_bind, run_currProg]
          cases currLoop 128 st a with
          | error e => rfl
          | ok x =>
            simp only [Except.map, ok_bind]
            rw [run_bind, run_addArgProg]
            cases addArg path pathAddr x.1 x.2 with
            | error e => rfl
            | ok y =>
              simp only [Except.map, ok_bind]
              rw [run_copyProg, show y.2.words.i = y.2.i from rfl]
              cases copyBack y.1 y.2 (List.range' 1 y.2.i) [slash] <;> rfl

theorem run_nextPathProg (procPath path pathAddr : Str) (update : Int) (m : Buf → Bytes) :
    ((nextPathProg id procPath path pathAddr update).run ⟨m, none⟩).map Prod.fst =
      nextPath procPath path pathAddr update := by
  unfold nextPathProg nextPath
  split
  · exact run_newPathProg procPath path pathAddr m
  · rw [run_ofRes]
    cases fit path <;> rfl

/-- **Run alone**, the program is `setpath`. -/
theorem run_setpathProg (root procPath pathAddr : Str) (update : Int) (m : Buf → Bytes) :
    ((setpathProg id root procPath pathAddr update).run ⟨m, none⟩).map Prod.fst =
      setpath root procPath pathAddr update := by
  unfold setpathProg setpath
  rw [run_bind, run_ofRes]
  cases fit pathAddr with
  | error e => rfl
  | ok path =>
    simp only [Except.map, ok_bind]
    rw [run_bind, run_ofRes]
    cases fromRoot root path with
    | error e => rfl
    | ok path =>
      have hn := run_nextPathProg procPath (stripSlash path) pathAddr update m
      by_cases hd : strcmp (stripSlash path) dot = 0
      · simp only [Except.map, ok_bind, if_pos hd]
        rfl
      simp only [ok_bind, if_neg hd, run_bind, ← hn, Except.map]
      cases (nextPathProg id procPath (stripSlash path) pathAddr update).run ⟨m, none⟩ with
      | error e => rfl
      | ok x =>
        by_cases hr : rootcmp root x.1 ≠ 0
        · simp only [ok_bind, if_pos hr]; rfl
        · simp only [ok_bind, if_neg hr]; rfl

end Alone

/-! ### In another frame -/

section Frame

variable {β γ α α' : Type}

/-- A pointer into the buffer `b` becomes one into `e b`. -/
def movePtr (e : β → γ) (q : Ptr β) : Ptr γ := (e q.1, q.2)

/-- The second program is the first with its buffers renamed by `e`: it makes the same steps, as
long as the pointers `strtok` returns are renamed too. -/
inductive Moved (e : β → γ) (R : α → α' → Prop) : TokProg β α → TokProg γ α' → Prop where
  | ret {a : α} {a' : α'} (h : R a a') : Moved e R (.ret a) (.ret a')
  | stop (err : Stop) : Moved e R (.stop err) (.stop err)
  | store {b : β} {l : Bytes} {k : TokProg β α} {k' : TokProg γ α'} (h : Moved e R k k') :
      Moved e R (.store b l k) (.store (e b) l k')
  | call {s : Option (Ptr β)} {k : Option (Ptr β) → TokProg β α}
      {k' : Option (Ptr γ) → TokProg γ α'}
      (h : ∀ r, Moved e R (k r) (k' (r.map (movePtr e)))) :
      Moved e R (.call s k) (.call (s.map (movePtr e)) k')
  | read {q : Ptr β} {k : Str → TokProg β α} {k' : Str → TokProg γ α'}
      (h : ∀ s, Moved e R (k s) (k' s)) : Moved e R (.read q k) (.read (movePtr e q) k')

variable {e : β → γ}

theorem Moved.bind {δ δ' : Type} {R : α → α' → Prop} {S : δ → δ' → Prop} {p : TokProg β α}
    {p' : TokProg γ α'} {g : α → TokProg β δ} {g' : α' → TokProg γ δ'} (hp : Moved e R p p')
    (hg : ∀ a a', R a a' → Moved e S (g a) (g' a')) : Moved e S (p >>= g) (p' >>= g') := by
  change Moved e S (p.bind g) (p'.bind g')
  induction hp with
  | ret h => exact hg _ _ h
  | stop err => exact .stop err
  | store _ ih => exact .store ih
  | call _ ih => exact .call ih
  | read _ ih => exact .read ih

theorem Moved.ofRes (x : Res α) : Moved e Eq (ofRes x : TokProg β α) (ofRes x) := by
  cases x with
  | ok a => exact .ret rfl
  | error err => exact .stop err

/-- The same array, with its pointers renamed. -/
structure MovedArr (e : β → γ) (a : WordArr β) (a' : WordArr γ) : Prop where
  i : a'.i = a.i
  arr : ∀ j, a'.arr j = (a.arr j).map (movePtr e)

variable {a : WordArr β} {a' : WordArr γ}

theorem MovedArr.write (h : MovedArr e a a') (j : Nat) (q : Option (Ptr β)) :
    Moved e (MovedArr e) (TokProg.ofRes (a.write j q))
      (TokProg.ofRes (a'.write j (q.map (movePtr e)))) := by
  unfold WordArr.write
  split
  · refine .ret ⟨h.i, fun m => ?_⟩
    dsimp only
    by_cases hm : m = j
    · subst hm; rw [update_self, update_self]
    · rw [update_of_ne hm, update_of_ne hm]; exact h.arr m
  · exact .stop _

theorem MovedArr.setI (h : MovedArr e a a') (n : Nat) :
    MovedArr e { a with i := n } { a' with i := n } := ⟨rfl, h.arr⟩

theorem MovedArr.pop (h : MovedArr e a a') :
    Moved e (MovedArr e) (TokProg.ofRes a.pop) (TokProg.ofRes a'.pop) := by
  unfold WordArr.pop
  rw [h.i]
  split
  · exact (h.setI (a.i - 1)).write (a.i - 1) none
  · exact .ret h

theorem ofRes_bind {x : Res α} {f : α → Res α'} :
    (TokProg.ofRes (x >>= f) : TokProg β α') = TokProg.ofRes x >>= fun a => TokProg.ofRes (f a) := by
  cases x <;> rfl

theorem MovedArr.push (h : MovedArr e a a') (q : Ptr β) :
    Moved e (MovedArr e) (TokProg.ofRes (a.push q)) (TokProg.ofRes (a'.push (movePtr e q))) := by
  unfold WordArr.push
  rw [ofRes_bind, ofRes_bind, h.i]
  refine (h.write a.i (some q)).bind fun b b' hb => .ret ?_
  rw [hb.i]
  exact hb.setI (b.i + 1)

theorem moved_currProg (n : Nat) : ∀ {a : WordArr β} {a' : WordArr γ}, MovedArr e a a' →
    Moved e (MovedArr e) (currProg n a) (currProg n a') := by
  induction n with
  | zero => intro a a' _; exact .stop _
  | succ n ih =>
    intro a a' h
    unfold currProg
    rw [h.i, h.arr]
    cases a.arr a.i with
    | none => exact .ret h
    | some q =>
      refine .call (s := none) fun r => ?_
      exact ((h.setI (a.i + 1)).write (a.i + 1) r).bind fun b b' hb => ih hb

theorem moved_argProg (n : Nat) : ∀ {a : WordArr β} {a' : WordArr γ} (t : Option (Ptr β)),
    MovedArr e a a' → Moved e (MovedArr e) (argProg n a t) (argProg n a' (t.map (movePtr e))) := by
  induction n with
  | zero =>
    intro a a' t h
    cases t with
    | none => exact .ret h
    | some t => exact .stop _
  | succ n ih =>
    intro a a' t h
    cases t with
    | none => exact .ret h
    | some t =>
      refine .read fun s => ?_
      have hw : Moved e (MovedArr e)
          (TokProg.ofRes (if strcmp s dotdot = 0 then a.pop else a.push t))
          (TokProg.ofRes (if strcmp s dotdot = 0 then a'.pop else a'.push (movePtr e t))) := by
        split
        · exact h.pop
        · exact h.push t
      exact hw.bind fun b b' hb => .call (s := none) fun r => ih r hb

theorem moved_copyProg (h : MovedArr e a a') : ∀ (js : List Nat) (s : Str),
    Moved e Eq (copyProg a js s) (copyProg a' js s) := by
  intro js
  induction js with
  | nil => intro s; exact .ret rfl
  | cons j js ih =>
    intro s
    unfold copyProg
    rw [h.arr]
    split
    · cases a.arr j with
      | none => exact ih s
      | some q =>
        refine .read fun t => ?_
        split
        · refine (Moved.ofRes _).bind ?_
          rintro s₁ _ rfl
          refine (Moved.ofRes _).bind ?_
          rintro s₂ _ rfl
          exact ih s₂
        · exact ih s
    · exact .stop _

theorem moved_addArgProg {e : Buf → γ} {a : WordArr Buf} (h : MovedArr e a a')
    (path pathAddr : Str) :
    Moved e (MovedArr e) (addArgProg id path pathAddr a) (addArgProg e path pathAddr a') := by
  unfold addArgProg
  split
  · exact .call (s := some (.tempPath, 0)) fun r => moved_argProg 128 r h
  split
  · exact h.pop
  · rw [h.i]
    exact h.write a.i (some (.path, 0))

theorem moved_init (e : Buf → γ) : MovedArr e (WordArr.init id) (WordArr.init e) := by
  refine ⟨rfl, fun j => ?_⟩
  dsimp only [WordArr.init]
  split <;> rfl

theorem moved_newPathProg (e : Buf → γ) (procPath path pathAddr : Str) :
    Moved e Eq (newPathProg id procPath path pathAddr) (newPathProg e procPath path pathAddr) := by
  unfold newPathProg
  refine (Moved.ofRes _).bind ?_
  rintro currpath _ rfl
  refine (Moved.ofRes _).bind ?_
  rintro temp _ rfl
  refine .store (.store (.store (.store (.call (s := some (Buf.tempCurrpath, 0)) fun r => ?_))))
  refine ((moved_init e).write 1 r).bind fun a a' h => ?_
  refine (moved_currProg 128 h).bind fun a a' h => ?_
  refine (moved_addArgProg h path pathAddr).bind fun a a' h => ?_
  rw [h.i]
  exact moved_copyProg h _ _

/-- `setpath` makes the same steps in every frame. -/
theorem moved_setpathProg (e : Buf → γ) (root procPath pathAddr : Str) (update : Int) :
    Moved e Eq (setpathProg id root procPath pathAddr update)
      (setpathProg e root procPath pathAddr update) := by
  unfold setpathProg
  refine (Moved.ofRes _).bind ?_
  rintro path _ rfl
  refine (Moved.ofRes _).bind ?_
  rintro path _ rfl
  dsimp only
  split
  · exact .ret rfl
  have hn : Moved e Eq (nextPathProg id procPath (stripSlash path) pathAddr update)
      (nextPathProg e procPath (stripSlash path) pathAddr update) := by
    unfold nextPathProg
    split
    · exact moved_newPathProg e _ _ _
    · exact Moved.ofRes _
  refine hn.bind ?_
  rintro new _ rfl
  split <;> exact .ret rfl

end Frame

/-! ### Several processes -/

/-- A call of `setpath`: the root of the container, the path of the process, and the arguments. -/
structure PathCall where
  root : Str
  procPath : Str
  pathAddr : Str
  update : Int

/-- What the call returns and leaves when it runs alone. -/
def PathCall.alone (c : PathCall) : Res SetpathOut :=
  setpath c.root c.procPath c.pathAddr c.update

/-- The frames of the calls and `lasts`, the process whose call of `strtok` has set it, and what each
process has still to do. -/
structure Preempted (τ : Type) where
  tok : Tok (τ × Buf)
  setter : Option τ
  prog : τ → TokProg (τ × Buf) SetpathOut

namespace Preempted

variable {τ : Type} [DecidableEq τ]

/-- The calls begin. -/
def init (c : τ → PathCall) : Preempted τ where
  tok := ⟨fun _ => [], none⟩
  setter := none
  prog p := setpathProg (Prod.mk p) (c p).root (c p).procPath (c p).pathAddr (c p).update

/-- The pointer is into the frame of a call that has not returned. -/
def live (w : Preempted τ) (q : Ptr (τ × Buf)) : Res Unit :=
  if ((w.prog q.1.1).result?).isNone then .ok ()
  else .error (.fault "setpath: the frame is gone")

/-- The pointer that `strtok(s, "/")` starts from. -/
def start (w : Preempted τ) (s : Option (Ptr (τ × Buf))) : Res (Ptr (τ × Buf)) :=
  match s.or w.tok.lasts with
  | some q => .ok q
  | none => .error (.fault "strtok: null pointer")

/-- The next step of `p`.  A call that has returned does nothing more. -/
def step (w : Preempted τ) (p : τ) : Res (Preempted τ) :=
  match w.prog p with
  | .ret _ => .ok w
  | .stop e => .error e
  | .store b l k =>
    .ok { w with
      tok := { w.tok with mem := update w.tok.mem b l }
      prog := update w.prog p k }
  | .call s k => do
    let q ← w.start s
    w.live q
    let x ← strtokAt w.tok q delimSlash
    return ⟨x.2, if x.1.isSome then some p else w.setter, update w.prog p (k x.1)⟩
  | .read q k => do
    w.live q
    let s ← w.tok.str q
    return { w with prog := update w.prog p (k s) }

/-- One step. -/
def Step (w : Preempted τ) (p : τ) (w' : Preempted τ) : Prop := w.step p = .ok w'

/-- The next step is a call `strtok(0, "/")`. -/
def continues : TokProg (τ × Buf) SetpathOut → Bool
  | .call none _ => true
  | _ => false

/-- A process that calls `strtok(0, "/")` has itself set `lasts`. -/
def InOrder (w : Preempted τ) (p : τ) : Prop := continues (w.prog p) = true → w.setter = some p

/-! ### `strtok` in a frame -/

variable {tok : Tok (τ × Buf)} {st st' : Tok Buf} {p : τ} {q : Ptr Buf} {e : Stop} {β : Type}
  {o : SetpathOut}

section

variable (hm : ∀ b, tok.mem (p, b) = st.mem b)

include hm

theorem setLasts_frame (h : setLasts st q = .ok st') :
    ∃ tok', setLasts tok (movePtr (Prod.mk p) q) = .ok tok' ∧
      (∀ b, tok'.mem (p, b) = st'.mem b) ∧ (∀ x, x.1 ≠ p → tok'.mem x = tok.mem x) ∧
      tok'.lasts = st'.lasts.map (movePtr (Prod.mk p)) := by
  obtain ⟨b, n⟩ := q
  unfold setLasts at h ⊢
  dsimp only [movePtr] at h ⊢
  rw [hm b]
  cases hq : (st.mem b)[n]? with
  | none => rw [hq] at h; cases h
  | some o =>
    rw [hq] at h
    cases o with
    | none => cases h; exact ⟨_, rfl, hm, fun _ _ => rfl, rfl⟩
    | some c =>
      cases h
      refine ⟨_, rfl, fun b' => ?_, fun x hx => ?_, rfl⟩
      · by_cases e : b' = b
        · subst e
          dsimp only
          rw [update_self, update_self]
        · dsimp only
          rw [update_of_ne (by simpa using e), update_of_ne e]
          exact hm b'
      · refine update_of_ne ?_ _ _
        rintro rfl
        exact hx rfl

/-- `strtok` on a string in the frame of `p` does what it does when `p` is alone, and nothing to the
other frames. -/
theorem strtokAt_frame {r : Option (Ptr Buf)} (h : strtokAt st q delimSlash = .ok (r, st')) :
    ∃ tok', strtokAt tok (movePtr (Prod.mk p) q) delimSlash =
        .ok (r.map (movePtr (Prod.mk p)), tok') ∧
      (∀ b, tok'.mem (p, b) = st'.mem b) ∧ (∀ x, x.1 ≠ p → tok'.mem x = tok.mem x) ∧
      if r.isSome then tok'.lasts = st'.lasts.map (movePtr (Prod.mk p))
      else tok'.lasts = tok.lasts ∧ st'.lasts = st.lasts := by
  obtain ⟨b, n⟩ := q
  unfold strtokAt at h ⊢
  dsimp only [movePtr] at h ⊢
  rw [hm b]
  obtain ⟨o, ho, h⟩ := of_bind h
  rw [ho]
  cases o with
  | none => cases h; exact ⟨tok, rfl, hm, fun _ _ => rfl, rfl, rfl⟩
  | some m =>
    obtain ⟨len, hlen, h⟩ := of_bind h
    obtain ⟨st₁, hst, h⟩ := of_bind h
    cases h
    obtain ⟨tok', htok, hmem, hother, hlasts⟩ := setLasts_frame hm hst
    refine ⟨tok', ?_, hmem, hother, hlasts⟩
    simp only [ok_bind, hlen]
    rw [show ((p, b), n + m + len) = movePtr (Prod.mk p) (b, n + m + len) from rfl, htok]
    rfl

theorem setLasts_frame_error (h : setLasts st q = .error e) :
    setLasts tok (movePtr (Prod.mk p) q) = .error e := by
  obtain ⟨b, n⟩ := q
  unfold setLasts at h ⊢
  dsimp only [movePtr] at h ⊢
  rw [hm b]
  cases hq : (st.mem b)[n]? with
  | none => rw [hq] at h; cases h; rfl
  | some o =>
    rw [hq] at h
    cases o <;> cases h

theorem strtokAt_frame_error (h : strtokAt st q delimSlash = .error e) :
    strtokAt tok (movePtr (Prod.mk p) q) delimSlash = .error e := by
  obtain ⟨b, n⟩ := q
  unfold strtokAt at h ⊢
  dsimp only [movePtr] at h ⊢
  rw [hm b]
  cases ho : skipDelims delimSlash ((st.mem b).drop n) with
  | error e' => rw [ho] at h; cases h; rfl
  | ok o =>
    rw [ho] at h
    cases o with
    | none => cases h
    | some m =>
      simp only [ok_bind] at h ⊢
      cases hlen : strcspn delimSlash ((st.mem b).drop (n + m)) with
      | error e' => rw [hlen] at h; cases h; rfl
      | ok len =>
        rw [hlen, ok_bind] at h
        rw [ok_bind]
        rcases bind_eq_error.mp h with h | ⟨x, -, h⟩
        · exact bind_eq_error.mpr (.inl (setLasts_frame_error hm h))
        · cases h

end

theorem strtok_eq [DecidableEq β] (st : Tok β) (s : Option (Ptr β)) {q : Ptr β}
    (hq : s.or st.lasts = some q) : strtok st s delimSlash = strtokAt st q delimSlash := by
  cases s with
  | some s => cases hq; rfl
  | none =>
    rw [none_or] at hq
    simp only [strtok, hq]

omit [DecidableEq τ] in
theorem str_frame (hm : ∀ b, tok.mem (p, b) = st.mem b) (q : Ptr Buf) :
    tok.str (movePtr (Prod.mk p) q) = st.str q := by
  unfold Tok.str movePtr
  rw [hm]

/-! ### The invariant -/

variable {c : τ → PathCall} {w w' : Preempted τ}

/-- Process `p` is where it is when it runs alone: what it has still to do is a program that, run
alone from the contents of its frame, ends as the call does.  If `p` has set `lasts`, it points where
it does when `p` runs alone. -/
def Follows (c : PathCall) (p : τ) (w : Preempted τ) : Prop :=
  ∃ prog st, Moved (Prod.mk p) Eq prog (w.prog p) ∧ (prog.run st).map Prod.fst = c.alone ∧
    (∀ b, w.tok.mem (p, b) = st.mem b) ∧
    (w.setter = some p → w.tok.lasts = st.lasts.map (movePtr (Prod.mk p)))

omit [DecidableEq τ] in
theorem follows_init (c : τ → PathCall) (p : τ) : Follows (c p) p (init c) := by
  refine ⟨_, ⟨fun _ => [], none⟩, moved_setpathProg (Prod.mk p) _ _ _ _, ?_, fun _ => rfl,
    fun h => by cases h⟩
  exact run_setpathProg _ _ _ _ _

/-- **A step of `p`.** -/
theorem follows_self {c : PathCall} (h : Follows c p w) (hs : Step w p w') (hok : InOrder w p) :
    Follows c p w' ∧ (∀ x, x.1 ≠ p → w'.tok.mem x = w.tok.mem x) ∧
      (∀ q, q ≠ p → w'.prog q = w.prog q) ∧
      (w'.setter = some p ∨ (w'.setter = w.setter ∧ w'.tok.lasts = w.tok.lasts)) := by
  obtain ⟨prog, st, hmv, hrun, hm, hl⟩ := h
  unfold Step step at hs
  have hprog : ∀ (k : TokProg (τ × Buf) SetpathOut) q, q ≠ p →
      update w.prog p k q = w.prog q := fun k q hq => update_of_ne hq _ _
  generalize hw : w.prog p = prog' at hmv hs
  cases hmv with
  | ret hr =>
    cases hs
    exact ⟨⟨_, st, hw ▸ .ret hr, hrun, hm, hl⟩, fun _ _ => rfl, fun _ _ => rfl, .inr ⟨rfl, rfl⟩⟩
  | stop e => cases hs
  | @store b l k k' hk =>
    cases hs
    refine ⟨⟨k, { st with mem := update st.mem b l }, ?_, hrun, fun b' => ?_, hl⟩,
      fun x hx => ?_, hprog k', .inr ⟨rfl, rfl⟩⟩
    · dsimp only
      rw [update_self]
      exact hk
    · dsimp only
      by_cases e : b' = b
      · subst e; rw [update_self, update_self]
      · rw [update_of_ne (by simpa using e), update_of_ne e]
        exact hm b'
    · refine update_of_ne ?_ _ _
      rintro rfl
      exact hx rfl
  | @call s k k' hk =>
    obtain ⟨q', hstart, hs⟩ := of_bind hs
    obtain ⟨-, -, hs⟩ := of_bind hs
    obtain ⟨x, hx, hs⟩ := of_bind hs
    cases hs
    -- `strtok` starts in the frame of `p`
    obtain ⟨q, hq, rfl⟩ : ∃ q, s.or st.lasts = some q ∧ q' = movePtr (Prod.mk p) q := by
      have hor : (s.map (movePtr (Prod.mk p))).or w.tok.lasts =
          (s.or st.lasts).map (movePtr (Prod.mk p)) := by
        cases s with
        | some s => rfl
        | none => exact hl (hok (by rw [hw]; rfl))
      unfold start at hstart
      rw [hor] at hstart
      cases hz : s.or st.lasts with
      | none => rw [hz] at hstart; cases hstart
      | some q => rw [hz] at hstart; cases hstart; exact ⟨q, rfl, rfl⟩
    cases hst : strtokAt st q delimSlash with
    | error e => rw [strtokAt_frame_error hm hst] at hx; cases hx
    | ok y =>
      obtain ⟨r, st'⟩ := y
      obtain ⟨tok', htok, hmem, hother, hlasts⟩ := strtokAt_frame hm hst
      rw [htok] at hx
      cases hx
      refine ⟨⟨k r, st', ?_, ?_, hmem, fun hset => ?_⟩, hother, hprog _, ?_⟩
      · dsimp only
        rw [update_self]
        exact hk r
      · rw [← hrun]
        simp only [TokProg.run, strtok_eq st s hq, hst, ok_bind]
      · cases r with
        | some z => exact hlasts
        | none => exact hlasts.1.trans ((hl hset).trans (by rw [hlasts.2]))
      · cases r with
        | some z => exact .inl rfl
        | none => exact .inr ⟨rfl, hlasts.1⟩
  | @read q k k' hk =>
    obtain ⟨-, -, hs⟩ := of_bind hs
    obtain ⟨t, ht, hs⟩ := of_bind hs
    cases hs
    rw [str_frame hm] at ht
    refine ⟨⟨k t, st, ?_, ?_, hm, hl⟩, fun _ _ => rfl, hprog _, .inr ⟨rfl, rfl⟩⟩
    · dsimp only
      rw [update_self]
      exact hk t
    · rw [← hrun]
      simp only [TokProg.run, ht, ok_bind]

omit [DecidableEq τ] in
/-- A step of another process. -/
theorem follows_other {c : PathCall} {q : τ} (h : Follows c q w)
    (hmem : ∀ b, w'.tok.mem (q, b) = w.tok.mem (q, b)) (hprog : w'.prog q = w.prog q)
    (hset : w'.setter ≠ some q ∨ (w'.setter = w.setter ∧ w'.tok.lasts = w.tok.lasts)) :
    Follows c q w' := by
  obtain ⟨prog, st, hmv, hrun, hm, hl⟩ := h
  refine ⟨prog, st, hprog ▸ hmv, hrun, fun b => (hmem b).trans (hm b), fun hq => ?_⟩
  rcases hset with hset | ⟨hset, hlasts⟩
  · exact absurd hq hset
  · exact hlasts.trans (hl (hset.symm.trans hq))

/-- **One step.** -/
theorem follows_step (h : ∀ q, Follows (c q) q w) (hs : Step w p w') (hok : InOrder w p) :
    ∀ q, Follows (c q) q w' := by
  obtain ⟨hp, hmem, hprog, hset⟩ := follows_self (h p) hs hok
  intro q
  by_cases e : q = p
  · rw [e]; exact hp
  · refine follows_other (h q) (fun b => hmem (q, b) e) (hprog q e) (hset.imp_left fun hset hq => ?_)
    rw [hset] at hq
    exact e (some.inj hq).symm

omit [DecidableEq τ] in
/-- A call that has returned has returned what it returns alone. -/
theorem Follows.returned {c : PathCall} (h : Follows c p w) (hret : w.prog p = .ret o) :
    c.alone = .ok o := by
  obtain ⟨prog, st, hmv, hrun, -⟩ := h
  rw [hret] at hmv
  cases hmv with
  | ret hr => rw [← hrun, ← hr]; rfl

omit [DecidableEq τ] in
/-- The frame of a call that has something to do is there. -/
theorem live_self (h : (w.prog p).result? = none) : w.live (movePtr (Prod.mk p) q) = .ok () := by
  unfold live movePtr
  rw [h]
  rfl

/-- A call that returns when it runs alone can go on when its turn is in order. -/
theorem Follows.progress {c : PathCall} (h : Follows c p w) (ho : c.alone = .ok o)
    (hok : InOrder w p) : ∃ w', Step w p w' := by
  obtain ⟨prog, st, hmv, hrun, hm, hl⟩ := h
  rw [ho] at hrun
  unfold Step step
  generalize hw : w.prog p = prog' at hmv
  cases hmv with
  | ret _ => exact ⟨w, rfl⟩
  | stop e => cases hrun
  | store _ => exact ⟨_, rfl⟩
  | @call s k k' hk =>
    have hlive : ∀ q, w.live (movePtr (Prod.mk p) q) = .ok () := fun q =>
      live_self (by rw [hw]; rfl)
    -- alone, the call of `strtok` returns
    cases hst : strtok st s delimSlash with
    | error e => simp only [TokProg.run, hst] at hrun; cases hrun
    | ok x =>
      cases hq : s.or st.lasts with
      | none =>
        cases s with
        | some s => cases hq
        | none => rw [none_or] at hq; simp only [strtok, hq] at hst; cases hst
      | some q =>
        rw [strtok_eq st s hq] at hst
        have hstart : w.start (s.map (movePtr (Prod.mk p))) = .ok (movePtr (Prod.mk p) q) := by
          unfold start
          cases s with
          | some s => cases hq; rfl
          | none =>
            rw [none_or] at hq
            rw [map_none, none_or, hl (hok (by rw [hw]; rfl)), hq]
            rfl
        obtain ⟨tok', htok, -⟩ := strtokAt_frame hm hst
        simp only [hstart, ok_bind, hlive, htok]
        exact ⟨_, rfl⟩
  | @read q k k' hk =>
    have hlive : w.live (movePtr (Prod.mk p) q) = .ok () := live_self (by rw [hw]; rfl)
    cases hst : st.str q with
    | error e => simp only [TokProg.run, hst] at hrun; cases hrun
    | ok t =>
      simp only [hlive, ok_bind, str_frame hm, hst]
      exact ⟨_, rfl⟩

/-! ### Runs -/

/-- **Calls of `setpath` do not disturb each other**, if each `strtok(0, "/")` is made by the process
that has set `lasts`.  In every run of any number of calls: a call that has returned has returned,
and left in the path of its process and in its argument, what it does when it runs alone; and a call
that returns when it runs alone can always go on. -/
theorem setpath_independent {t : List (Preempted τ × τ)} (hr : Run Step (init c) t w)
    (hok : ∀ x ∈ t, InOrder x.1 x.2) (p : τ) : (∀ o, w.prog p = .ret o → (c p).alone = .ok o) ∧
      ∀ o, (c p).alone = .ok o → InOrder w p → ∃ w', Step w p w' := by
  have h := (hr.inv (I := fun w => ∀ q, Follows (c q) q w)
    (fun w p _ h hs (hok : InOrder w p) => follows_step h hs hok) (follows_init c) hok).2 p
  exact ⟨fun o hret => h.returned hret, fun o ho hturn => h.progress ho hturn⟩

instance (w : Preempted τ) (p : τ) : Decidable (InOrder w p) :=
  inferInstanceAs (Decidable (_ → _))

/-- `Step` as a function. -/
def exec? (w : Preempted τ) (p : τ) : Option (Preempted τ) := (w.step p).toOption

theorem step_of_exec? (w : Preempted τ) (p : τ) (w' : Preempted τ) (h : w.exec? p = some w') :
    Step w p w' := toOption_eq_some.mp h

/-- The string `"/r/"`, the root of a container. -/
def rootDir : Str := [slash, ⟨114, by decide⟩, slash]

/-- Two processes of the container: one in `/r/u/` changes to `x`, one in `/r/v/` to `y`. -/
def twoCalls (i : Fin 2) : PathCall :=
  if i.val = 0 then ⟨rootDir, rootDir ++ [⟨117, by decide⟩, slash], [⟨120, by decide⟩], 1⟩
  else ⟨rootDir, rootDir ++ [⟨118, by decide⟩, slash], [⟨121, by decide⟩], 1⟩

/-- What the first of them leaves when it runs alone: `/r/u/x/`. -/
def outAX : SetpathOut :=
  ⟨0, rootDir ++ [⟨117, by decide⟩, slash, ⟨120, by decide⟩, slash],
    rootDir ++ [⟨117, by decide⟩, slash, ⟨120, by decide⟩, slash]⟩

/-- What it leaves when the two calls mix: `/r/v/x/`. -/
def outBX : SetpathOut :=
  ⟨0, rootDir ++ [⟨118, by decide⟩, slash, ⟨120, by decide⟩, slash],
    rootDir ++ [⟨118, by decide⟩, slash, ⟨120, by decide⟩, slash]⟩

theorem eq_ret_of_result? {α : Type} {prog : TokProg β α} {a : α} (h : prog.result? = some a) :
    prog = .ret a := by
  cases prog with
  | ret b => cases h; rfl
  | stop | store | call | read => cases h

/-- The two calls take turns until their buffers are written; then one cuts its strings after the
other. -/
theorem setpath_independent_turns : ∃ t w, Run Step (init twoCalls) t w ∧ w.prog 0 = .ret outAX ∧
    (twoCalls 0).alone = .ok outAX := by
  obtain ⟨w, hr, hret⟩ := exists_run step_of_exec? (init twoCalls)
    [0, 1, 0, 1, 0, 1, 0, 1, 0, 0, 0, 1, 1, 1, 0, 0, 0]
    (fun w => (w.prog 0).result? = some outAX) (by decide +kernel)
  have hok : ∀ x ∈ traceFn exec? (init twoCalls)
      [0, 1, 0, 1, 0, 1, 0, 1, 0, 0, 0, 1, 1, 1, 0, 0, 0], InOrder x.1 x.2 := by decide +kernel
  have hret := eq_ret_of_result? hret
  exact ⟨_, w, hr, hret, (setpath_independent hr hok 0).1 outAX hret⟩

/-- **Two calls mix their paths.**  The process in `/r/u/` is interrupted after its first call of
`strtok` by the process in `/r/v/`; its next `strtok(0, "/")` returns the word `v` of the other, and
it ends up in `/r/v/x/`. -/
theorem setpath_mixes_paths : (twoCalls 0).alone = .ok outAX ∧
    ∃ t w, Run Step (init twoCalls) t w ∧ w.prog 0 = .ret outBX ∧ outBX ≠ outAX := by
  obtain ⟨w, hr, hret⟩ := exists_run step_of_exec? (init twoCalls)
    [0, 0, 0, 0, 0, 1, 1, 1, 1, 1, 0, 0, 0, 0, 0]
    (fun w => (w.prog 0).result? = some outBX) (by decide +kernel)
  exact ⟨by decide +kernel, _, w, hr, eq_ret_of_result? hret, by decide +kernel⟩

end Preempted

end Xv6
