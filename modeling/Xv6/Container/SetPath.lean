import Xv6.Container.CString

/-!
# Container — SetPath

`setpath` of `container.c`.  It reads the path of the process and its argument into local buffers,
cuts both with `strtok`, collects pointers to the words in `path_arr`, a `".."` taking the last one
away, copies the words back into `myproc()->path`, and then tests that the container's root is a
prefix of the result.  Every buffer has 128 bytes; a string that does not fit is a fault.

The value `lasts` has when `setpath` is called points into the frame of an earlier call, which is
gone; it is shown as null.  For an empty argument the code reads `path[-1]`, without effect on what
it does.
-/

namespace Xv6

/-- The string literal `"/"` and the local buffers of `setpath` that `path_arr` can point into. -/
inductive Buf where
  | root
  | path
  | tempCurrpath
  | tempPath
  deriving DecidableEq

/-- `path_arr` and the index `i`. -/
structure PathArr where
  arr : Nat → Option (Ptr Buf)
  i : Nat

namespace PathArr

/-- `path_arr[0] = "/"`, and `i` is 1. -/
def init : PathArr := ⟨fun j => if j = 0 then some (.root, 0) else none, 1⟩

/-- `path_arr[j] = p`. -/
def write (a : PathArr) (j : Nat) (p : Option (Ptr Buf)) : Res PathArr :=
  if j < 128 then .ok { a with arr := Function.update a.arr j p }
  else .error (.fault "path_arr: index out of range")

/-- `if (i > 1) path_arr[--i] = 0;` -/
def pop (a : PathArr) : Res PathArr :=
  if a.i > 1 then write { a with i := a.i - 1 } (a.i - 1) none else .ok a

/-- `path_arr[i++] = p` -/
def push (a : PathArr) (p : Ptr Buf) : Res PathArr := do
  let a ← a.write a.i (some p)
  return { a with i := a.i + 1 }

/-- The word `s`, at `p`, is applied to `path_arr`. -/
def addWord (a : PathArr) (s : Str) (p : Ptr Buf) : Res PathArr :=
  if strcmp s dotdot = 0 then a.pop else a.push p

end PathArr

/-- The delimiter of `strtok` in `setpath`. -/
def delimSlash : Str := [slash]

/-- `while (path_arr[i] != 0) { path_arr[++i] = strtok(0, "/"); }` -/
def currLoop : Nat → Tok Buf → PathArr → Res (Tok Buf × PathArr)
  | 0, _, _ => .error (.fault "setpath: the loop does not end")
  | n + 1, st, a =>
    match a.arr a.i with
    | none => .ok (st, a)
    | some _ => do
      let (p, st) ← strtok st none delimSlash
      let a ← PathArr.write { a with i := a.i + 1 } (a.i + 1) p
      currLoop n st a

/-- The loop over the words of the argument; `token_path` is the word at hand. -/
def argLoop : Nat → Tok Buf → PathArr → Option (Ptr Buf) → Res (Tok Buf × PathArr)
  | _, st, a, none => .ok (st, a)
  | 0, _, _, some _ => .error (.fault "setpath: the loop does not end")
  | n + 1, st, a, some t => do
    let s ← st.str t
    let a ← a.addWord s t
    let (t, st) ← strtok st none delimSlash
    argLoop n st a t

/-- The words of the argument, or the whole of it when it has no `'/'`, are added to `path_arr`. -/
def addArg (path pathAddr : Str) (st : Tok Buf) (a : PathArr) : Res (Tok Buf × PathArr) :=
  if pathAddr.contains slash then do
    let (t, st) ← strtok st (some (.tempPath, 0)) delimSlash
    argLoop 128 st a t
  else if strcmp path dotdot = 0 then do
    let a ← a.pop
    return (st, a)
  else do
    let a ← a.write a.i (some (.path, 0))
    return (st, a)

/-- The loop that copies the words `path_arr[j]`, for the `j` in `js`, back into `s`. -/
def copyBack (st : Tok Buf) (a : PathArr) : List Nat → Str → Res Str
  | [], s => .ok s
  | j :: js, s =>
    if j < 128 then
      match a.arr j with
      | none => copyBack st a js s
      | some p => do
        let t ← st.str p
        if t.length > 0 then
          let s ← fit (s ++ t)
          let s ← fit (s ++ [slash])
          copyBack st a js s
        else copyBack st a js s
    else .error (.fault "path_arr: index out of range")

/-- The buffers when the current path and the argument have been copied. -/
def buffers (path currpath temp : Str) : Buf → Bytes
  | .root => Str.bytes [slash]
  | .path => Str.bytes path
  | .tempCurrpath => Str.bytes currpath
  | .tempPath => Str.bytes temp

/-- The new path of a process with path `procPath`. -/
def newPath (procPath path pathAddr : Str) : Res Str := do
  let currpath ← fit procPath
  let temp ← fit pathAddr
  let (p, st) ← strtok ⟨buffers path currpath temp, none⟩ (some (.tempCurrpath, 0)) delimSlash
  let a ← PathArr.init.write 1 p
  let (st, a) ← currLoop 128 st a
  let (st, a) ← addArg path pathAddr st a
  copyBack st a (List.range' 1 a.i) [slash]

/-- An argument that starts with `'/'` is put after the root. -/
def fromRoot (root path : Str) : Res Str :=
  if path.head? = some slash then fit (root ++ path.tail) else .ok path

/-- The last `'/'` is removed. -/
def stripSlash (path : Str) : Str :=
  if path.getLast? = some slash ∧ path.length > 1 then path.dropLast else path

/-- What `setpath` returns, and leaves in `myproc()->path` and in its argument. -/
structure SetpathOut where
  ret : Int
  procPath : Str
  pathAddr : Str
  deriving DecidableEq

/-- What `setpath` writes into `myproc()->path`, before it tests it. -/
def nextPath (procPath path pathAddr : Str) (update : Int) : Res Str :=
  if update ≥ 1 then newPath procPath path pathAddr else fit path

/-- `setpath(index, path_addr, update)`, where the container has the given root. -/
def setpath (root procPath pathAddr : Str) (update : Int) : Res SetpathOut := do
  let path ← fit pathAddr
  let path ← fromRoot root path
  let path := stripSlash path
  if strcmp path dot = 0 then return ⟨0, procPath, pathAddr⟩
  let new ← nextPath procPath path pathAddr update
  if rootcmp root new ≠ 0 then return ⟨-1, if update = 2 then procPath else root, pathAddr⟩
  return ⟨0, if update = 2 then procPath else new, new⟩

end Xv6
