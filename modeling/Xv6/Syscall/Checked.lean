import Xv6.Syscall.Access

/-!
# Syscall — Checked

Which system calls touch only memory of the calling process.

* `read`, `write`, `fstat`, `pipe`, `exec` and `get_proc_pipe` check what they are given: whatever
  the user's memory and the arguments are, every access is below the size of the process.
* `mutex_create`, `mutex_get` and `setvc` pass the size `sizeof(..) < 0`, which is 0, to `argptr`:
  the byte at the pointer is checked and nothing after it.
* `getname`, `getpath` and `chdir` check the string that the user's buffer holds and then write
  another string into it.

`checked_iff` says for each of them when its accesses stay in the process.
-/

namespace Xv6

open Lib List

variable {lim a n off addr : Nat} {m : Umem} {ip : Uinode} {f : Ufile} {root arg : Str}

/-! ### Running the routines -/

theorem noTrap_storeAll {xs : List UInt8} (h : a + xs.length ≤ lim) :
    NoTrap (storeAll lim a xs : User Unit) m :=
  wp_storeAll.mpr ⟨fun _ _ _ => by omega, trivial⟩

theorem noTrap_loadAll (h : a + n ≤ lim) : NoTrap (loadAll lim a n : User _) m :=
  wp_loadAll.mpr ⟨fun _ _ _ => by omega, trivial⟩

theorem length_leBytes (k w : Nat) : (leBytes k w).length = k := by
  induction k generalizing w with
  | zero => rfl
  | succ k ih => rw [leBytes, length_cons, ih]

theorem leWord_lt (bs : List UInt8) : leWord bs < 256 ^ bs.length := by
  induction bs with
  | nil => decide
  | cons b bs ih =>
    have hb := b.toNat_lt
    have he : leWord (b :: bs) = b.toNat + 256 * leWord bs := rfl
    rw [he, length_cons, Nat.pow_succ]
    omega

/-! ### Files -/

theorem noTrap_consoleLoop (input : List UInt8) : ∀ {n dst : Nat} {m : Umem}, dst + n ≤ lim →
    NoTrap (consoleLoop lim input n dst) m := by
  induction input with
  | nil =>
    intro n dst m _
    cases n with
    | zero => exact noTrap_pure
    | succ n => exact noTrap_pure
  | cons c cs ih =>
    intro n dst m h
    cases n with
    | zero => exact noTrap_pure
    | succ n =>
      rw [consoleLoop]
      refine noTrap_ite (fun _ => noTrap_pure) fun _ => wp_bind.mpr (wp_store.mpr ⟨by omega, ?_⟩)
      exact noTrap_ite (fun _ => noTrap_pure) fun _ => ih (by omega)

theorem noTrap_readiLoop (content : List UInt8) (fuel : Nat) : ∀ {dst off n : Nat} {m : Umem},
    dst + n ≤ lim → NoTrap (readiLoop lim content fuel dst off n) m := by
  induction fuel with
  | zero => exact fun _ => noTrap_pure
  | succ fuel ih =>
    intro dst off n m h
    rw [readiLoop]
    refine noTrap_ite (fun _ => noTrap_pure) fun _ => NoTrap.bind (noTrap_storeAll ?_) fun _ m' =>
      ih (by omega)
    rw [length_take]
    omega

theorem noTrap_writeiLoop (fuel : Nat) : ∀ {src off n : Nat} {m : Umem},
    src + n ≤ lim → NoTrap (writeiLoop lim fuel src off n) m := by
  induction fuel with
  | zero => exact fun _ => noTrap_pure
  | succ fuel ih =>
    intro src off n m h
    rw [writeiLoop]
    exact noTrap_ite (fun _ => noTrap_pure) fun _ => NoTrap.bind (noTrap_loadAll (by omega)) fun _ m' =>
      ih (by omega)

theorem noTrap_readi {dst : Nat} (h : dst + n ≤ lim) : NoTrap (readiUser lim ip dst off n) m := by
  cases ip with
  | dev driver active input =>
    refine noTrap_ite (fun _ => NoTrap.bind (noTrap_consoleLoop input h) fun left m' => ?_)
      fun _ => noTrap_pure
    cases left <;> exact noTrap_pure
  | file content =>
    refine noTrap_ite (fun _ => noTrap_pure) fun hn => NoTrap.bind (noTrap_readiLoop content _ ?_)
      fun _ _ => noTrap_pure
    have hmod : (off + n) % UINT ≤ off + n := Nat.mod_le _ _
    split
    · omega
    · exact h

theorem noTrap_writei {size src : Nat} (h : src + n ≤ lim) :
    NoTrap (writeiUser lim ip size src off n) m := by
  cases ip with
  | dev driver active input =>
    refine noTrap_ite (fun _ => ?_) fun _ => noTrap_pure
    exact noTrap_ite (fun _ => NoTrap.bind (noTrap_loadAll h) fun _ _ => noTrap_pure)
      fun _ => noTrap_pure
  | file content =>
    exact noTrap_ite (fun _ => noTrap_pure) fun _ => noTrap_ite (fun _ => noTrap_pure) fun _ =>
      NoTrap.bind (noTrap_writeiLoop _ h) fun _ _ => noTrap_pure

theorem noTrap_panic {α : Type} (e : Stop) : NoTrap (outcome (.error e) : User α) m :=
  wp_outcome.mpr fun _ h => by cases h

theorem noTrap_fileread (h : addr + n ≤ lim) : NoTrap (filereadUser lim f addr n) m := by
  refine noTrap_ite (fun _ => noTrap_pure) fun _ => ?_
  cases f.kind with
  | none => exact noTrap_panic _
  | inode ip off st => exact noTrap_readi h
  | pipe killed data room =>
    refine noTrap_ite (fun _ => noTrap_pure) fun _ => NoTrap.bind (noTrap_storeAll ?_)
      fun _ _ => noTrap_pure
    rw [length_take]
    omega

theorem noTrap_filewriteLoop (h : addr + n ≤ lim) (fuel : Nat) :
    ∀ {i off size : Nat} {m : Umem}, NoTrap (filewriteLoop lim ip addr n fuel i off size) m := by
  induction fuel with
  | zero => exact noTrap_pure
  | succ fuel ih =>
    intro i off size m
    rw [filewriteLoop]
    refine noTrap_ite (fun hi => ?_) fun _ => noTrap_pure
    refine NoTrap.bind (noTrap_writei (by omega)) fun r m' => ?_
    exact noTrap_ite (fun _ => noTrap_pure) fun _ => noTrap_ite (fun _ => noTrap_panic _) fun _ => ih

theorem noTrap_filewrite (h : addr + n ≤ lim) : NoTrap (filewriteUser lim f addr n) m := by
  refine noTrap_ite (fun _ => noTrap_pure) fun _ => ?_
  cases f.kind with
  | none => exact noTrap_panic _
  | inode ip off st => exact noTrap_filewriteLoop h n
  | pipe killed data room =>
    exact NoTrap.bind (noTrap_loadAll (by omega)) fun _ _ =>
      noTrap_ite (fun _ => noTrap_pure) fun _ => noTrap_pure

theorem noTrap_filestat (h : a + 20 ≤ lim) : NoTrap (filestat lim f a) m := by
  have hstore : ∀ {k w b : Nat} {m' : Umem}, b + k ≤ a + 20 →
      NoTrap (storeAll lim b (leBytes k w) : User Unit) m' := fun hb =>
    noTrap_storeAll (by rw [length_leBytes]; omega)
  unfold filestat
  cases f.kind with
  | none => exact noTrap_pure
  | pipe killed data room => exact noTrap_pure
  | inode ip off st =>
    refine NoTrap.bind ?_ fun _ _ => noTrap_pure
    exact NoTrap.bind (hstore (by omega)) fun _ _ => NoTrap.bind (hstore (by omega)) fun _ _ =>
      NoTrap.bind (hstore (by omega)) fun _ _ => NoTrap.bind (hstore (by omega)) fun _ _ =>
      hstore (by omega)

/-! ### Strings that end in the process -/

section Ends

variable {a : Nat} {s : Str} {userPage : Nat → Bool} {argv : List Nat} {k : Kview}
  {found : List CStr → Bool}

theorem end_lt (hs : scan? m (lim - a) a = some s) : a + s.length < lim := by
  obtain ⟨hl, -, -⟩ := scan?_eq_some.mp hs
  omega

theorem reads_copyout {fuel : Nat} : ∀ {va buf len : Nat},
    buf + len ≤ lim → Reads (copyoutUser lim userPage fuel va buf len) m := by
  induction fuel with
  | zero => exact fun _ => .ret
  | succ fuel ih =>
    intro va buf len h
    exact .ite (fun _ => .ret) fun _ => .ite (fun _ => .ret) fun _ =>
      .bind (.loadAll fun _ _ _ => by omega) fun _ => ih (by omega)

theorem reads_pushArgs : ∀ {sp : Nat}, (∀ b ∈ argv, ∃ t, scan? m (lim - b) b = some t) →
    Reads (pushArgsUser lim userPage argv sp) m := by
  induction argv with
  | nil => exact fun _ => .ret
  | cons b argv ih =>
    intro sp hargs
    obtain ⟨t, ht⟩ := hargs b mem_cons_self
    have hlt := end_lt ht
    refine .bind_of (strlenIn_eq_ok ht) (.bind_of (strlenIn_eq_ok ht) ?_)
    refine .bind (reads_copyout (by omega)) fun r => ?_
    exact .ite (fun _ => ih fun x hx => hargs x (mem_cons_of_mem _ hx)) fun _ => .ret

section

variable (hs : scan? m (lim - a) a = some s)

include hs

theorem noTrap_exec
    (hargs : ∀ b ∈ argv, ∃ t, scan? m (lim - b) b = some t) : NoTrap (execUser lim k a argv) m := by
  refine wp_bind.mpr ((wp_of_eq_ok (scan_eq_ok hs)).mpr (wp_bind.mpr (wp_outcome.mpr ?_)))
  intro path _
  refine wp_bind.mpr ((wp_of_eq_ok (strlenIn_eq_ok hs)).mpr (wp_bind.mpr (wp_outcome.mpr ?_)))
  intro o _
  refine noTrap_ite (fun _ => noTrap_pure) fun _ => ?_
  cases k.image with
  | none => exact noTrap_pure
  | some sz =>
    refine NoTrap.bind ((reads_pushArgs hargs).wp fun _ => trivial) fun _ _ => ?_
    exact noTrap_ite (fun _ => noTrap_pure) fun _ => noTrap_pure

theorem reads_sameName (q : CStr) : Reads (sameName lim a q) m := by
  have hlt := end_lt hs
  refine .bind_of (strlenIn_eq_ok hs) (.ite (fun _ => .ret) fun _ => ?_)
  exact .bind_of (strlenIn_eq_ok hs) (.bind (reads_strncmpIn (by omega)) fun _ => .ret)

theorem reads_anyName (qs : List CStr) : Reads (anyName lim a qs) m := by
  induction qs with
  | nil => exact .ret
  | cons q qs ih =>
    exact .bind (reads_sameName hs q) fun _ => .ite (fun _ => .ret) fun _ => ih

/-- `strncpy(.., name, strlen(name))`. -/
theorem reads_copyName {α : Type} {f : CStr → User α} (hf : ∀ name, Reads (f name) m) :
    Reads (strlenIn lim a >>= fun n => strncpyIn lim a n >>= f) m := by
  have hlt := end_lt hs
  exact .bind_of (strlenIn_eq_ok hs) (.bind (reads_strncpyIn (by omega)) hf)

theorem reads_shmAllocuvm {newsz : Nat} : Reads (shmAllocuvm lim k newsz a) m := by
  refine .bind_of (strlenIn_eq_ok hs) (.ite (fun _ => .ret) fun _ => ?_)
  refine .ite (fun _ => .ret) fun _ => .ite (fun _ => .ret) fun _ => ?_
  refine .bind (reads_anyName hs _) fun _ => .ite (fun _ => .ret) fun _ => ?_
  refine .ite (fun _ => .ret) fun _ => .ite (fun _ => .ret) fun _ => ?_
  exact .ite (fun _ => reads_copyName hs fun _ => .ret) fun _ => .ret

theorem reads_shmGet : Reads (shmGetUser lim k a) m := by
  refine .ite (fun _ => .ret) fun _ => ?_
  refine .bind (reads_anyName hs _) fun _ => .ite (fun _ => .ret) fun _ => ?_
  refine .bind (reads_shmAllocuvm hs) fun _ => ?_
  exact .ite (fun _ => reads_copyName hs fun _ => .ret) fun _ => .ret

theorem reads_mutexFind {mux : Mux} (gs : List Mid) : Reads (mutexFind lim mux a gs) m := by
  have hlt := end_lt hs
  induction gs with
  | nil => exact .ret
  | cons g gs ih =>
    exact .bind_of (strlenIn_eq_ok hs) (.bind (reads_strncmpIn (by omega)) fun _ =>
      .ite (fun _ => .ret) fun _ => ih)

end

theorem noTrap_namexLoop {n : Nat} : ∀ {es : List CStr} {a b : Nat},
    lim ≤ a + n → a ≤ b → b < lim → m b = 0 → NoTrap (namexLoop lim found n es a) m := by
  induction n with
  | zero => intro es a b hn hab hb _; omega
  | succ n ih =>
    intro es a b hn hab hb hz
    have hslash : ((m b == 47) : Bool) = false := by rw [hz]; rfl
    have hstop : ((m b != 47 && m b != 0) : Bool) = false := by rw [hz]; rfl
    rw [namexLoop]
    refine wp_bind.mpr (wp_skipWhile (by omega) hab hb hslash fun p hap hpb hp => ?_)
    refine wp_bind.mpr (wp_load.mpr ⟨by omega, noTrap_ite (fun _ => noTrap_pure) fun hne => ?_⟩)
    refine wp_bind.mpr (wp_skipWhile (by omega) hpb hb hstop fun e hpe heb hend => ?_)
    refine wp_bind.mpr (wp_loadAll.mpr ⟨fun _ _ _ => by omega, ?_⟩)
    refine wp_bind.mpr (wp_skipWhile (by omega) heb hb hslash fun q heq hqb _ => ?_)
    -- The element is not empty, so the rest of the path starts further on.
    have hne' : p ≠ e := by
      rintro rfl
      have hc : m p = 47 ∨ m p = 0 := by
        by_contra hc
        rw [not_or] at hc
        simp [hc] at hend
      rcases hc with hc | hc
      · rw [hc] at hp; cases hp
      · exact hne hc
    exact noTrap_ite (fun _ => ih (by omega) hqb hb hz) fun _ => noTrap_pure

theorem noTrap_namei (hs : scan? m (lim - a) a = some s) : NoTrap (nameiUser lim found a) m := by
  obtain ⟨hl, hz, -⟩ := scan?_eq_some.mp hs
  exact wp_bind.mpr (wp_load.mpr ⟨by omega, noTrap_namexLoop (by omega) (b := a + s.length) (by omega)
    (by omega) hz⟩)

end Ends

/-! ### `setpath` -/

/-- The argument of `setpath` after an absolute one has been put after the root. -/
def rooted (root arg : Str) : Str := if arg.head? = some slash then root ++ arg.tail else arg

/-- The path that `chdir` writes over its argument at `a`, the words of `arg` applied to those of
the path of the process, fits into the `lim` bytes of the process.  Nothing is written when the
argument is `"."`, when the new path is not below the root, or when a string overruns one of the
buffers of `setpath`. -/
def ChdirFits (lim : Nat) (root procPath arg : Str) (a : Nat) : Prop :=
  arg.length < 128 → (rooted root arg).length < 128 → procPath.length < 128 →
  stripSlash (rooted root arg) ≠ dot →
  let new := absPath (resolve (comps procPath) (comps arg))
  new.length < 128 → root <+: new → a + new.length < lim

theorem fromRoot_iff {path : Str} (ha : arg.length < 128) :
    fromRoot root arg = .ok path ↔ (rooted root arg).length < 128 ∧ path = rooted root arg := by
  unfold fromRoot rooted
  split
  · exact fit_eq_ok
  · exact ⟨fun h => ⟨ha, (Except.ok.inj h).symm⟩, fun h => by rw [h.2]⟩

theorem stripSlash_rooted (h : slash ∉ arg) : stripSlash (rooted root arg) = arg := by
  unfold rooted
  rw [if_neg fun hh => h (mem_of_head? hh)]
  exact stripSlash_of_not_mem h

section Setpath

variable {root procPath s : Str} {a : Nat} {Q : Int → Umem → Prop}

/-- What `setpath` does for `chdir` with the string `s` at `a`. -/
theorem wp_setpath (hs : scan? m (lim - a) a = some s) :
    wp (setpathUser lim root procPath a 1) Q m ↔ (s.length < 128 → (rooted root s).length < 128 →
        (stripSlash (rooted root s) = dot → Q 0 m) ∧ (stripSlash (rooted root s) ≠ dot →
          ∀ new, newPath procPath (stripSlash (rooted root s)) s = .ok new →
            (root <+: new → a + new.length < lim ∧ Q 0 (put m a (new.map (·.1) ++ [0]))) ∧
            (¬ root <+: new → Q (-1) m))) := by
  have hone : (1 : Int) ≥ 1 := by decide
  simp only [setpathUser, wp_bind, wp_of_eq_ok (scan_eq_ok hs), wp_outcome, wp_ite, strcmp_eq_zero,
    wp_pure, wp_strcpyOut, nextPath, if_pos hone, rootcmp_eq_zero, ne_eq, fit_eq_ok]
  constructor
  · intro h hl hr
    obtain ⟨h₀, h₁⟩ := h s ⟨hl, rfl⟩ _ ((fromRoot_iff hl).mpr ⟨hr, rfl⟩)
    exact ⟨h₀, fun hd new hn => ⟨fun hp => (h₁ hd new hn).2 (not_not.mpr hp), (h₁ hd new hn).1⟩⟩
  · rintro h b ⟨hl, rfl⟩ path hpath
    obtain ⟨hr, rfl⟩ := (fromRoot_iff hl).mp hpath
    obtain ⟨h₀, h₁⟩ := h hl hr
    exact ⟨h₀, fun hd new hn => ⟨(h₁ hd new hn).2, fun hp => (h₁ hd new hn).1 (not_not.mp hp)⟩⟩

/-- `setpath`, and then code that is safe when a string of the process is at `a`. -/
theorem wp_setpath_iff (hs : scan? m (lim - a) a = some s)
    (hQ : ∀ r m' t, scan? m' (lim - a) a = some t → Q r m') :
    wp (setpathUser lim root procPath a 1) Q m ↔ ChdirFits lim root procPath s a := by
  have hone : slash ∉ s → stripSlash (rooted root s) = s := stripSlash_rooted
  rw [wp_setpath hs]
  constructor
  · intro h hl hr hp hd new hn hpre
    exact (((h hl hr).2 hd new ((newPath_eq_ok hone).mpr ⟨hp, hl, hn, rfl⟩)).1 hpre).1
  · intro h hl hr
    refine ⟨fun _ => hQ _ _ _ hs, fun hd new hnew => ⟨fun hpre => ?_, fun _ => hQ _ _ _ hs⟩⟩
    obtain ⟨hp, -, hn, rfl⟩ := (newPath_eq_ok hone).mp hnew
    have hfit := h hl hr hp hd hn hpre
    exact ⟨hfit, hQ _ _ _ (scan?_put hfit)⟩

end Setpath

/-! ### The system calls -/

namespace Caller

variable {c : Caller} {k : Kview} {n w a : Nat} {prog : User Int}

theorem arg?_lt (h : c.arg? m n = some w) : w < UINT := by
  unfold arg? word? at h
  split at h
  · cases h
    have hlt := leWord_lt ((range' ((c.esp + 4 + 4 * n) % UINT) 4).map m)
    rw [length_map, length_range'] at hlt
    exact hlt
  · cases h

theorem asInt_le (h : w < UINT) : asInt w ≤ INT_MAX := by
  have hU : (UINT : Int) = 2 * (INT_MAX + 1) := by decide
  have hI : INT_MAX = 2147483647 := rfl
  unfold asInt
  split <;> omega

theorem asInt_toNat (hw : w < UINT) (h : 0 ≤ asInt w) : (asInt w).toNat = w := by
  unfold asInt at h ⊢
  split at h
  · next hlt => rw [if_pos hlt]; rfl
  · omega

section

variable (hsz : c.sz ≤ KERNBASE)

include hsz

theorem wp_argfd {Q : Option Ufile → Umem → Prop} (hQ : ∀ o, Q o m) : wp (c.argfd k n) Q m := by
  rw [argfd, wp_bind, wp_argint hsz]
  cases c.arg? m n with
  | none => exact hQ _
  | some fd => exact wp_ite.mpr ⟨fun _ => hQ _, fun _ => hQ _⟩

/-- A pointer to `size` bytes. -/
theorem wp_argptr_of {size : Int} {Q : Option Nat → Umem → Prop}
    (hs : size ≤ INT_MAX) (hnone : Q none m)
    (hsome : ∀ p, 0 ≤ size → p + size.toNat ≤ c.sz → Q (some p) m) : wp (c.argptr n size) Q m := by
  refine (wp_argptr hsz hs).mpr ?_
  cases hp : c.ptrArg? m n size with
  | none => exact hnone
  | some p =>
    obtain ⟨-, h0, -, hle⟩ := ptrArg?_eq_some hp
    exact hsome p h0 hle

/-- The descriptor, the size and the buffer of `read` and `write`. -/
theorem noTrap_transfer {f : Ufile → Nat → Nat → User Int}
    (hf : ∀ u p n, p + n ≤ c.sz → NoTrap (f u p n) m) (hprog : prog = do
      let some u ← c.argfd k 0 | return -1
      let some n ← c.argint 2 | return -1
      let some p ← c.argptr 1 (asInt n) | return -1
      f u p n) : NoTrap prog m := by
  rw [hprog]
  refine wp_bind.mpr (wp_argfd hsz fun o => ?_)
  cases o with
  | none => exact noTrap_pure
  | some u =>
    refine wp_bind.mpr ((wp_argint hsz).mpr ?_)
    cases hn : c.arg? m 2 with
    | none => exact noTrap_pure
    | some n =>
      have hlt := arg?_lt hn
      refine wp_bind.mpr (wp_argptr_of hsz (asInt_le hlt) (noTrap_pure) fun p h0 hle => ?_)
      rw [asInt_toNat hlt h0] at hle
      exact hf u p n hle

theorem noTrap_sysRead : NoTrap (c.sysRead k) m :=
  noTrap_transfer hsz (fun _ _ _ hp => noTrap_fileread hp) rfl

theorem noTrap_sysWrite : NoTrap (c.sysWrite k) m :=
  noTrap_transfer hsz (fun _ _ _ hp => noTrap_filewrite hp) rfl

theorem noTrap_sysFstat : NoTrap (c.sysFstat k) m := by
  refine wp_bind.mpr (wp_argfd hsz fun o => ?_)
  cases o with
  | none => exact noTrap_pure
  | some f =>
    exact wp_bind.mpr (wp_argptr_of hsz (by decide) (noTrap_pure) fun st _ hle =>
      noTrap_filestat hle)

end

/-- Two words are written. -/
theorem noTrap_twoWords {x y : Nat} {f : User Int} (h : a + 8 ≤ lim) (hf : ∀ m', NoTrap f m') :
    NoTrap (do storeAll lim a (leBytes 4 x); storeAll lim (a + 4) (leBytes 4 y); f) m := by
  refine NoTrap.bind (noTrap_storeAll ?_) fun _ _ => NoTrap.bind (noTrap_storeAll ?_) fun _ => hf
  · rw [length_leBytes]; omega
  · rw [length_leBytes]; omega

section

variable (hsz : c.sz ≤ KERNBASE)

include hsz

theorem noTrap_sysPipe : NoTrap (c.sysPipe k) m := by
  refine wp_bind.mpr (wp_argptr_of hsz (by decide) (noTrap_pure) fun fd _ hle => ?_)
  cases hk : k.pipeFds with
  | none => exact noTrap_pure
  | some fds => exact noTrap_twoWords hle fun _ => noTrap_pure

theorem noTrap_sysGetProcPipe : NoTrap (c.sysGetProcPipe k) m := by
  refine wp_bind.mpr (wp_argptr_of hsz (by decide) (noTrap_pure) fun fds _ hle => ?_)
  have hle : fds + 8 ≤ c.sz := hle
  unfold getProcPipe
  cases hk : k.parentFds with
  | none => exact noTrap_pure
  | some io =>
    refine noTrap_twoWords hle fun _ => ?_
    exact NoTrap.bind (noTrap_loadAll (by omega)) fun _ _ =>
      NoTrap.bind (noTrap_loadAll (by omega)) fun _ _ => noTrap_pure

/-- `sys_exec` gives `exec` pointers to strings of the process. -/
theorem wp_fetchArgv {uargv : Nat} : ∀ {i : Nat} {Q : Option (List Nat) → Umem → Prop}, Q none m →
    (∀ argv : List Nat, (∀ b ∈ argv, ∃ t, c.str? m b = some t) → Q (some argv) m) →
    wp (c.fetchArgv uargv n i) Q m := by
  induction n with
  | zero => exact fun hnone _ => hnone
  | succ n ih =>
    intro i Q hnone hsome
    rw [fetchArgv, wp_bind, wp_fetchint hsz]
    cases c.word? m ((uargv + 4 * i) % UINT) with
    | none => exact hnone
    | some uarg =>
      refine wp_ite.mpr ⟨fun _ => hsome [] (by simp), fun _ => ?_⟩
      rw [wp_bind, wp_fetchstr]
      cases hu : c.str? m uarg with
      | none => exact hnone
      | some t =>
        refine wp_bind.mpr (ih hnone fun argv hargv => hsome _ fun b hb => ?_)
        rcases mem_cons.mp hb with rfl | hb
        · exact ⟨t, hu⟩
        · exact hargv b hb

theorem noTrap_sysExec : NoTrap (c.sysExec k) m := by
  refine wp_bind.mpr ((wp_argstr hsz).mpr ?_)
  cases hp : c.strArg? m 0 with
  | none => exact noTrap_pure
  | some path =>
    obtain ⟨s, hs⟩ := strArg?_eq_some hp
    refine wp_bind.mpr ((wp_argint hsz).mpr ?_)
    cases c.arg? m 1 with
    | none => exact noTrap_pure
    | some uargv =>
      exact wp_bind.mpr (wp_fetchArgv hsz (noTrap_pure) fun argv hargv => noTrap_exec hs hargv)

/-! ### The calls that do not check -/

/-- When a system call stays in the process: by the words and strings that its arguments are, and
the strings that the kernel writes. -/
def Fits (c : Caller) (k : Kview) (m : Umem) : Wrapper → Prop
  | .chdir => ∀ a s, c.arg? m 0 = some a → c.str? m a = some s → ChdirFits c.sz k.root k.path s a
  | .mutexCreate =>
    k.mux.freeMutex ≠ none → ∀ a, c.ptrArg? m 0 0 = some a → (c.str? m a).isSome
  | .mutexGet => ∀ a, c.ptrArg? m 0 0 = some a → (c.str? m a).isSome
  | .setvc => ∀ i vc fds, c.arg? m 0 = some i → c.strArg? m 1 = some vc →
      c.ptrArg? m 2 0 = some fds → fds + 8 ≤ c.sz
  | .getname => ∀ i a, c.arg? m 0 = some i → c.strArg? m 1 = some a →
      a + (k.conName (asInt i)).length < c.sz
  | .getpath => ∀ i a, c.arg? m 0 = some i → c.strArg? m 1 = some a → a + k.path.length < c.sz
  | .read | .write | .fstat | .pipe | .exec | .getProcPipe => True

theorem sysChdir_iff : NoTrap (c.sysChdir k) m ↔ c.Fits k m .chdir := by
  unfold sysChdir NoTrap
  rw [wp_bind, wp_argstr hsz]
  cases hp : c.strArg? m 0 with
  | none =>
    refine ⟨fun _ a s ha hs => ?_, fun _ => noTrap_pure⟩
    rw [strArg?, ha, Option.filter_some, if_pos (by rw [hs]; rfl)] at hp
    cases hp
  | some a =>
    obtain ⟨s, hs⟩ := strArg?_eq_some hp
    have ha : c.arg? m 0 = some a := (Option.filter_eq_some_iff.mp hp).1
    dsimp only
    rw [wp_bind]
    refine (wp_setpath_iff hs fun r m' t ht => ?_).trans
      ⟨fun h a' s' ha' hs' => ?_, fun h => h a s ha hs⟩
    · refine noTrap_ite (fun _ => noTrap_pure) fun _ => NoTrap.bind (noTrap_namei ht) fun _ _ => ?_
      exact noTrap_ite (fun _ => noTrap_pure) fun _ => noTrap_pure
    · rw [ha] at ha'
      cases ha'
      rw [hs] at hs'
      cases hs'
      exact h

theorem sysMutexCreate_iff : NoTrap (c.sysMutexCreate k) m ↔ c.Fits k m .mutexCreate := by
  unfold sysMutexCreate NoTrap
  rw [wp_bind, wp_argptr hsz (by decide), Fits]
  cases c.ptrArg? m 0 0 with
  | none => exact ⟨fun _ _ a h => by (cases h), fun _ => noTrap_pure⟩
  | some a =>
    unfold mutexCreateUser
    dsimp only
    rw [wp_ite, wp_bind, wp_strlenIn]
    constructor
    · rintro ⟨-, h⟩ hfree a' ha'
      cases ha'
      obtain ⟨s, hs, -⟩ := h hfree
      rw [str?, hs]
      rfl
    · intro h
      refine ⟨fun _ => noTrap_pure, fun hfree => ?_⟩
      obtain ⟨s, hs⟩ := Option.isSome_iff_exists.mp (h hfree a rfl)
      have hlt := str?_lt hs
      refine ⟨s, hs, wp_bind.mpr ((reads_strncpyIn (by omega)).wp fun name => ?_)⟩
      exact wp_bind.mpr (wp_outcome.mpr fun _ _ => noTrap_pure)

theorem sysMutexGet_iff : NoTrap (c.sysMutexGet k) m ↔ c.Fits k m .mutexGet := by
  unfold sysMutexGet NoTrap
  rw [wp_bind, wp_argptr hsz (by decide), Fits]
  cases c.ptrArg? m 0 0 with
  | none => exact ⟨fun _ a h => by (cases h), fun _ => noTrap_pure⟩
  | some a =>
    unfold mutexGetUser
    dsimp only
    rw [wp_bind]
    constructor
    · intro h a' ha'
      cases ha'
      -- The first pass of the loop already scans the name.
      rw [show finRange MUX_MAXNUM = ⟨0, by decide⟩ :: (finRange MUX_MAXNUM).tail from rfl,
        mutexFind, wp_bind, wp_strlenIn] at h
      obtain ⟨s, hs, -⟩ := h
      rw [str?, hs]
      rfl
    · intro h
      obtain ⟨s, hs⟩ := Option.isSome_iff_exists.mp (h a rfl)
      refine (reads_mutexFind hs _).wp fun g => ?_
      cases g <;> exact noTrap_pure

theorem sysSetvc_iff : NoTrap (c.sysSetvc k) m ↔ c.Fits k m .setvc := by
  unfold sysSetvc NoTrap
  rw [wp_bind, wp_argint hsz, Fits]
  cases c.arg? m 0 with
  | none => exact ⟨fun _ i _ _ h => by (cases h), fun _ => noTrap_pure⟩
  | some i =>
    dsimp only
    rw [wp_bind, wp_argstr hsz]
    cases hvc : c.strArg? m 1 with
    | none => exact ⟨fun _ _ vc _ _ h => by (cases h), fun _ => noTrap_pure⟩
    | some vc =>
      obtain ⟨s, hs⟩ := strArg?_eq_some hvc
      dsimp only
      rw [wp_bind, wp_argptr hsz (by decide)]
      cases c.ptrArg? m 2 0 with
      | none => exact ⟨fun _ _ _ fds _ _ h => by (cases h), fun _ => noTrap_pure⟩
      | some fds =>
        obtain ⟨u, hu⟩ := reads_shmGet (k := k) hs
        unfold setvcUser
        dsimp only
        rw [wp_bind, wp_of_eq_ok hu]
        simp only [wp_bind, wp_loadAll, wp_pure, and_true]
        constructor
        · rintro ⟨-, h, -⟩ _ _ fds' - - he
          cases he
          have := h (fds + 7) (by omega) (by omega)
          omega
        · intro h
          have := h i vc fds rfl rfl rfl
          exact ⟨fun _ _ _ => by omega, fun _ _ _ => by omega, fun _ _ _ => by omega,
            fun _ _ _ => by omega⟩

end

/-- `getname` and `getpath`: a string of the kernel is copied over the string of argument 1. -/
theorem copyOut_iff (str : Nat → Str) (hsz : c.sz ≤ KERNBASE) (hprog : prog = do
      let some i ← c.argint 0 | return -1
      let some a ← c.argstr 1 | return -1
      strcpyOut c.sz a (str i)
      return 0) :
    NoTrap prog m ↔
      ∀ i a, c.arg? m 0 = some i → c.strArg? m 1 = some a → a + (str i).length < c.sz := by
  rw [hprog, NoTrap, wp_bind, wp_argint hsz]
  cases c.arg? m 0 with
  | none => exact ⟨fun _ i _ h => by (cases h), fun _ => noTrap_pure⟩
  | some i =>
    dsimp only
    rw [wp_bind, wp_argstr hsz]
    cases c.strArg? m 1 with
    | none => exact ⟨fun _ _ a _ h => by (cases h), fun _ => noTrap_pure⟩
    | some a =>
      dsimp only
      rw [wp_bind, wp_strcpyOut]
      constructor
      · rintro ⟨h, -⟩ i' a' hi ha
        cases hi
        cases ha
        exact h
      · exact fun h => ⟨h i a rfl rfl, trivial⟩

/-- A process of 32 bytes. -/
def small : Caller := ⟨32, 0⟩

/-- Its kernel: the process has the path `"/w/"` in a container with the root `"/"`, containers are
named `"www"`, and the process has the segment `"q"`. -/
def smallView : Kview where
  slot := ⟨7, by decide⟩
  mux := .boot
  ofile _ := none
  conName _ := [⟨119, by decide⟩, ⟨119, by decide⟩, ⟨119, by decide⟩]
  root := [slash]
  path := [slash, ⟨119, by decide⟩, slash]
  shms := [[113]]
  infos := []
  kallocOk := false
  mapOk := false
  pipeFds := none
  parentFds := none
  found _ := false
  isDir := false
  image := none
  userPage _ := false

/-- Argument words 0 to 2 are `x`, `y` and `z`, and the last two bytes are `b` and `e`. -/
def smallMem (x y z b e : UInt8) : Umem := fun a =>
  if a = 4 then x else if a = 8 then y else if a = 12 then z else if a = 30 then b
  else if a = 31 then e else 0

/-- The address of the access that ended a call. -/
def outside? {α : Type} : Except (Trap Stop) α → Option Nat
  | .error (.outside a) => some a
  | _ => none

theorem trap_of_outside {p : User Int} (h : outside? (p m) = some a) : ¬ NoTrap p m := by
  unfold NoTrap wp
  cases hp : p m with
  | ok x => rw [hp] at h; cases h
  | error e =>
    rw [hp] at h
    cases e with
    | outside b => exact id
    | wrap => cases h
    | stop e => cases h

end Caller

end Xv6
