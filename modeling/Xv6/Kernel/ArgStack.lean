import Xv6.Kernel.Copyout

/-!
# Kernel — ArgStack

The arguments on the stack that `exec` builds, with the bytes it writes.  Every string and the words
after them are copied below what is there already, and the page below the stack is not accessible to
the user.  A copy that succeeds reaches only user pages, and it ends where the last one began, so it
cannot begin below the stack page (`begins_in_stack`); `argStack_decodes` is what the stack holds.
-/

namespace Xv6

open Function List Nat

/-- A word of memory. -/
def wordBytes (w : Nat) : List UInt8 :=
  [.ofNat w, .ofNat (w / 256), .ofNat (w / 65536), .ofNat (w / 16777216)]

/-- The loop of `exec` that pushes the argument strings: the stack pointer and the pointers in
`ustack`, or `none` for `goto bad`. -/
def pushArgsData (d : Pgdir) :
    List CStr → Nat → Nat → Frames → List Nat → Res (Option (Nat × List Nat) × Frames)
  | [], _, sp, f, us => .ok (some (sp, us), f)
  | arg :: args, argc, sp, f, us =>
    if argc ≥ MAXARG then .ok (none, f)
    else do
      let sp := toUint ((sp : Int) - (arg.length + 1)) / 4 * 4
      match ← copyoutData d f sp (arg ++ [0]) with
      | (true, f) => pushArgsData d args (argc + 1) sp f (us ++ [sp])
      | (false, f) => .ok (none, f)

/-- The words that `exec` copies below the strings. -/
def ustack (argc sp : Nat) (us : List Nat) : List Nat :=
  [0xffffffff, argc, toUint ((sp : Int) - (argc + 1) * 4)] ++ us ++ [0]

/-- The stack of `exec`; `f` is what the pages hold once they have been allocated.  The new size and
stack pointer, or `none` for `goto bad`. -/
def buildStackData (shm : Page → Bool) (argv : List CStr) (sz : Nat) (m : Kmem) (d : Pgdir)
    (f : Frames) : Res (Option (Nat × Nat) × Kmem × Pgdir × Frames) := do
  let sz := pgroundup sz
  let (sz, m, d) ← allocuvm shm m d sz ((sz + 2 * PGSIZE) % UINT)
  if sz = 0 then return (none, m, d, f)
  let d ← clearpteu d (toUint ((sz : Int) - 2 * PGSIZE) / PGSIZE)
  match ← pushArgsData d argv 0 sz f [] with
  | (none, f) => return (none, m, d, f)
  | (some (sp, us), f) =>
    let sp' := toUint ((sp : Int) - (3 + argv.length + 1) * 4)
    match ← copyoutData d f sp' ((ustack argv.length sp us).flatMap wordBytes) with
    | (true, f) => return (some (sz, sp'), m, d, f)
    | (false, f) => return (none, m, d, f)

variable {d d' : Pgdir} {f f' : Frames} {pg : Page} {g top sp va e sz : Nat} {p : List UInt8}
  {l : List (CStr × Nat)} {shm : Page → Bool} {m' : Kmem}

/-! ### Reading the stack -/

/-- The byte that a user program reads at `va`. -/
def peek (d : Pgdir) (f : Frames) (va : Nat) : Option UInt8 :=
  (d.userPage (va / PGSIZE)).map fun pg => f pg (va % PGSIZE)

/-- The bytes `p` stand from `va` on. -/
def Peeks (d : Pgdir) (f : Frames) (va : Nat) (p : List UInt8) : Prop :=
  ∀ i x, p[i]? = some x → peek d f (va + i) = some x

/-- The strings stand one below the other, each with its NUL, from `top` down to `sp`. -/
def Placed (d : Pgdir) (f : Frames) : Nat → List (CStr × Nat) → Nat → Prop
  | top, [], sp => sp ≤ top
  | top, (arg, a) :: rest, sp =>
    a + (arg.length + 1) ≤ top ∧ Peeks d f a (arg ++ [0]) ∧ Placed d f a rest sp

/-- From `va` up to `top` the two memories are the same. -/
def SameFrom (d : Pgdir) (f f' : Frames) (va top : Nat) : Prop :=
  ∀ b, va ≤ b → b < top → peek d f' b = peek d f b

theorem Peeks.same (h : Peeks d f va p) (hs : SameFrom d f f' sp top) (h₁ : sp ≤ va)
    (h₂ : va + p.length ≤ top) : Peeks d f' va p := by
  intro i x hx
  have hi : i < p.length := (List.getElem?_eq_some_iff.mp hx).1
  rw [hs (va + i) (by omega) (by omega)]
  exact h i x hx

theorem Placed.le : ∀ {top}, Placed d f top l sp → sp ≤ top := by
  induction l with
  | nil => exact fun h => h
  | cons x l ih => exact fun h => (ih h.2.2).trans (by have := h.1; omega)

theorem Placed.same (hs : SameFrom d f f' sp top) :
    ∀ {t}, t ≤ top → Placed d f t l sp → Placed d f' t l sp := by
  induction l with
  | nil => exact fun _ h => h
  | cons x l ih =>
    intro t ht h
    obtain ⟨h₁, h₂, h₃⟩ := h
    refine ⟨h₁, h₂.same hs h₃.le ?_, ih (by omega) h₃⟩
    rw [length_append, length_singleton]
    omega

/-! ### One copy -/

/-- **Where a copy begins.**  Page `g` is not a user page and the next one is the stack.  If `n` bytes
that end at `e`, at most three bytes below a word of the stack, all go to user pages, they begin in
the stack. -/
theorem begins_in_stack {n : Nat} (hg : d.userPage g = none) (hlast : (g + 2) * PGSIZE ≤ UINT)
    (hn : 0 < n) (hsp : (sp + n) % UINT = e % UINT) (hlt : sp < UINT)
    (he : (g + 1) * PGSIZE < e + 4) (htop : e ≤ (g + 2) * PGSIZE) (h : Reached d sp n) :
    (g + 1) * PGSIZE ≤ sp ∧ sp + n = e := by
  have hout : ∀ i < n, pageOfByte sp i ≠ g := fun i hi hp => by
    have := h i hi
    rw [hp, hg] at this
    cases this
  by_contra hcon
  -- the byte just below the stack, or the last one if all are below
  have hbad : ∃ i < n, pageOfByte sp i = g := by
    by_cases hle : (g + 1) * PGSIZE ≤ e
    · refine ⟨n - 1 - (e - (g + 1) * PGSIZE), by omega, ?_⟩
      simp only [pageOfByte, PGSIZE, UINT] at *
      omega
    · refine ⟨n - 1, by omega, ?_⟩
      simp only [pageOfByte, PGSIZE, UINT] at *
      omega
  obtain ⟨i, hi, hp⟩ := hbad
  exact hout i hi hp

theorem write_apply (f : Frames) (off i : Nat) : f.write pg off p pg i =
    if off ≤ i then (p[i - off]?).getD (f pg i) else f pg i := by
  rw [Frames.write, update_self]

/-- **A copy into the stack page.** -/
theorem copyout_stack (hg : d.userPage g = none) (hlast : (g + 2) * PGSIZE ≤ UINT) (hp : p ≠ [])
    (hsp : (sp + p.length) % UINT = e % UINT) (hlt : sp < UINT) (he : (g + 1) * PGSIZE < e + 4)
    (htop : e ≤ (g + 2) * PGSIZE) (h : copyoutData d f sp p = .ok (true, f')) :
    (g + 1) * PGSIZE ≤ sp ∧ sp + p.length = e ∧ Peeks d f' sp p ∧
      SameFrom d f f' e ((g + 2) * PGSIZE) := by
  have hpos := length_pos_of_ne_nil hp
  rcases copyoutBytes_cases (d := d) (f := f) (p := p) (p.length / PGSIZE + 2) hlt
    (by simp only [PGSIZE]; omega) with ⟨hr, hall⟩ | ⟨k, -, -, -, ⟨-, hr⟩ | ⟨-, hr⟩⟩
  · obtain ⟨hge, hend⟩ := begins_in_stack hg hlast hpos hsp hlt he htop hall
    have hpage : ∀ b, (g + 1) * PGSIZE ≤ b → b < (g + 2) * PGSIZE → b / PGSIZE = g + 1 :=
      fun b h₁ h₂ => by
        simp only [PGSIZE] at *
        omega
    obtain ⟨pg, hpg⟩ : ∃ pg, d.userPage (g + 1) = some pg := by
      have := hall 0 hpos
      rw [pageOfByte, add_zero, mod_eq_of_lt hlt, hpage sp hge (by omega)] at this
      exact Option.isSome_iff_exists.mp this
    have hwrite : f' = f.write pg (sp % PGSIZE) p := by
      have hpoke := h.symm.trans hr
      cases hpoke
      refine pokes_write hlt (by rw [hpage sp hge (by omega)]; exact hpg) ?_
      simp only [PGSIZE] at *
      omega
    have hpeek : ∀ b, (g + 1) * PGSIZE ≤ b → b < (g + 2) * PGSIZE →
        peek d f' b = some (f' pg (b % PGSIZE)) ∧ peek d f b = some (f pg (b % PGSIZE)) :=
      fun b h₁ h₂ => by
        unfold peek
        rw [hpage b h₁ h₂, hpg]
        exact ⟨rfl, rfl⟩
    refine ⟨hge, hend, fun i x hx => ?_, fun b h₁ h₂ => ?_⟩
    · have hi : i < p.length := (List.getElem?_eq_some_iff.mp hx).1
      have hoff : (sp + i) % PGSIZE - sp % PGSIZE = i ∧ sp % PGSIZE ≤ (sp + i) % PGSIZE := by
        simp only [PGSIZE] at *
        omega
      rw [(hpeek _ (by omega) (by omega)).1, hwrite, write_apply, if_pos hoff.2, hoff.1, hx]
      rfl
    · have hnone : p[b % PGSIZE - sp % PGSIZE]? = none := getElem?_eq_none (by
        simp only [PGSIZE] at *
        omega)
      rw [(hpeek b (by omega) h₂).1, (hpeek b (by omega) h₂).2, hwrite, write_apply, hnone]
      simp
  · rw [copyoutData, hr] at h
    cases h
  · rw [copyoutData, hr] at h
    cases h

/-! ### All copies -/

theorem pushArgs_placed {args : List CStr} (hg : d.userPage g = none)
    (hlast : (g + 2) * PGSIZE ≤ UINT) : ∀ {argc top f us us'}, (g + 1) * PGSIZE ≤ top →
    top ≤ (g + 2) * PGSIZE → top % 4 = 0 →
    pushArgsData d args argc top f us = .ok (some (sp, us'), f') →
    (g + 1) * PGSIZE ≤ sp ∧ sp % 4 = 0 ∧ SameFrom d f f' top ((g + 2) * PGSIZE) ∧
      ∃ ptrs, us' = us ++ ptrs ∧ ptrs.length = args.length ∧
        Placed d f' top (args.zip ptrs) sp := by
  induction args with
  | nil =>
    intro argc top f us us' h₁ h₂ h₃ h
    cases h
    exact ⟨h₁, h₃, fun _ _ _ => rfl, [], (append_nil _).symm, rfl, le_refl _⟩
  | cons arg args ih =>
    intro argc top f us us' h₁ h₂ h₃ h
    rw [pushArgsData] at h
    split at h
    · cases h
    obtain ⟨⟨r, f₁⟩, hc, h⟩ := of_bind h
    generalize ha : toUint ((top : Int) - (arg.length + 1)) / 4 * 4 = a at *
    cases r with
    | false => cases h
    | true =>
      have hal : a < UINT := by
        simp only [toUint, UINT] at ha ⊢
        omega
      have hlen : (arg ++ [0]).length = arg.length + 1 := by simp
      -- the copy ends at `top`, or up to three bytes below
      obtain ⟨e, he₁, he₂, he₃⟩ : ∃ e, (a + (arg ++ [0]).length) % UINT = e % UINT ∧
          top < e + 4 ∧ e ≤ top := by
        refine ⟨top - toUint ((top : Int) - (arg.length + 1)) % 4, ?_, ?_, ?_⟩ <;>
        · rw [hlen] at *
          simp only [toUint, UINT, PGSIZE] at *
          omega
      obtain ⟨hge, hend, hpeeks, hsame⟩ := copyout_stack hg hlast (by simp) he₁ hal (by omega)
        (by omega) hc
      obtain ⟨h₄, h₅, hsame', ptrs, rfl, hptrs, hplaced⟩ := ih hge (by omega) (by omega) h
      refine ⟨h₄, h₅, fun b hb₁ hb₂ => ?_, a :: ptrs, by simp, by simp [hptrs], by omega, ?_,
        hplaced⟩
      · rw [hsame' b (by omega) hb₂, hsame b (by omega) hb₂]
      · exact hpeeks.same hsame' (le_refl a) (by omega)

theorem userPage_clearpteu {a : Nat} (h : clearpteu d a = .ok d') : d'.userPage a = none := by
  unfold clearpteu at h
  split at h
  · cases h
  · next hw =>
    cases h
    rw [Pgdir.userPage, entry_of_walk hw]
    rfl
  next e hw =>
  cases h
  obtain ⟨t, ht, -⟩ := walkpgdir_some hw
  simp [Pgdir.userPage, Pgdir.entry, walkpgdir, setPte, ht]

theorem length_flatMap_wordBytes (ws : List Nat) :
    (ws.flatMap wordBytes).length = 4 * ws.length := by
  induction ws with
  | nil => rfl
  | cons w ws ih =>
    rw [flatMap_cons, length_append, ih, length_cons]
    simp only [wordBytes, length_cons, length_nil]
    omega

theorem allocLoop_size {oldsz newsz : Nat} (n : Nat) :
    ∀ {m d a}, allocLoop shm oldsz newsz n m d a = .ok (sz, m', d') → sz = newsz ∨ sz = 0 := by
  induction n with
  | zero =>
    intro m d a h
    cases h
    exact .inl rfl
  | succ n ih =>
    intro m d a h
    rw [allocLoop] at h
    split at h
    · obtain ⟨x, -, h⟩ := of_bind h
      cases h
      exact .inr rfl
    obtain ⟨⟨r, m₁, d₁⟩, -, h⟩ := of_bind h
    cases r with
    | true => exact ih h
    | false =>
      obtain ⟨x, -, h⟩ := of_bind h
      obtain ⟨m₂, -, h⟩ := of_bind h
      cases h
      exact .inr rfl

/-- The size of a space with a stack. -/
theorem stack_size {m : Kmem} {s : Nat}
    (h : allocuvm shm m d (pgroundup s) ((pgroundup s + 2 * PGSIZE) % UINT) = .ok (sz, m', d'))
    (h₀ : sz ≠ 0) : sz % PGSIZE = 0 ∧ 2 * PGSIZE ≤ sz ∧ sz ≤ UINT := by
  have hs : pgroundup s % PGSIZE = 0 ∧ pgroundup s < UINT := by
    simp only [pgroundup, PGSIZE, UINT]
    omega
  generalize pgroundup s = r at *
  have hcase : sz = (r + 2 * PGSIZE) % UINT ∧ r ≤ sz ∨ sz = r ∧ (r + 2 * PGSIZE) % UINT < r := by
    unfold allocuvm at h
    split at h
    · cases h
      exact absurd rfl h₀
    split at h
    · next hlt =>
      cases h
      exact .inr ⟨rfl, hlt⟩
    · next hge =>
      have := (allocLoop_size _ h).resolve_right h₀
      exact .inl ⟨this, by omega⟩
  simp only [PGSIZE, UINT] at *
  omega

/-- **The argument stack decodes to `argv`.**  From the stack pointer on there are the words
`0xffffffff`, the number of arguments, the address of the next word, the pointers to the strings and
0; above them, up to the top of the stack page, the strings.  The page below is not accessible. -/
theorem argStack_decodes {shm : Page → Bool} {argv : List CStr} {s sz esp : Nat} {m m' : Kmem}
    {d' : Pgdir} (h : buildStackData shm argv s m d f = .ok (some (sz, esp), m', d', f')) :
    ∃ ptrs, ptrs.length = argv.length ∧ sz - PGSIZE ≤ esp ∧
      Peeks d' f' esp (([0xffffffff, argv.length, esp + 12] ++ ptrs ++ [0]).flatMap wordBytes) ∧
      Placed d' f' sz (argv.zip ptrs) (esp + (3 + argv.length + 1) * 4) ∧
      d'.userPage (sz / PGSIZE - 2) = none ∧ sz % PGSIZE = 0 := by
  obtain ⟨⟨sz₁, m₁, d₁⟩, halloc, h⟩ := of_bind h
  dsimp only at h
  split at h
  · cases h
  next h₀ =>
  obtain ⟨hmod, hge, hle⟩ := stack_size halloc h₀
  obtain ⟨d₂, hclear, h⟩ := of_bind h
  obtain ⟨⟨o, f₁⟩, hpush, h⟩ := of_bind h
  cases o with
  | none => cases h
  | some x =>
    obtain ⟨sp, us⟩ := x
    obtain ⟨⟨r, f₂⟩, hcopy, h⟩ := of_bind h
    cases r with
    | false => cases h
    | true =>
      cases h
      -- the guard page is page `g`
      obtain ⟨g, hg⟩ : ∃ g, sz = (g + 2) * PGSIZE := ⟨sz / PGSIZE - 2, by
        simp only [PGSIZE] at *
        omega⟩
      have hguard : toUint ((sz : Int) - 2 * PGSIZE) / PGSIZE = g := by
        simp only [toUint, PGSIZE, UINT] at *
        omega
      rw [hguard] at hclear
      have hnone := userPage_clearpteu hclear
      have hbase : (g + 1) * PGSIZE ≤ sz :=
        (mul_le_mul_right PGSIZE (le_succ (g + 1))).trans hg.ge
      obtain ⟨hsp, hfour, -, ptrs, hus, hlen, hplaced⟩ := pushArgs_placed hnone (hg ▸ hle)
        hbase hg.le (by simp only [PGSIZE] at hg; omega) hpush
      rw [nil_append] at hus
      subst hus
      have hbytes : ((ustack argv.length sp us).flatMap wordBytes).length =
          (3 + argv.length + 1) * 4 := by
        rw [length_flatMap_wordBytes, ustack]
        simp only [length_append, length_cons, length_nil, hlen]
        omega
      have htop := hplaced.le
      obtain ⟨hin, hend, hpeeks, hsame⟩ := copyout_stack (e := sp) hnone (hg ▸ hle)
        (ne_nil_of_length_pos (by omega)) (by
          rw [hbytes]
          simp only [toUint, UINT] at *
          omega) (by simp only [toUint, UINT]; omega) (by omega) (by omega) hcopy
      rw [hbytes] at hend
      generalize toUint ((sp : Int) - (3 + argv.length + 1) * 4) = esp at *
      refine ⟨us, hlen, by simp only [PGSIZE] at *; omega, ?_, ?_, ?_, hmod⟩
      · have hword : toUint ((sp : Int) - (argv.length + 1) * 4) = esp + 12 := by
          simp only [toUint, UINT, PGSIZE] at *
          omega
        rwa [ustack, hword] at hpeeks
      · rw [hend]
        exact hplaced.same (hg ▸ hsame) (le_refl _)
      · rw [hg, Nat.mul_div_cancel _ (by decide), Nat.add_sub_cancel]
        exact hnone

/-- One argument, `"a"`, for a program of no segments. -/
theorem argStack_decodes_one : ∃ sz esp m d f ptrs,
    buildStackData (fun _ => false) [[97]] 0 ⟨0, [5, 6, 7]⟩ ⟨4, fun _ => none⟩ (fun _ _ => 0) =
      .ok (some (sz, esp), m, d, f) ∧ Placed d f sz ([[97]].zip ptrs) (esp + 20) := by
  obtain ⟨⟨o, m, d, f⟩, h, ho⟩ := Res.of_returns (P := fun x => x.1.isSome)
    (x := buildStackData (fun _ => false) [[97]] 0 ⟨0, [5, 6, 7]⟩ ⟨4, fun _ => none⟩ fun _ _ => 0)
    (by decide +kernel)
  obtain ⟨⟨sz, esp⟩, rfl⟩ := Option.isSome_iff_exists.mp ho
  obtain ⟨ptrs, -, -, -, hplaced, -⟩ := argStack_decodes h
  exact ⟨sz, esp, m, d, f, ptrs, h, hplaced⟩

end Xv6
