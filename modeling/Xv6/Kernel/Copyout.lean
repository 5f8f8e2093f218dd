import Xv6.Kernel.Space

/-!
# Kernel — Copyout

`copyout` with the bytes it writes.  It goes page by page and asks `uva2ka` for each page; `pokes`
writes byte by byte through the user pages.  `copyout_exact_iff`: `copyout` writes what `pokes` does
and returns 0, or writes a part of it and returns -1, exactly when every page that it asks for has a
page table.  `uva2ka` does not check for a page table that is missing.
-/

namespace Xv6

open Function List Nat

/-- The contents of the physical pages. -/
abbrev Frames := Page → Nat → UInt8

variable {d : Pgdir} {f : Frames} {pg : Page} {va off n : Nat} {p q : List UInt8}

/-- `memmove` of `p` into page `pg`. -/
def Frames.write (f : Frames) (pg : Page) (off : Nat) (p : List UInt8) : Frames :=
  update f pg fun i => if off ≤ i then (p[i - off]?).getD (f pg i) else f pg i

/-- The page that a user program reaches at page `a`. -/
def Pgdir.userPage (d : Pgdir) (a : Nat) : Option Page :=
  (d.entry a).bind fun e => if e.perm.u then some e.page else none

/-- `uva2ka` of page `a`; a missing page table is a null pointer. -/
def uva2kaPage (d : Pgdir) (a : Nat) : Res (Option Page) :=
  match walkpgdir d a with
  | none => .error (.fault "uva2ka: null pte")
  | some _ => .ok (d.userPage a)

/-- The loop of `copyout`, from address `va`; `false` is its result -1. -/
def copyoutBytes (d : Pgdir) : Nat → Frames → Nat → List UInt8 → Res (Bool × Frames)
  | 0, f, _, p => if p = [] then .ok (true, f) else .error (.fault "copyout: the loop does not end")
  | n + 1, f, va, p =>
    if p = [] then .ok (true, f)
    else do
      match ← uva2kaPage d (va / PGSIZE) with
      | none => .ok (false, f)
      | some pa =>
        let k := min (PGSIZE - va % PGSIZE) p.length
        copyoutBytes d n (f.write pa (va % PGSIZE) (p.take k)) ((va / PGSIZE + 1) * PGSIZE % UINT)
          (p.drop k)

/-- `copyout`. -/
def copyoutData (d : Pgdir) (f : Frames) (va : Nat) (p : List UInt8) : Res (Bool × Frames) :=
  copyoutBytes d (p.length / PGSIZE + 2) f va p

/-- The bytes `p` written from address `va` on, each through the user page of its address. -/
def pokes (d : Pgdir) : Frames → Nat → List UInt8 → Frames
  | f, _, [] => f
  | f, va, x :: p =>
    pokes d ((d.userPage (va / PGSIZE)).elim f fun pg => f.write pg (va % PGSIZE) [x])
      ((va + 1) % UINT) p

theorem pokes_append : ∀ {f va}, va < UINT → pokes d f va (p ++ q) =
    pokes d (pokes d f va p) ((va + p.length) % UINT) q := by
  induction p with
  | nil => exact fun {f va} hva => by rw [length_nil, add_zero, mod_eq_of_lt hva]; rfl
  | cons x p ih =>
    intro f va _
    rw [cons_append, pokes, ih (mod_lt _ (by decide)), length_cons]
    congr 1
    simp only [UINT]
    omega

theorem write_cons (f : Frames) (pg : Page) (off : Nat) (x : UInt8) (p : List UInt8) :
    (f.write pg off [x]).write pg (off + 1) p = f.write pg off (x :: p) := by
  unfold Frames.write
  rw [update_self, update_idem]
  congr 1
  funext i
  by_cases h : off + 1 ≤ i
  · have e : i - off = i - (off + 1) + 1 := by omega
    rw [if_pos h, if_pos (by omega), if_pos (by omega), e]
    simp
  rw [if_neg h]
  by_cases h' : off ≤ i
  · have e : i - off = 0 := by omega
    rw [if_pos h', if_pos h', e]
    simp
  · rw [if_neg h', if_neg h']

theorem write_nil (f : Frames) (pg : Page) (off : Nat) : f.write pg off [] = f := by
  simp [Frames.write]

/-- Within one page. -/
theorem pokes_write : ∀ {f va}, va < UINT → d.userPage (va / PGSIZE) = some pg →
    va % PGSIZE + p.length ≤ PGSIZE → pokes d f va p = f.write pg (va % PGSIZE) p := by
  induction p with
  | nil => exact fun {f va} _ _ _ => (write_nil f pg _).symm
  | cons x p ih =>
    intro f va hva hpg hlen
    rw [pokes, hpg, Option.elim_some]
    cases p with
    | nil => rfl
    | cons y p =>
      have h₁ : (va + 1) % UINT / PGSIZE = va / PGSIZE := by
        simp only [length_cons, PGSIZE, UINT] at *
        omega
      have h₂ : (va + 1) % UINT % PGSIZE = va % PGSIZE + 1 := by
        simp only [length_cons, PGSIZE, UINT] at *
        omega
      rw [ih (mod_lt _ (by decide)) (h₁.symm ▸ hpg) (by rw [h₂]; simp at hlen ⊢; omega), h₂,
        write_cons]

/-- The page of byte `i` of a range that begins at `va`. -/
def pageOfByte (va i : Nat) : Nat := (va + i) % UINT / PGSIZE

/-- The first `k` bytes go to user pages. -/
def Reached (d : Pgdir) (va k : Nat) : Prop := ∀ i < k, (d.userPage (pageOfByte va i)).isSome

/-- **How `copyout` ends**: all bytes are written, or those up to a page that is not a user page, or
it asks for a page without a page table. -/
theorem copyoutBytes_cases (n : Nat) : ∀ {f va p}, va < UINT → va % PGSIZE + p.length ≤ n * PGSIZE →
    (copyoutBytes d n f va p = .ok (true, pokes d f va p) ∧ Reached d va p.length) ∨
    ∃ k < p.length, Reached d va k ∧ d.userPage (pageOfByte va k) = none ∧
      ((walkpgdir d (pageOfByte va k) ≠ none ∧
          copyoutBytes d n f va p = .ok (false, pokes d f va (p.take k))) ∨
        (walkpgdir d (pageOfByte va k) = none ∧
          copyoutBytes d n f va p = .error (.fault "uva2ka: null pte"))) := by
  induction n with
  | zero =>
    intro f va p _ hn
    have hp : p = [] := eq_nil_of_length_eq_zero (by omega)
    subst hp
    exact .inl ⟨rfl, fun i hi => absurd hi (not_lt_zero i)⟩
  | succ n ih =>
    intro f va p hva hn
    rw [copyoutBytes]
    by_cases hp : p = []
    · subst hp
      exact .inl ⟨rfl, fun i hi => absurd hi (not_lt_zero i)⟩
    rw [if_neg hp]
    have hpos : 0 < p.length := length_pos_of_ne_nil hp
    have hfirst : pageOfByte va 0 = va / PGSIZE := by
      rw [pageOfByte, add_zero, mod_eq_of_lt hva]
    unfold uva2kaPage
    cases hw : walkpgdir d (va / PGSIZE) with
    | none =>
      refine .inr ⟨0, hpos, fun i hi => absurd hi (not_lt_zero i), ?_, .inr ⟨hfirst ▸ hw, rfl⟩⟩
      rw [hfirst, Pgdir.userPage, entry_of_walk_none hw]
      rfl
    | some o =>
      cases hu : d.userPage (va / PGSIZE) with
      | none =>
        refine .inr ⟨0, hpos, fun i hi => absurd hi (not_lt_zero i), hfirst ▸ hu, .inl ⟨?_, rfl⟩⟩
        rw [hfirst, hw]
        exact Option.some_ne_none o
      | some pa =>
        simp only [Res.ok_bind]
        generalize hk : min (PGSIZE - va % PGSIZE) p.length = k
        -- what is written to this page, and where the rest begins
        have hnear : ∀ i < k, pageOfByte va i = va / PGSIZE := fun i hi => by
          simp only [pageOfByte, PGSIZE, UINT] at *
          omega
        have htake : (p.take k).length = k := by rw [length_take]; omega
        have hwrite : pokes d f va (p.take k) = f.write pa (va % PGSIZE) (p.take k) :=
          pokes_write hva hu (by rw [htake]; simp only [PGSIZE] at *; omega)
        rw [← hwrite]
        rcases lt_or_ge k p.length with hlt | hge
        · have hnext : (va / PGSIZE + 1) * PGSIZE % UINT = (va + k) % UINT := by
            simp only [PGSIZE, UINT] at *
            omega
          have hlen : (p.drop k).length = p.length - k := length_drop
          have hbyte : ∀ i, pageOfByte ((va + k) % UINT) i = pageOfByte va (k + i) := fun i => by
            simp only [pageOfByte, UINT]
            congr 1
            omega
          have hreach : ∀ j, Reached d ((va + k) % UINT) j → Reached d va (k + j) := by
            intro j hj i hi
            by_cases h : i < k
            · rw [hnear i h, hu]; rfl
            · have := hj (i - k) (by omega)
              rwa [hbyte, Nat.add_sub_cancel' (by omega)] at this
          have hpoke : ∀ r, pokes d (pokes d f va (p.take k)) ((va + k) % UINT) r =
              pokes d f va (p.take k ++ r) := fun r => by rw [pokes_append hva, htake]
          rw [hnext]
          have hstep := @ih (pokes d f va (p.take k)) ((va + k) % UINT) (p.drop k)
            (mod_lt _ (by decide)) (by rw [hlen]; simp only [PGSIZE, UINT] at *; omega)
          rw [hlen] at hstep
          rcases hstep with ⟨hr, hall⟩ | ⟨j, hj, hall, hnone, hend⟩
          · refine .inl ⟨?_, ?_⟩
            · rw [hr, hpoke, take_append_drop]
            · have := hreach _ hall
              rwa [Nat.add_sub_cancel' hlt.le] at this
          · rw [hbyte] at hnone hend
            refine .inr ⟨k + j, by omega, hreach j hall, hnone, ?_⟩
            rwa [hpoke, ← take_add] at hend
        · have hrest : p.drop k = [] := drop_eq_nil_of_le hge
          have hall : p.take k = p := take_of_length_le hge
          refine .inl ⟨?_, fun i hi => ?_⟩
          · rw [hrest, hall]
            cases n <;> rfl
          · rw [hnear i (by omega), hu]
            rfl

theorem walk_of_userPage {a : Nat} (h : (d.userPage a).isSome) : walkpgdir d a ≠ none := by
  intro hw
  rw [Pgdir.userPage, entry_of_walk_none hw] at h
  cases h

/-- All bytes have been written to user pages, or a part of them, and it has failed. -/
def ExactOut (d : Pgdir) (f : Frames) (va : Nat) (p : List UInt8) (r : Res (Bool × Frames)) :
    Prop :=
  (r = .ok (true, pokes d f va p) ∧ Reached d va p.length) ∨
    ∃ k < p.length, r = .ok (false, pokes d f va (p.take k)) ∧ Reached d va k

/-- Up to the first page of the range that is not a user page, that one included, there are page
tables. -/
def TablesFound (d : Pgdir) (va len : Nat) : Prop :=
  ∀ k < len, Reached d va k → walkpgdir d (pageOfByte va k) ≠ none

/-- **`copyout` is exact**, with any page table, exactly when it finds the page tables. -/
theorem copyout_exact_iff (hva : va < UINT) :
    ExactOut d f va p (copyoutData d f va p) ↔ TablesFound d va p.length := by
  have hfuel : va % PGSIZE + p.length ≤ (p.length / PGSIZE + 2) * PGSIZE := by
    simp only [PGSIZE]
    omega
  rcases copyoutBytes_cases (d := d) (f := f) _ hva hfuel with
    ⟨hr, hall⟩ | ⟨k, hk, hall, hnone, ⟨hw, hr⟩ | ⟨hw, hr⟩⟩
  · exact ⟨fun _ k hk _ => walk_of_userPage (hall k hk), fun _ => .inl ⟨hr, hall⟩⟩
  · refine ⟨fun _ j hj hreach => ?_, fun _ => .inr ⟨k, hk, hr, hall⟩⟩
    rcases lt_trichotomy j k with hlt | rfl | hgt
    · exact walk_of_userPage (hall j hlt)
    · exact hw
    · have := hreach k hgt
      rw [hnone] at this
      cases this
  · refine ⟨fun h => ?_, fun h => absurd hw (h k hk hall)⟩
    change ExactOut d f va p (copyoutBytes d _ f va p) at h
    rw [hr] at h
    rcases h with ⟨h, -⟩ | ⟨j, -, h, -⟩
    · cases h
    · cases h

/-- Two bytes to page 1, which is mapped. -/
theorem copyout_exact_onePage : ExactOut onePage (fun _ _ => 0) 4096 [1, 2]
    (copyoutData onePage (fun _ _ => 0) 4096 [1, 2]) := by
  refine (copyout_exact_iff (by decide)).mpr fun k hk _ => ?_
  have hpage : pageOfByte 4096 k = 1 := by
    simp only [length_cons, length_nil, pageOfByte, PGSIZE, UINT] at *
    omega
  rw [hpage]
  decide

/-- **A null pointer.**  `copyout` to address 0 of a directory that `setupkvm` has made: there is no
page table for user addresses, and `uva2ka` reads the entry that is not there. -/
theorem copyout_null_pte : ∃ d m, setupkvm (fun _ => false) ⟨0, List.range 65⟩ = .ok (some d, m) ∧
    ∀ f, copyoutData d f 0 [0] = .error (.fault "uva2ka: null pte") := by
  obtain ⟨⟨o, m⟩, hs, hd⟩ := Res.of_returns
    (P := fun x => x.1.any fun d => decide (walkpgdir d 0 = none))
    (x := setupkvm (fun _ => false) ⟨0, range 65⟩) (by decide +kernel)
  cases o with
  | none => cases hd
  | some d =>
    have hw : walkpgdir d 0 = none := by simpa using hd
    exact ⟨d, m, hs, fun f => by simp [copyoutData, copyoutBytes, uva2kaPage, hw]⟩

end Xv6
