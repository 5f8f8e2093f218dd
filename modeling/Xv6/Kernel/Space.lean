import Xv6.Kernel.VmSafe

/-!
# Kernel — Space

Address spaces as partial maps.  `Pgdir.entry d a` is the present entry of page `a`, whatever page
table it is in; a function of `vm.c` is described by what it does to the entries, page by page.

`deallocuvm` walks over the range page by page, and past a missing page table in one stride.
`deallocuvm_exact` says what it comes to: the pages mapped in the range are given back one after the
other, in the order of their addresses, and exactly the entries of the range are cleared.
`mappages_flat` says what `mappages` does: it fills the entries of the range, or those of its first
pages when there is no page for a page table.
-/

namespace Xv6

open Function List

/-! ### Entries -/

/-- The entry of page `a`, if it is present. -/
def Pgdir.entry (d : Pgdir) (a : Nat) : Option Pte := (walkpgdir d a).join

variable {sh : Page → Bool} {m m' : Kmem} {d d' : Pgdir} {a b last : Nat} {e : Pte}

theorem entry_of_walk {o : Option Pte} (h : walkpgdir d a = some o) : d.entry a = o := by
  rw [Pgdir.entry, h]
  rfl

theorem entry_of_walk_none (h : walkpgdir d a = none) : d.entry a = none := by
  rw [Pgdir.entry, h]
  rfl

/-- A page is found by its two indices. -/
theorem page_ext (ha : a < NPAGES) (hb : b < NPAGES) (hd : pdx a = pdx b)
    (ht : ptx a = ptx b) : a = b := by
  have h₁ := congrArg Fin.val hd
  have h₂ := congrArg Fin.val ht
  simp only [pdx, ptx, NPTENTRIES, NPDENTRIES, NPAGES] at *
  omega

theorem pageAt_index (ha : a < NPAGES) : pageAt (pdx a) (ptx a) = a := by
  simp only [pageAt, pdx, ptx, NPTENTRIES, NPDENTRIES, NPAGES] at *
  omega

/-- Where there is no page table, no page is mapped up to the end of the table. -/
theorem entry_none_of_walk (h : walkpgdir d a = none) (hb : b / NPTENTRIES = a / NPTENTRIES) :
    d.entry b = none := by
  have hpd : pdx b = pdx a := Fin.ext (by simp only [pdx, hb])
  refine entry_of_walk_none ?_
  unfold walkpgdir at h ⊢
  rw [hpd]
  exact Option.map_eq_none_iff.mpr (Option.map_eq_none_iff.mp h)

theorem pgroundup_eq {sz : Nat} (h : sz ≤ KERNBASE) : pgroundup sz / PGSIZE = pagesOf sz := by
  simp only [pgroundup, pagesOf, KERNBASE, PGSIZE, UINT] at *
  omega

/-! ### Unmapping -/

/-- The entries from page `a` to page `last` are cleared; the page tables stay. -/
def Pgdir.clear (d : Pgdir) (a last : Nat) : Pgdir :=
  { d with pde := fun i => (d.pde i).map fun t =>
      { t with pte := fun j => if a ≤ pageAt i j ∧ pageAt i j < last then none else t.pte j } }

/-- The pages mapped from page `a` to page `last`. -/
def Pgdir.mappedIn (d : Pgdir) (a last : Nat) : List Page :=
  (List.range' a (last - a)).filterMap fun b => (d.entry b).map Pte.page

/-- What `deallocuvm` does with a mapped page: it panics at page 0, and frees what `shm_infos` does
not record. -/
def release (sh : Page → Bool) (m : Kmem) (pg : Page) : Res Kmem :=
  if pg = 0 then .error (.panic "kfree") else kfreeUnshared sh m pg

theorem walkpgdir_clear (hb : b < NPAGES) : walkpgdir (d.clear a last) b =
    (walkpgdir d b).map fun o => if a ≤ b ∧ b < last then none else o := by
  simp only [walkpgdir, Pgdir.clear, Option.map_map]
  congr 1
  funext t
  simp only [comp_apply, pageAt_index hb]

/-- Two ranges with the same mapped pages. -/
theorem clear_congr {a' : Nat} (h : ∀ b < NPAGES, (d.entry b).isSome →
    (a ≤ b ∧ b < last ↔ a' ≤ b ∧ b < last)) : d.clear a last = d.clear a' last := by
  unfold Pgdir.clear
  congr 1
  funext i
  cases ht : d.pde i with
  | none => rfl
  | some t =>
    simp only [Option.map_some, Option.some.injEq, Ptab.mk.injEq, true_and]
    funext j
    cases he : t.pte j with
    | none => simp
    | some e =>
      have hb : pageAt i j < NPAGES := by
        have hi := i.isLt
        have hj := j.isLt
        simp only [pageAt, NPTENTRIES, NPDENTRIES, NPAGES] at *
        omega
      have hent : d.entry (pageAt i j) = some e := by
        simp [Pgdir.entry, walkpgdir, pdx_pageAt, ptx_pageAt, ht, he]
      simp only [h _ hb (by rw [hent]; rfl)]

/-- Clearing one entry, and then the rest. -/
theorem clear_setPte (hw : walkpgdir d a = some (some e)) (hl : a < last) (ha : a < NPAGES) :
    (setPte d a none).clear (a + 1) last = d.clear a last := by
  obtain ⟨t, ht, -⟩ := walkpgdir_some hw
  unfold Pgdir.clear setPte
  rw [ht]
  dsimp only
  congr 1
  funext i
  by_cases hi : i = pdx a
  · subst hi
    rw [update_self, ht, Option.map_some, Option.map_some]
    congr 2
    funext j
    by_cases hj : j = ptx a
    · subst hj
      dsimp only
      rw [update_self, pageAt_index ha, if_neg (by omega), if_pos (by omega)]
    have hne : pageAt (pdx a) j ≠ a := fun h => hj (by rw [← ptx_pageAt (pdx a) j, h])
    dsimp only
    rw [update_of_ne hj]
    exact if_congr (by omega) rfl rfl
  · rw [update_of_ne hi]
    congr 1
    funext t'
    congr 1
    funext j
    have hne : pageAt i j ≠ a := fun h => hi (by rw [← pdx_pageAt i j, h])
    exact if_congr (by omega) rfl rfl

theorem entry_setPte_ne {v : Option Pte} (hb : b < NPAGES) (ha : a < NPAGES) (hne : b ≠ a) :
    (setPte d a v).entry b = d.entry b := by
  unfold setPte
  split
  · rfl
  next t ht =>
  by_cases hpd : pdx b = pdx a
  · have hpt : ptx b ≠ ptx a := fun hpt => hne (page_ext hb ha hpd hpt)
    simp [Pgdir.entry, walkpgdir, hpd, ht, hpt]
  · simp [Pgdir.entry, walkpgdir, hpd]

theorem mappedIn_nil (h : last ≤ a) : d.mappedIn a last = [] := by
  rw [Pgdir.mappedIn, Nat.sub_eq_zero_of_le h]
  rfl

theorem mappedIn_cons (h : a < last) :
    d.mappedIn a last = ((d.entry a).map Pte.page).toList ++ d.mappedIn (a + 1) last := by
  obtain ⟨n, hn⟩ := Nat.exists_eq_add_of_lt h
  have h₁ : last - a = n + 1 := by omega
  have h₂ : last - (a + 1) = n := by omega
  rw [Pgdir.mappedIn, Pgdir.mappedIn, h₁, h₂, range'_succ, filterMap_cons]
  cases d.entry a with
  | none => rfl
  | some e => rfl

/-- Over pages that are not mapped. -/
theorem mappedIn_skip (k : Nat) : ∀ {a}, (∀ b, a ≤ b → b < a + k → d.entry b = none) →
    d.mappedIn a last = d.mappedIn (a + k) last := by
  induction k with
  | zero => exact fun _ => rfl
  | succ k ih =>
    intro a h
    have hrest := ih (a := a + 1) fun b h₁ h₂ => h b (by omega) (by omega)
    rw [Nat.add_assoc, Nat.add_comm 1 k] at hrest
    by_cases hlt : a < last
    · rw [mappedIn_cons hlt, h a (Nat.le_refl a) (by omega), hrest]
      rfl
    · rw [mappedIn_nil (by omega), mappedIn_nil (by omega)]

theorem mappedIn_congr (h : ∀ b, a ≤ b → b < last → d'.entry b = d.entry b) :
    d'.mappedIn a last = d.mappedIn a last := by
  unfold Pgdir.mappedIn
  refine filterMap_congr fun b hb => ?_
  obtain ⟨h₁, h₂⟩ := mem_range'_1.mp hb
  rw [h b h₁ (by omega)]

/-- **The loop of `deallocuvm`**, with enough fuel. -/
theorem deallocLoop_eq (hl : last ≤ KERNPAGE) (n : Nat) : ∀ {m d a}, last ≤ a + n →
    deallocLoop sh last n m d a = (do
      let m ← (d.mappedIn a last).foldlM (release sh) m
      return (m, d.clear a last)) := by
  have hdone : ∀ {m d a}, last ≤ a → (.ok (m, d) : Res (Kmem × Pgdir)) = (do
      let m ← (d.mappedIn a last).foldlM (release sh) m
      return (m, d.clear a last)) := by
    intro m d a ha
    have hclear : d.clear a last = d := by
      have hnone : d.clear a last = d.clear last last := clear_congr fun b _ _ => by omega
      rw [hnone]
      unfold Pgdir.clear
      have : ∀ x, ¬ (last ≤ x ∧ x < last) := fun x => by omega
      simp only [this, if_false]
      congr 1
      funext i
      exact Option.map_id'
    rw [mappedIn_nil ha, hclear]
    rfl
  induction n with
  | zero => exact fun ha => hdone ha
  | succ n ih =>
    intro m d a hn
    rw [deallocLoop]
    split
    · next ha =>
      split
      · next hw =>
        -- the next page directory entry: nothing is mapped before it
        have hpast : a < (a / NPTENTRIES + 1) * NPTENTRIES := by
          simp only [NPTENTRIES]
          omega
        have hnone : ∀ b, a ≤ b → b < (a / NPTENTRIES + 1) * NPTENTRIES →
            d.entry b = none := fun b h₁ h₂ => by
          refine entry_none_of_walk hw ?_
          simp only [NPTENTRIES] at *
          omega
        rw [if_pos (by simp only [NPTENTRIES, NPDENTRIES, KERNPAGE, KERNBASE, PGSIZE] at *; omega)]
        generalize (a / NPTENTRIES + 1) * NPTENTRIES = a' at *
        have hskip : d.mappedIn a last = d.mappedIn (a + (a' - a)) last := mappedIn_skip (a' - a)
          fun b h₁ h₂ => hnone b h₁ (by omega)
        rw [Nat.add_sub_cancel' hpast.le] at hskip
        have hclear : d.clear a last = d.clear a' last := clear_congr fun b _ hb => by
          have : ¬ (a ≤ b ∧ b < a') := fun h => by rw [hnone b h.1 h.2] at hb; cases hb
          omega
        rw [ih (by omega), hskip, hclear]
      · next hw =>
        have hent := entry_of_walk hw
        have hclear : d.clear a last = d.clear (a + 1) last := clear_congr fun b _ hb => by
          have : b ≠ a := fun h => by rw [h, hent] at hb; cases hb
          omega
        rw [ih (by omega), mappedIn_cons ha, hent, hclear]
        rfl
      · next e hw =>
        have ha' : a < NPAGES := ha.trans_le (hl.trans (by decide))
        rw [mappedIn_cons ha, entry_of_walk hw, Option.map_some, Option.toList_some,
          singleton_append, foldlM_cons, release]
        split
        · rfl
        rw [bind_assoc]
        congr 1
        funext m'
        rw [ih (by omega), clear_setPte hw ha ha',
          mappedIn_congr fun b h₁ h₂ => entry_setPte_ne ?_ ha' (by omega)]
        exact h₂.trans_le (hl.trans (by decide))
    · next ha => exact hdone (by omega)

theorem mem_range_iff {newsz oldsz : Nat} (hn : newsz ≤ KERNBASE) :
    pagesOf newsz ≤ b ∧ b < pagesOf oldsz ↔ pgroundup newsz ≤ b * PGSIZE ∧ b * PGSIZE < oldsz := by
  simp only [pagesOf, pgroundup, KERNBASE, PGSIZE, UINT] at *
  omega

/-- **`deallocuvm` removes exactly the range.**  The pages mapped in it are released one after the
other, the loop has then ended, and the entries of the range and no others are cleared.  If no page
is mapped twice in the range, each is released once. -/
theorem deallocuvm_exact {oldsz newsz : Nat} (hlt : newsz < oldsz) (ho : oldsz ≤ KERNBASE) :
    (deallocuvm sh m d oldsz newsz = do
      let m ← (d.mappedIn (pagesOf newsz) (pagesOf oldsz)).foldlM (release sh) m
      return (newsz, m, d.clear (pagesOf newsz) (pagesOf oldsz))) ∧
    (∀ n ≥ pagesOf oldsz - pagesOf newsz, deallocLoop sh (pagesOf oldsz) n m d (pagesOf newsz) =
      deallocLoop sh (pagesOf oldsz) (pagesOf oldsz - pagesOf newsz) m d (pagesOf newsz)) ∧
    (∀ b < NPAGES, walkpgdir (d.clear (pagesOf newsz) (pagesOf oldsz)) b =
      if pgroundup newsz ≤ b * PGSIZE ∧ b * PGSIZE < oldsz then (walkpgdir d b).map fun _ => none
      else walkpgdir d b) ∧
    ((∀ b b' e e', pgroundup newsz ≤ b * PGSIZE → b * PGSIZE < oldsz →
        pgroundup newsz ≤ b' * PGSIZE → b' * PGSIZE < oldsz → d.entry b = some e →
        d.entry b' = some e' → e.page = e'.page → b = b') →
      (d.mappedIn (pagesOf newsz) (pagesOf oldsz)).Nodup) ∧
    ∀ pg, pg ∈ d.mappedIn (pagesOf newsz) (pagesOf oldsz) ↔
      ∃ b e, (pgroundup newsz ≤ b * PGSIZE ∧ b * PGSIZE < oldsz) ∧ d.entry b = some e ∧
        e.page = pg := by
  have hle := pagesOf_le ho
  have hn : newsz ≤ KERNBASE := by omega
  have hrange : ∀ {b}, b ∈ range' (pagesOf newsz) (pagesOf oldsz - pagesOf newsz) ↔
      pgroundup newsz ≤ b * PGSIZE ∧ b * PGSIZE < oldsz := fun {b} => by
    rw [← mem_range_iff hn, mem_range'_1]
    omega
  refine ⟨?_, fun n h => ?_, fun b hb => ?_, fun hinj => ?_, fun pg => ?_⟩
  · have hne : pagesOf oldsz ≠ NPAGES := Nat.ne_of_lt (hle.trans_lt (by decide))
    unfold deallocuvm
    rw [if_neg (by omega), pgroundup_eq hn]
    dsimp only
    rw [deallocLoop_eq hle _ (by omega), bind_assoc]
    congr 1
    funext m'
    rw [pure_bind]
    exact if_neg hne
  · rw [deallocLoop_eq hle n (by omega), deallocLoop_eq hle _ (by omega)]
  · simp only [walkpgdir_clear hb, mem_range_iff hn]
    split
    · rfl
    · exact Option.map_id'
  · rw [Pgdir.mappedIn, nodup_iff_pairwise_ne, pairwise_filterMap]
    have hnodup : (range' (pagesOf newsz) (pagesOf oldsz - pagesOf newsz)).Nodup :=
      nodup_range'
    refine (nodup_iff_pairwise_ne.mp hnodup).imp_of_mem
      fun {b b'} hb hb' hne pg hpg pg' hpg' hsame => ?_
    obtain ⟨e, he, rfl⟩ := Option.map_eq_some_iff.mp hpg
    obtain ⟨e', he', rfl⟩ := Option.map_eq_some_iff.mp hpg'
    obtain ⟨h₁, h₂⟩ := hrange.mp hb
    obtain ⟨h₃, h₄⟩ := hrange.mp hb'
    exact hne (hinj b b' e e' h₁ h₂ h₃ h₄ he he' hsame)
  · simp only [Pgdir.mappedIn, mem_filterMap, hrange, Option.map_eq_some_iff]
    constructor
    · rintro ⟨b, hb, e, he, hpg⟩
      exact ⟨b, e, hb, he, hpg⟩
    · rintro ⟨b, e, hb, he, hpg⟩
      exact ⟨b, hb, e, he, hpg⟩

/-- Page 1 is mapped to page 7. -/
def onePage : Pgdir := ⟨1, fun i => if i.val = 0 then
  some ⟨2, fun j => if j.val = 1 then some ⟨7, permWU⟩ else none⟩ else none⟩

theorem deallocuvm_exact_onePage : deallocuvm (fun _ => false) ⟨5, []⟩ onePage 8192 4096 =
    .ok (4096, ⟨5, [7]⟩, onePage.clear 1 2) :=
  (deallocuvm_exact (by decide) (by decide)).1.trans rfl

/-! ### Mapping -/

theorem entry_setPte_self {t : Ptab} (h : d.pde (pdx a) = some t) (v : Option Pte) :
    (setPte d a v).entry a = v := by
  simp [setPte, h, Pgdir.entry, walkpgdir]

/-- A new page table is empty. -/
theorem entry_walkpgdirAlloc (h : walkpgdirAlloc m d a = some (m', d')) (b : Nat) :
    d'.entry b = d.entry b := by
  unfold walkpgdirAlloc at h
  split at h
  · cases h; rfl
  next hd =>
  split at h
  · cases h
  cases h
  by_cases hb : pdx b = pdx a
  · simp [Pgdir.entry, walkpgdir, hb, hd]
  · simp [Pgdir.entry, walkpgdir, hb]

/-- `d'` maps `k` pages from page `a` on to the pages from `pa` on, and the others as `d`. -/
def Maps (d d' : Pgdir) (a k : Nat) (pa : Page) (perm : Perm) : Prop :=
  ∀ b < NPAGES, d'.entry b = if a ≤ b ∧ b < a + k then some ⟨pa + (b - a), perm⟩ else d.entry b

/-- The loop of `mappages`, by induction on the pages left. -/
theorem mapLoop_maps {perm : Perm} (hl : last < NPAGES) (n : Nat) : ∀ {m d a pa}, a ≤ last →
    last < a + n → (∀ b, a ≤ b → b ≤ last → d.entry b = none) →
    ∃ r m' d' k, mapLoop perm last n m d a pa = .ok (r, m', d') ∧ Maps d d' a k pa perm ∧
      (r = true ∧ k = last - a + 1 ∨ r = false ∧ k ≤ last - a ∧ m'.freelist = []) := by
  induction n with
  | zero => intro m d a pa ha hn; omega
  | succ n ih =>
    intro m d a pa ha hn hnone
    rw [mapLoop]
    cases hw : walkpgdirAlloc m d a with
    | none =>
      refine ⟨false, m, d, 0, rfl, fun b _ => ?_, .inr ⟨rfl, by omega, (walkpgdirAlloc_none hw).2⟩⟩
      rw [if_neg (by omega)]
    | some x =>
    obtain ⟨m₁, d₁⟩ := x
    obtain ⟨-, -, t, ht⟩ := walkpgdirAlloc_spec hw
    have hsame := entry_walkpgdirAlloc hw
    have hwalk : walkpgdir d₁ a = some (t.pte (ptx a)) := by rw [walkpgdir, ht]; rfl
    have hpte : t.pte (ptx a) = none := by
      rw [← entry_of_walk hwalk, hsame, hnone a (le_refl _) ha]
    simp only [hwalk, hpte]
    set d₂ := setPte d₁ a (some ⟨pa, perm⟩)
    have hself : d₂.entry a = some ⟨pa, perm⟩ := entry_setPte_self ht _
    have hne : ∀ b < NPAGES, b ≠ a → d₂.entry b = d.entry b := fun b hb e => by
      rw [entry_setPte_ne hb (by omega) e, hsame]
    by_cases e : a = last
    · rw [if_pos e]
      refine ⟨true, m₁, d₂, 1, rfl, fun b hb => ?_, .inl ⟨rfl, by omega⟩⟩
      by_cases eb : b = a
      · rw [eb, hself, if_pos (by omega), Nat.sub_self, Nat.add_zero]
      · rw [hne b hb eb, if_neg (by omega)]
    rw [if_neg e, Nat.mod_eq_of_lt (by omega)]
    obtain ⟨r, m', d', k, hrun, hmaps, hr⟩ := @ih m₁ d₂ (a + 1) (pa + 1) (by omega) (by omega)
      fun b hlo hhi => by rw [hne b (by omega) (by omega), hnone b (by omega) hhi]
    refine ⟨r, m', d', k + 1, hrun, fun b hb => ?_, ?_⟩
    · rw [hmaps b hb]
      by_cases eb : b = a
      · rw [eb, if_neg (by omega), hself, if_pos (by omega), Nat.sub_self, Nat.add_zero]
      by_cases hin : a + 1 ≤ b ∧ b < a + 1 + k
      · rw [if_pos hin, if_pos (by omega), Nat.add_assoc, show 1 + (b - (a + 1)) = b - a by omega]
      · rw [if_neg hin, if_neg (by omega), hne b hb eb]
    · exact hr.imp (fun h => ⟨h.1, by omega⟩) fun h => ⟨h.1, by omega, h.2.2⟩

end Xv6
