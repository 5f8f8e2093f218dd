import Xv6.Fs.Icache
import Xv6.Lib.Lock

/-!
# Fs — IcacheInv

The invariant of the inode cache.  `ref` counts the references to an entry, no two entries in use
are for one inode, and a sleep lock has one holder (`Refs`, `Inv.lock`).  An entry that has been read
in has the type that its inode has on the disk, unless `iput` has just freed it; it is the inode on
the disk, if nobody is changing it (`Copies`).

* `Inv.turn`, `Inv.join`, `Inv.leave`, `Inv.mark`: the holder of a reference goes on, a reference is
  taken, a reference is dropped, an inode is marked by `ialloc`.
* `inv_step`: every step keeps the invariant.
-/

namespace Xv6.Icache

open Lib Function Finset Inodes

variable {τ : Type} {ph : Phase}

/-! ### The invariant -/

/-- The phases with the sleep lock. -/
def Phase.Locks : Phase → Prop
  | .held | .dropping => False
  | _ => True

/-- The phases in which the inode has been read in. -/
def Phase.ReadIn : Phase → Prop
  | .locked | .edited | .tested => True
  | _ => False

/-- The phases in which the inode in memory may differ from the one on the disk. -/
def Phase.Differs : Phase → Prop
  | .edited | .cleared => True
  | _ => False

theorem Phase.ReadIn.locks (h : ph.ReadIn) : ph.Locks := by
  cases ph <;> trivial

theorem Phase.Differs.locks (h : ph.Differs) : ph.Locks := by
  cases ph <;> trivial

/-- The holder of the reference has the sleep lock of `e`. -/
def Holds (e : Fin NINODE) (r : Option Ref) : Prop := ∃ ph, r = some (.entry ph e) ∧ ph.Locks

/-- The references, and which inode each entry is for. -/
structure Refs (s : State τ) : Prop where
  uniq : ∀ e e', 0 < (s.inodes.cache e).ref → 0 < (s.inodes.cache e').ref →
    (s.inodes.cache e).inum = (s.inodes.cache e').inum → e = e'
  count : ∀ e, ∃ S : Finset τ, (∀ t, t ∈ S ↔ On e (s.ref t)) ∧ (s.inodes.cache e).ref = S.card

/-- The inodes in memory; they are those on the disk if `W`. -/
structure Copies (W : Prop) (s : State τ) : Prop where
  copy : W → ∀ e, 0 < (s.inodes.cache e).ref → (s.inodes.cache e).valid = true →
    (∀ t ph, s.ref t = some (.entry ph e) → ¬ ph.Differs) →
    (s.inodes.cache e).ip = s.inodes.disk.dinode (s.inodes.cache e).inum
  type : ∀ e, 0 < (s.inodes.cache e).ref → (s.inodes.cache e).valid = true →
    (∀ t, s.ref t ≠ some (.entry .cleared e)) → (s.inodes.cache e).ip.type ≠ .free ∧
    (s.inodes.disk.dinode (s.inodes.cache e).inum).type = (s.inodes.cache e).ip.type
  valid : ∀ t e ph, s.ref t = some (.entry ph e) → ph.ReadIn → (s.inodes.cache e).valid = true
  nolinks : ∀ t e, s.ref t = some (.entry .tested e) → (s.inodes.cache e).ip.nlink = 0

structure Inv (W : Prop) (s : State τ) : Prop where
  refs : Refs s
  lock : ∀ e, Holder (s.lock e) s.ref (Holds e)
  copies : Copies W s

variable {W : Prop} {s s' : State τ} {t : τ} {e : Fin NINODE}

theorem Refs.pos (h : Refs s) (ht : On e (s.ref t)) : 0 < (s.inodes.cache e).ref := by
  obtain ⟨S, hS, hc⟩ := h.count e
  have : 0 < S.card := card_pos.mpr ⟨t, (hS t).mpr ht⟩
  omega

theorem Refs.unused (h : Refs s) (hr : (s.inodes.cache e).ref = 0) (u : τ) : ¬ On e (s.ref u) :=
  fun hu => by
    have := h.pos hu
    omega

/-- The only reference to an entry. -/
theorem Refs.only {u : τ} (h : Refs s) (hr : (s.inodes.cache e).ref = 1) (ht : On e (s.ref t))
    (hu : On e (s.ref u)) : u = t := by
  obtain ⟨S, hS, hc⟩ := h.count e
  have hone : S.card = 1 := by omega
  exact card_le_one.mp hone.le u ((hS u).mpr hu) t ((hS t).mpr ht)

/-- Nothing is held through a reference that is not there. -/
theorem not_holds {r : Option Ref} (h : ∀ e', ¬ On e' r) : ¬ Holds e r := by
  rintro ⟨ph, rfl, -⟩
  exact h e rfl

theorem inv_booted (d : Disk) : Inv W (booted d : State τ) := by
  have hr : ∀ e, ¬ 0 < ((booted d : State τ).inodes.cache e).ref := fun _ => Int.lt_irrefl 0
  refine ⟨⟨fun e _ h => absurd h (hr e), fun e => ⟨∅, fun t => ?_, rfl⟩⟩, fun e t => ?_,
    ⟨fun _ e h => absurd h (hr e), fun e h => absurd h (hr e), fun _ _ _ h => (by cases h),
      fun _ _ h => (by cases h)⟩⟩
  · exact iff_of_false (notMem_empty t) id
  · exact iff_of_false (fun h => by cases h) (not_holds fun _ h => h)

theorem Inv.pos (h : Inv W s) (ht : s.ref t = some (.entry ph e)) : 0 < (s.inodes.cache e).ref :=
  h.refs.pos (t := t) (by rw [ht]; rfl)

/-- The holder of the lock is the only one. -/
theorem Inv.others (h : Inv W s) (ht : Holds e (s.ref t)) (u : τ) (hu : u ≠ t) :
    ¬ Holds e (s.ref u) := fun hh => hu ((h.lock e).unique hh ht)

/-- The only one that could change the inode does not. -/
theorem settled (ht : s.ref t = some (.entry ph e)) (hd : ¬ ph.Differs)
    (hother : ∀ u, u ≠ t → ¬ Holds e (s.ref u)) (u : τ) (q : Phase)
    (hu : s.ref u = some (.entry q e)) : ¬ q.Differs := by
  intro hq
  by_cases eu : u = t
  · rw [eu, ht] at hu
    cases hu
    exact hd hq
  · exact hother u eu ⟨q, hu, hq.locks⟩

/-- The inode that has been read in has a type, on the disk too. -/
theorem Inv.typed (h : Inv W s) (ht : s.ref t = some (.entry ph e)) (hin : ph.ReadIn) :
    (s.inodes.cache e).ip.type ≠ .free ∧
      (s.inodes.disk.dinode (s.inodes.cache e).inum).type = (s.inodes.cache e).ip.type := by
  refine h.copies.type e (h.pos ht) (h.copies.valid t e ph ht hin) ?_
  intro u hu
  have eu : u = t := (h.lock e).unique ⟨_, hu, trivial⟩ ⟨ph, ht, hin.locks⟩
  rw [eu, ht] at hu
  cases hu
  exact hin

section Step

variable [DecidableEq τ] {ph ph' : Phase} {c : CInode} {e' : Fin NINODE} {i i' : Inodes}

/-- **The holder of a reference goes on**, and works on its entry if it has the lock. -/
theorem Inv.turn (h : Inv W s) (ht : s.ref t = some (.entry ph e))
    (hother : ∀ u, u ≠ t → ¬ Holds e (s.ref u))
    (hcache : s'.inodes.cache = update s.inodes.cache e c)
    (href : s'.ref = update s.ref t (some (.entry ph' e)))
    (hlock : ∀ e', Holder (s'.lock e') s'.ref (Holds e'))
    (hid : c.inum = (s.inodes.cache e).inum ∧ c.ref = (s.inodes.cache e).ref)
    (hdisk : ∀ n, n ≠ (s.inodes.cache e).inum → s'.inodes.disk.dinode n = s.inodes.disk.dinode n)
    (hcopy : W → c.valid = true → ¬ ph'.Differs → c.ip = s'.inodes.disk.dinode c.inum)
    (htype : c.valid = true → ph' ≠ .cleared → c.ip.type ≠ .free ∧
      (s'.inodes.disk.dinode c.inum).type = c.ip.type) (hvalid : ph'.ReadIn → c.valid = true)
    (hlinks : ph' = .tested → c.ip.nlink = 0) : Inv W s' := by
  have hpos : 0 < (s.inodes.cache e).ref := h.pos ht
  have hself : s'.inodes.cache e = c := by rw [hcache, update_self]
  have hne : ∀ {e'}, e' ≠ e → s'.inodes.cache e' = s.inodes.cache e' := fun he => by
    rw [hcache, update_of_ne he]
  have htok : s'.ref t = some (.entry ph' e) := by rw [href, update_self]
  have htok' : ∀ {u}, u ≠ t → s'.ref u = s.ref u := fun hu => by
    rw [href, update_of_ne hu]
  -- a reference to another entry is as before
  have hfar : ∀ {u q e'}, e' ≠ e →
      (s'.ref u = some (.entry q e') ↔ s.ref u = some (.entry q e')) := by
    intro u q e' he
    by_cases hu : u = t
    · subst hu
      rw [htok, ht]
      exact iff_of_false (fun h => by cases h; exact he rfl) fun h => by cases h; exact he rfl
    · rw [htok' hu]
  -- another inode on the disk is as before
  have hdin : ∀ {e'}, e' ≠ e → 0 < (s.inodes.cache e').ref →
      s'.inodes.disk.dinode (s.inodes.cache e').inum =
        s.inodes.disk.dinode (s.inodes.cache e').inum := fun he hr =>
    hdisk _ fun hi => he (h.refs.uniq _ _ hr hpos hi)
  have hon : ∀ u e', On e' (s'.ref u) ↔ On e' (s.ref u) := by
    intro u e'
    by_cases hu : u = t
    · subst hu; rw [htok, ht]; exact .rfl
    · rw [htok' hu]
  have hids : ∀ e', (s'.inodes.cache e').inum = (s.inodes.cache e').inum ∧
      (s'.inodes.cache e').ref = (s.inodes.cache e').ref := by
    intro e'
    by_cases he : e' = e
    · subst he; rw [hself]; exact hid
    · rw [hne he]; exact ⟨rfl, rfl⟩
  refine ⟨⟨fun e₁ e₂ h₁ h₂ hi => ?_, fun e' => ?_⟩, hlock, ⟨fun hW e' hr hv hd => ?_,
    fun e' hr hv hd => ?_, fun u e' q hu hq => ?_, fun u e' hu => ?_⟩⟩
  · rw [(hids e₁).2] at h₁
    rw [(hids e₂).2] at h₂
    rw [(hids e₁).1, (hids e₂).1] at hi
    exact h.refs.uniq e₁ e₂ h₁ h₂ hi
  · obtain ⟨S, hS, hc⟩ := h.refs.count e'
    exact ⟨S, fun u => (hS u).trans (hon u e').symm, (hids e').2.trans hc⟩
  · by_cases he : e' = e
    · subst he
      rw [hself] at hv ⊢
      exact hcopy hW hv (hd t ph' htok)
    · rw [hne he] at hr hv ⊢
      rw [hdin he hr]
      exact h.copies.copy hW e' hr hv fun u q hu => hd u q ((hfar he).mpr hu)
  · by_cases he : e' = e
    · subst he
      rw [hself] at hv ⊢
      exact htype hv fun e => hd t (by rw [htok, e])
    · rw [hne he] at hr hv ⊢
      rw [hdin he hr]
      exact h.copies.type e' hr hv fun u hu => hd u ((hfar he).mpr hu)
  · by_cases he : e' = e
    · subst he
      rw [hself]
      by_cases eu : u = t
      · subst eu
        rw [htok] at hu
        cases hu
        exact hvalid hq
      · rw [htok' eu] at hu
        exact absurd ⟨q, hu, hq.locks⟩ (hother u eu)
    · rw [hne he]
      exact h.copies.valid u e' q ((hfar he).mp hu) hq
  · by_cases he : e' = e
    · subst he
      rw [hself]
      by_cases eu : u = t
      · subst eu
        rw [htok] at hu
        cases hu
        exact hlinks rfl
      · rw [htok' eu] at hu
        exact absurd ⟨.tested, hu, trivial⟩ (hother u eu)
    · rw [hne he]
      exact h.copies.nolinks u e' ((hfar he).mp hu)

omit [DecidableEq τ] in
/-- The inodes in memory stay, but for the counts and an entry that was not in use; so do those who
have a lock. -/
theorem Inv.copies_keep (h : Inv W s) (hdisk : s'.inodes.disk = s.inodes.disk)
    (hsame : ∀ e, s'.inodes.cache e = { s.inodes.cache e with ref := (s'.inodes.cache e).ref } ∧
        (0 < (s'.inodes.cache e).ref → 0 < (s.inodes.cache e).ref) ∨
      (s'.inodes.cache e).valid = false ∧ (s.inodes.cache e).ref = 0)
    (htok : ∀ {v ph e}, ph.Locks → (s'.ref v = some (.entry ph e) ↔ s.ref v = some (.entry ph e))) :
    Copies W s' := by
  refine ⟨fun hW e hr hv hd => ?_, fun e hr hv hd => ?_, fun v e q hv hq => ?_, fun v e hv => ?_⟩
  · rcases hsame e with ⟨hc, hpos⟩ | ⟨hf, -⟩
    · rw [hc] at hv ⊢
      rw [hdisk]
      exact h.copies.copy hW e (hpos hr) hv fun v ph hv hdf =>
        hd v ph ((htok hdf.locks).mpr hv) hdf
    · rw [hf] at hv; cases hv
  · rcases hsame e with ⟨hc, hpos⟩ | ⟨hf, -⟩
    · rw [hc] at hv ⊢
      rw [hdisk]
      exact h.copies.type e (hpos hr) hv fun v hv =>
        hd v ((htok (show Phase.cleared.Locks from trivial)).mpr hv)
    · rw [hf] at hv; cases hv
  · have hv' := (htok hq.locks).mp hv
    rcases hsame e with ⟨hc, -⟩ | ⟨-, h₀⟩
    · rw [hc]; exact h.copies.valid v e q hv' hq
    · exact absurd (by rw [hv']; rfl) (h.refs.unused h₀ v)
  · have hv' := (htok (show Phase.tested.Locks from trivial)).mp hv
    rcases hsame e with ⟨hc, -⟩ | ⟨-, h₀⟩
    · rw [hc]; exact h.copies.nolinks v e hv'
    · exact absurd (by rw [hv']; rfl) (h.refs.unused h₀ v)

/-- **A reference is taken**: to an entry in use, or to one that is not and is given to an inode
that has none. -/
theorem Inv.join {u : τ} (h : Inv W s) (hu : ∀ e', ¬ On e' (s.ref u))
    (hcache : s'.inodes.cache = update s.inodes.cache e c) (hdisk : s'.inodes.disk = s.inodes.disk)
    (hlock : s'.lock = s.lock) (href : s'.ref = update s.ref u (some (.entry .held e)))
    (hc : 0 < (s.inodes.cache e).ref ∧
        c = { s.inodes.cache e with ref := (s.inodes.cache e).ref + 1 } ∨
      (s.inodes.cache e).ref = 0 ∧ c.ref = 1 ∧ c.valid = false ∧
        ∀ e', 0 < (s.inodes.cache e').ref → (s.inodes.cache e').inum ≠ c.inum) : Inv W s' := by
  have hself : s'.inodes.cache e = c := by rw [hcache, update_self]
  have hne : ∀ {e'}, e' ≠ e → s'.inodes.cache e' = s.inodes.cache e' := fun he => by
    rw [hcache, update_of_ne he]
  have hcref : c.ref = (s.inodes.cache e).ref + 1 := by
    rcases hc with ⟨-, rfl⟩ | ⟨h₀, h₁, -⟩
    · rfl
    · omega
  -- only the new reference is `held`
  have htok : ∀ {v ph e'}, ph.Locks → (s'.ref v = some (.entry ph e') ↔
      s.ref v = some (.entry ph e')) := by
    intro v ph e' hph
    rw [href]
    by_cases ev : v = u
    · subst ev
      rw [update_self]
      exact iff_of_false (fun h => by cases h; exact hph) fun h => hu e' (by rw [h]; rfl)
    · rw [update_of_ne ev]
  -- no other entry in use is for the inode
  have hfar : ∀ {e'}, e' ≠ e → 0 < (s.inodes.cache e').ref → (s.inodes.cache e').inum ≠ c.inum := by
    intro e' he hr hi
    rcases hc with ⟨hpos, rfl⟩ | ⟨-, -, -, hno⟩
    · exact he (h.refs.uniq _ _ hr hpos hi)
    · exact hno e' hr hi
  refine ⟨⟨fun e₁ e₂ h₁ h₂ hi => ?_, fun e' => ?_⟩, fun e' => ?_,
    h.copies_keep hdisk (fun e' => ?_) htok⟩
  · by_cases he₁ : e₁ = e
    · by_cases he₂ : e₂ = e
      · rw [he₁, he₂]
      · subst he₁
        rw [hne he₂] at h₂ hi
        rw [hself] at hi
        exact absurd hi.symm (hfar he₂ h₂)
    · rw [hne he₁] at h₁ hi
      by_cases he₂ : e₂ = e
      · subst he₂
        rw [hself] at hi
        exact absurd hi (hfar he₁ h₁)
      · rw [hne he₂] at h₂ hi
        exact h.refs.uniq e₁ e₂ h₁ h₂ hi
  · obtain ⟨S, hS, hcard⟩ := h.refs.count e'
    by_cases he : e' = e
    · subst he
      have hnu : u ∉ S := fun hm => hu e' ((hS u).mp hm)
      refine ⟨insert u S, fun v => ?_, ?_⟩
      · rw [mem_insert, hS, href]
        by_cases ev : v = u
        · subst ev; rw [update_self]; exact iff_of_true (.inl rfl) rfl
        · rw [update_of_ne ev]; exact or_iff_right ev
      · rw [hself, hcref, card_insert_of_notMem hnu, hcard, Nat.cast_add, Nat.cast_one]
    · refine ⟨S, fun v => ?_, by rw [hne he, hcard]⟩
      rw [hS, href]
      by_cases ev : v = u
      · subst ev
        rw [update_self]
        exact iff_of_false (hu e') fun h => he h.symm
      · rw [update_of_ne ev]
  · rw [hlock, href]
    refine (h.lock e').keep (iff_of_false ?_ (not_holds hu))
    rintro ⟨ph, hr, hl⟩
    cases hr
    exact hl
  · by_cases he : e' = e
    · subst he
      rw [hself]
      rcases hc with ⟨hpos, rfl⟩ | ⟨h₀, -, hf, -⟩
      · exact .inl ⟨rfl, fun _ => hpos⟩
      · exact .inr ⟨hf, h₀⟩
    · rw [hne he]; exact .inl ⟨rfl, id⟩

/-- **A reference is dropped**, when its holder has let go of the lock. -/
theorem Inv.leave (h : Inv W s) (ht : s.ref t = some (.entry .dropping e)) :
    Inv W ((s.setInodes (s.inodes.deref e)).setRef t none) := by
  have hids : ∀ e', (s.inodes.deref e).cache e' = { s.inodes.cache e' with
      ref := (s.inodes.cache e').ref - if e' = e then 1 else 0 } := by
    intro e'
    by_cases he : e' = e
    · subst he; simp [deref]
    · rw [deref, upd_ne he]; simp [he]
  have hpos : ∀ {e'}, 0 < ((s.inodes.deref e).cache e').ref → 0 < (s.inodes.cache e').ref := by
    intro e' hr
    rw [hids e'] at hr
    dsimp only at hr
    split at hr <;> omega
  have htok : ∀ {v ph e'}, ph.Locks → (update s.ref t none v = some (.entry ph e') ↔
      s.ref v = some (.entry ph e')) := by
    intro v ph e' hph
    by_cases ev : v = t
    · subst ev
      rw [update_self, ht]
      exact iff_of_false (fun h => by cases h) fun h => by cases h; exact hph
    · rw [update_of_ne ev]
  have hinum : ∀ e', ((s.inodes.deref e).cache e').inum = (s.inodes.cache e').inum := fun e' => by
    rw [hids e']
  refine ⟨⟨fun e₁ e₂ h₁ h₂ hi => ?_, fun e' => ?_⟩, fun e' => ?_,
    h.copies_keep rfl (fun e' => .inl ⟨?_, hpos⟩) htok⟩
  · exact h.refs.uniq e₁ e₂ (hpos h₁) (hpos h₂) ((hinum e₁).symm.trans (hi.trans (hinum e₂)))
  · obtain ⟨S, hS, hcard⟩ := h.refs.count e'
    change ∃ S : Finset τ, (∀ v, v ∈ S ↔ On e' (update s.ref t none v)) ∧
      ((s.inodes.deref e).cache e').ref = S.card
    rw [hids e']
    dsimp only
    by_cases he : e' = e
    · subst he
      have hm : t ∈ S := (hS t).mpr (by rw [ht]; rfl)
      refine ⟨S.erase t, fun v => ?_, ?_⟩
      · rw [mem_erase, hS]
        by_cases ev : v = t
        · subst ev; rw [update_self]; exact iff_of_false (fun h => h.1 rfl) id
        · rw [update_of_ne ev]; exact and_iff_right ev
      · have hc₁ : 1 ≤ S.card := card_pos.mpr ⟨t, hm⟩
        rw [if_pos rfl, hcard, card_erase_of_mem hm, Nat.cast_sub hc₁, Nat.cast_one]
    · refine ⟨S, fun v => ?_, by rw [if_neg he, hcard, Int.sub_zero]⟩
      rw [hS]
      by_cases ev : v = t
      · subst ev
        rw [update_self, ht]
        exact iff_of_false (fun h => he h.symm) id
      · rw [update_of_ne ev]
  · refine (h.lock e').keep (iff_of_false (not_holds fun _ h => h) ?_)
    rw [ht]
    rintro ⟨ph, hr, hl⟩
    cases hr
    exact hl
  · show (s.inodes.deref e).cache e' =
      { s.inodes.cache e' with ref := ((s.inodes.deref e).cache e').ref }
    rw [hids e']

/-- A number in hand is no reference. -/
theorem Inv.number {r : Option Ref} (h : Inv W s) (ht : s.ref t = none) (hr : ∀ e, ¬ On e r) :
    Inv W (s.setRef t r) := by
  have htok : ∀ {v ph e'}, (update s.ref t r v = some (.entry ph e') ↔
      s.ref v = some (.entry ph e')) := by
    intro v ph e'
    by_cases ev : v = t
    · subst ev
      rw [update_self, ht]
      exact iff_of_false (fun h => hr e' (by rw [h]; rfl)) fun h => by cases h
    · rw [update_of_ne ev]
  have hon : ∀ v e', On e' (update s.ref t r v) ↔ On e' (s.ref v) := by
    intro v e'
    by_cases ev : v = t
    · subst ev
      rw [update_self, ht]
      exact iff_of_false (hr e') id
    · rw [update_of_ne ev]
  refine ⟨⟨h.refs.uniq, fun e' => ?_⟩, fun e' => ?_,
    h.copies_keep rfl (fun _ => .inl ⟨rfl, id⟩) fun _ => htok⟩
  · obtain ⟨S, hS, hc⟩ := h.refs.count e'
    exact ⟨S, fun v => (hS v).trans (hon v e').symm, hc⟩
  · exact (h.lock e').congr fun v => exists_congr fun ph => and_congr_left fun _ => htok

omit [DecidableEq τ] in
/-- **A free inode is marked on the disk.**  No entry in use holds it, unless it is being freed. -/
theorem Inv.mark {sb : Super} {n : Nat} {type : FileType} (h : Inv W s)
    (hn : (s.inodes.disk.dinode n).type = .free) :
    Inv W (s.setInodes (markAt sb s.inodes n type)) := by
  -- a valid entry that is not being freed has a type, and so has its inode
  have hkeep : ∀ e', 0 < (s.inodes.cache e').ref → (s.inodes.cache e').valid = true →
      (∀ v, s.ref v ≠ some (.entry .cleared e')) →
      (markAt sb s.inodes n type).disk.dinode (s.inodes.cache e').inum =
        s.inodes.disk.dinode (s.inodes.cache e').inum := by
    intro e' hr hv hd
    obtain ⟨h₁, h₂⟩ := h.copies.type e' hr hv hd
    refine update_of_ne (fun he => h₁ ?_) _ _
    rw [← h₂, he, hn]
  refine ⟨⟨h.refs.uniq, h.refs.count⟩, h.lock, ⟨fun hW e' hr hv hd => ?_, fun e' hr hv hd => ?_,
    h.copies.valid, h.copies.nolinks⟩⟩
  · exact (h.copies.copy hW e' hr hv hd).trans
      (hkeep e' hr hv fun v hv => hd v .cleared hv trivial).symm
  · obtain ⟨h₁, h₂⟩ := h.copies.type e' hr hv hd
    exact ⟨h₁, (congrArg Dinode.type (hkeep e' hr hv hd)).trans h₂⟩

/-- **The holder of a reference goes on**, and does not work on its entry. -/
theorem Inv.stay {lock : Fin NINODE → Option τ} (h : Inv W s) (ht : s.ref t = some (.entry ph e))
    (hd : ¬ ph.Differs) (hother : ∀ u, u ≠ t → ¬ Holds e (s.ref u))
    (hlock : ∀ e', Holder (lock e') (update s.ref t (some (.entry ph' e))) (Holds e'))
    (hvalid : ph'.ReadIn → (s.inodes.cache e).valid = true)
    (hlinks : ph' = .tested → (s.inodes.cache e).ip.nlink = 0) :
    Inv W ({ s with lock := lock }.setRef t (some (.entry ph' e))) := by
  have hnd := settled ht hd hother
  exact h.turn ht hother (update_eq_self e _).symm rfl hlock ⟨rfl, rfl⟩ (fun _ _ => rfl)
    (fun hW hv _ => h.copies.copy hW e (h.pos ht) hv hnd)
    (fun hv _ => h.copies.type e (h.pos ht) hv fun u hu => hnd u _ hu trivial) hvalid hlinks

variable {sb : Super} {op : Op τ}

/-- The lock of the entry stays with its holder. -/
theorem Inv.locks_keep (h : Inv W s) (ht : s.ref t = some (.entry ph e)) (hph : ph.Locks)
    (hph' : ph'.Locks) (e' : Fin NINODE) :
    Holder (s.lock e') (update s.ref t (some (.entry ph' e))) (Holds e') := by
  refine (h.lock e').keep ?_
  rw [ht]
  constructor
  · rintro ⟨q, hq, -⟩
    cases hq
    exact ⟨ph, rfl, hph⟩
  · rintro ⟨q, hq, -⟩
    cases hq
    exact ⟨ph', rfl, hph'⟩

/-- Two references, of which one has the lock of `e` now. -/
theorem Inv.locks_ne {o : Option τ} (h : Inv W s) (ht : s.ref t = some (.entry ph e)) (he : e' ≠ e)
    : Holder (update s.lock e o e') (update s.ref t (some (.entry ph' e))) (Holds e') := by
  rw [update_of_ne he]
  refine (h.lock e').keep ?_
  rw [ht]
  exact iff_of_false (fun ⟨q, hq, _⟩ => he (by cases hq; rfl)) fun ⟨q, hq, _⟩ =>
    he (by cases hq; rfl)

theorem load_cases (h : i.load e = .ok i') :
    i' = i ∧ (i.cache e).valid = true ∨ (i.disk.dinode (i.cache e).inum).type ≠ .free ∧
      i' = i.upd e fun c => { c with valid := true, ip := i.disk.dinode c.inum } := by
  unfold Inodes.load at h
  split at h
  · next hv => cases h; exact .inl ⟨rfl, hv⟩
  dsimp only at h
  split at h
  · cases h
  next hty =>
  cases h
  rw [upd_self] at hty
  exact .inr ⟨hty, rfl⟩

/-- Freeing an inode changes its entry and its place on the disk. -/
theorem freeInode_cases (h : freeInode sb i e = .ok i') :
    ∃ ip, i'.cache = update i.cache e { i.cache e with ip := ip } ∧
      ∀ n, n ≠ (i.cache e).inum → i'.disk.dinode n = i.disk.dinode n := by
  obtain ⟨⟨v, d⟩, hd, h⟩ := of_bind h
  cases h
  obtain ⟨-, hdin, -⟩ := Disk.itrunc_bitmap hd
  refine ⟨{ v with type := .free }, rfl, fun n hn => ?_⟩
  change update d.dinode _ _ n = _
  rw [update_of_ne hn, hdin, update_of_ne hn]

/-- `dirlookup` is called for directories that have all their blocks. -/
def Solid (s : State τ) : Op τ → Prop
  | .dirlookup t _ _ =>
    match s.ref t with
    | some (.entry .locked dp) => Whole s.inodes dp
    | _ => True
  | _ => True

/-- **Every step keeps the invariant**; that the inodes in memory are those on the disk, if the
directories that are read have all their blocks. -/
theorem inv_step (h : Inv W s) (hsolid : W → Solid s op) (hs : s.Step sb op s') : Inv W s' := by
  rcases StepKind.of_step hs with
    ⟨u, n, e, i, hu, -, hi, rfl⟩ | ⟨t, u, dp, name, r, i, ht, hu, rfl, hi, rfl⟩ |
    ⟨t, n, type, ht, hn, -, rfl⟩ | ⟨t, u, ph, e, -, ht, hu, rfl⟩ |
    ⟨t, ph, e, hph, ht, hl, -, rfl⟩ | ⟨t, e, i, ht, hi, -, rfl⟩ |
    ⟨t, ph, e, ip, data, bitmap, hph, ht, hip, -, rfl⟩ | ⟨t, ph, e, hph, ht, -, rfl⟩ |
    ⟨t, ph, ph', e, hph, ht, -, rfl⟩ | ⟨t, ph, e, ht, hph, -, rfl⟩ | ⟨t, e, i, ht, hi, -, rfl⟩ |
    ⟨t, e, ht, -, rfl⟩ | ⟨t, e, ht, -, rfl⟩
  · -- `iget`
    obtain ⟨hr, -, rfl⟩ | ⟨hr, hno, rfl⟩ := iget_cases hi
    · exact h.join hu rfl rfl rfl rfl (.inl ⟨hr, rfl⟩)
    · exact h.join hu rfl rfl rfl rfl (.inr ⟨hr, rfl, rfl, hno⟩)
  · -- `dirlookup` reads the directory, and may give it blocks
    obtain ⟨⟨a, hc⟩, hd⟩ := grown_dirSearch hi
    have href : (s.setInodes i).ref = update s.ref t (some (.entry .locked dp)) :=
      (update_eq_self_iff.mpr ht.symm).symm
    have hlook : Inv W (s.setInodes i) := by
      refine h.turn ht (h.others ⟨_, ht, trivial⟩) hc href h.lock ⟨rfl, rfl⟩
        (fun n _ => congrFun hd n) (fun hW hv _ => ?_) (fun hv _ => ?_)
        (fun _ => h.copies.valid t dp _ ht trivial) fun hq => by cases hq
      · have hw : Whole s.inodes dp := by
          have := hsolid hW
          simp only [Solid, ht] at this
          exact this
        obtain rfl := dirSearch_whole hw hi
        have hip := congrArg (fun f => (f dp).ip) hc
        rw [update_self] at hip
        exact hip.symm.trans
          (h.copies.copy hW dp (h.pos ht) hv (settled ht id (h.others ⟨_, ht, trivial⟩)))
      · have hty := h.typed ht trivial
        rw [← congrFun hd] at hty
        exact hty
    exact hlook.number hu fun e' he' => by cases r <;> exact he'
  · exact (h.mark hn).number ht fun _ h => h
  · -- `idup`
    exact h.join (fun _ hh => by rw [hu] at hh; exact hh) rfl rfl rfl rfl (.inl ⟨h.pos ht, rfl⟩)
  · -- the lock is taken
    have hfree : Holder none s.ref (Holds e) := hl ▸ h.lock e
    refine h.stay ht id (fun u _ hu => by cases (hfree u).mpr hu) (fun e' => ?_) (fun hq => ?_)
      fun hq => ?_
    · by_cases he : e' = e
      · subst he
        rw [update_self]
        refine hfree.take ⟨ph, rfl, ?_⟩
        rcases hph with rfl | rfl <;> trivial
      · exact h.locks_ne ht he
    · rcases hph with rfl | rfl <;> exact hq.elim
    · rcases hph with rfl | rfl <;> cases hq
  · -- the inode is read in
    have hhold : Holds e (s.ref t) := ⟨_, ht, trivial⟩
    obtain ⟨rfl, hv⟩ | ⟨hty, rfl⟩ := load_cases hi
    · exact h.stay ht id (h.others hhold) (h.locks_keep ht trivial trivial) (fun _ => hv)
        fun hq => by cases hq
    · exact h.turn ht (h.others hhold) rfl rfl (h.locks_keep ht trivial trivial) ⟨rfl, rfl⟩
        (fun _ _ => rfl) (fun _ _ _ => rfl) (fun _ _ => ⟨hty, rfl⟩) (fun _ => rfl)
        fun hq => by cases hq
  · -- the inode in memory is changed
    have hin : ph.ReadIn := by rcases hph with rfl | rfl <;> trivial
    have hhold : Holds e (s.ref t) := ⟨_, ht, hin.locks⟩
    have hv := h.copies.valid t e ph ht hin
    have hty := h.typed ht hin
    refine h.turn ht (h.others hhold) rfl rfl (h.locks_keep ht hin.locks trivial) ⟨rfl, rfl⟩
      (fun _ _ => rfl) (fun _ _ hq => absurd trivial hq) (fun _ _ => ?_) (fun _ => hv)
      fun hq => by cases hq
    exact ⟨hip ▸ hty.1, hty.2.trans hip.symm⟩
  · -- `iupdate`
    have hin : ph.ReadIn := by rcases hph with rfl | rfl <;> trivial
    have hhold : Holds e (s.ref t) := ⟨_, ht, hin.locks⟩
    have hv := h.copies.valid t e ph ht hin
    have hty := h.typed ht hin
    have hw : (writeBack sb s.inodes e).disk.dinode (s.inodes.cache e).inum =
        (s.inodes.cache e).ip := update_self _ _ _
    exact h.turn ht (h.others hhold) (update_eq_self e _).symm rfl
      (h.locks_keep ht hin.locks trivial) ⟨rfl, rfl⟩ (fun n hn => update_of_ne hn _ _)
      (fun _ _ _ => hw.symm) (fun _ _ => ⟨hty.1, congrArg Dinode.type hw⟩) (fun _ => hv)
      fun hq => by cases hq
  · -- the lock is let go
    have hlocks : ph.Locks ∧ ¬ ph.Differs := by
      rcases hph with ⟨rfl, -⟩ | ⟨rfl, -⟩
      · exact ⟨trivial, id⟩
      · exact ⟨trivial, id⟩
    have hfree : ¬ ph'.Locks ∧ ph' ≠ .tested := by
      rcases hph with ⟨-, rfl⟩ | ⟨-, rfl⟩
      · exact ⟨id, by decide⟩
      · exact ⟨id, by decide⟩
    have hhold : Holds e (s.ref t) := ⟨_, ht, hlocks.1⟩
    refine h.stay ht hlocks.2 (h.others hhold) (fun e' => ?_)
      (fun hq => absurd hq.locks hfree.1) fun hq => absurd hq hfree.2
    by_cases he : e' = e
    · subst he
      rw [update_self]
      refine (h.lock e').drop hhold ?_
      rintro ⟨q, hq, hl⟩
      cases hq
      exact hfree.1 hl
    · exact h.locks_ne ht he
  · -- `iput` looks at the entry
    refine h.stay ht id (h.others ⟨_, ht, trivial⟩) (h.locks_keep ht trivial ?_) (fun hq => ?_)
      fun hq => ?_
    · rcases hph with rfl | ⟨rfl, -⟩ <;> trivial
    · rcases hph with rfl | ⟨rfl, hv, -⟩
      · exact hq.elim
      · exact hv
    · rcases hph with rfl | ⟨rfl, -, hl, -⟩
      · cases hq
      · exact hl
  · -- `iput` frees the inode
    obtain ⟨ip, hc, hd⟩ := freeInode_cases hi
    exact h.turn ht (h.others ⟨_, ht, trivial⟩) hc rfl (h.locks_keep ht trivial trivial) ⟨rfl, rfl⟩
      hd (fun _ _ hq => absurd trivial hq) (fun _ hq => absurd rfl hq) (fun hq => hq.elim)
      fun hq => by cases hq
  · -- the entry is not valid any more
    exact h.turn ht (h.others ⟨_, ht, trivial⟩) rfl rfl (h.locks_keep ht trivial trivial)
      ⟨rfl, rfl⟩ (fun _ _ => rfl) (fun _ hv => by cases hv) (fun hv => by cases hv)
      (fun hq => hq.elim) fun hq => by cases hq
  · exact h.leave ht

/-! ### The entries in use -/

/-- An entry changes but stays for its inode. -/
theorem inum_update (hcache : i'.cache = update i.cache e c) (hc : c.inum = (i.cache e).inum) :
    (i'.cache e').inum = (i.cache e').inum := by
  rw [hcache]
  by_cases he : e' = e
  · subst he; rw [update_self]; exact hc
  · rw [update_of_ne he]

/-- The reference that `idup` adds. -/
theorem idup_same (i : Inodes) (e e' : Fin NINODE) :
    (i.idup e).cache e' = { i.cache e' with ref := ((i.idup e).cache e').ref } ∧
      (i.cache e').ref ≤ ((i.idup e).cache e').ref := by
  by_cases he : e' = e
  · subst he
    simp only [idup, upd_self]
    exact ⟨trivial, by omega⟩
  · rw [idup, upd_ne he]
    exact ⟨rfl, le_refl _⟩

/-- An entry `c` that becomes `c'` is not recycled: it stays for its inode, and a step that takes a
reference does not touch anything but the count. -/
def Kept (op : Op τ) (c c' : CInode) : Prop :=
  c'.inum = c.inum ∧ (Takes op → c' = { c with ref := c'.ref } ∧ c.ref ≤ c'.ref)

theorem kept_step (hs : s.Step sb op s') (hr : 0 < (s.inodes.cache e).ref) :
    Kept op (s.inodes.cache e) (s'.inodes.cache e) := by
  rcases StepKind.of_step hs with
    ⟨u, n, c, i, -, -, hi, rfl⟩ | ⟨t, u, c, name, r, i, -, -, rfl, hi, rfl⟩ |
    ⟨t, n, type, -, -, hop, rfl⟩ | ⟨t, u, ph, c, -, -, -, rfl⟩ |
    ⟨t, ph, c, -, -, -, hop, rfl⟩ | ⟨t, c, i, -, hi, hop, rfl⟩ |
    ⟨t, ph, c, ip, data, bitmap, -, -, -, hop, rfl⟩ | ⟨t, ph, c, -, -, hop, rfl⟩ |
    ⟨t, ph, ph', c, -, -, hop, rfl⟩ | ⟨t, ph, c, -, -, hop, rfl⟩ | ⟨t, c, i, -, hi, rfl, rfl⟩ |
    ⟨t, c, -, hop, rfl⟩ | ⟨t, c, -, hop, rfl⟩
  · obtain ⟨-, -, rfl⟩ | ⟨hr', -, rfl⟩ := iget_cases hi
    · exact ⟨inum_update rfl rfl, fun _ => idup_same s.inodes c e⟩
    · -- the entry that is taken is not in use
      have he : e ≠ c := fun h => by rw [h] at hr; omega
      simp only [State.setInodes, State.setRef, upd_ne he]
      exact ⟨rfl, fun _ => ⟨rfl, le_refl _⟩⟩
  · obtain ⟨⟨a, hc⟩, -⟩ := grown_dirSearch hi
    exact ⟨inum_update hc rfl, fun h => h.elim⟩
  · exact ⟨rfl, fun h => absurd h hop⟩
  · exact ⟨inum_update rfl rfl, fun _ => idup_same s.inodes c e⟩
  · exact ⟨rfl, fun h => absurd h hop⟩
  · refine ⟨?_, fun h => absurd h hop⟩
    obtain ⟨rfl, -⟩ | ⟨-, rfl⟩ := load_cases hi
    · rfl
    · exact inum_update rfl rfl
  · exact ⟨inum_update rfl rfl, fun h => absurd h hop⟩
  · exact ⟨rfl, fun h => absurd h hop⟩
  · exact ⟨rfl, fun h => absurd h hop⟩
  · exact ⟨rfl, fun h => absurd h hop⟩
  · obtain ⟨ip, hc, -⟩ := freeInode_cases hi
    exact ⟨inum_update hc rfl, fun h => h.elim⟩
  · exact ⟨inum_update rfl rfl, fun h => absurd h hop⟩
  · exact ⟨inum_update rfl rfl, fun h => absurd h hop⟩

end Step

end Xv6.Icache
