import Mathlib.Algebra.Order.BigOperators.Group.Finset
import Xv6.Fs.Calls
import Xv6.Lib.Tally

/-!
# Fs — Refs

Reference counts of files and inodes, and sleep locks, while any number of processes make calls that
interleave.  A process in the middle of a call has an account (`Hold`): the references to inodes and
to files that it has to answer for, the sleep locks that it holds, the files that it has just
allocated, and the child that it is making.  The invariant `Inv` says that all counts are exact when
the accounts are counted in, and that a process with no call in progress answers for its descriptors
and its current directory.
-/

namespace Xv6

open Lib Function Multiset Finset

/-- At most one element. -/
def one {α : Type} : Option α → Multiset α
  | none => 0
  | some a => {a}

/-- The reference that an open file has. -/
def FdType.refs : FdType → Multiset (Fin NINODE)
  | .inode e => {e}
  | _ => 0

/-- The references that descriptors have. -/
def slots (r : FProc) : Multiset (Fin NFILE) := ∑ fd, one (r.ofile fd)

/-- What a process in the middle of a call answers for. -/
structure Hold where
  proc : FProc
  inodes : Multiset (Fin NINODE)
  files : Multiset (Fin NFILE)
  locks : Multiset (Fin NINODE)
  fresh : Finset (Fin NFILE)
  child : Option (Fin NPROC × FProc)

/-- The account of a process with no call in progress. -/
def Hold.idle (r : FProc) : Hold := ⟨r, one r.cwd, slots r, 0, ∅, none⟩

/-- The references to files of a process with record `r`. -/
def fileShare (r : FProc) : Option Hold → Multiset (Fin NFILE)
  | some h => h.files
  | none => slots r

/-- The references to inodes of a process with record `r`. -/
def inodeShare (r : FProc) : Option Hold → Multiset (Fin NINODE)
  | some h => h.inodes
  | none => one r.cwd

namespace FsState

/-- The accounts of the processes; `none` with no call in progress. -/
abbrev Accounts := Fin NPROC → Option Hold

/-- All references to files. -/
def fileRefs (s : FsState) (G : Accounts) : Multiset (Fin NFILE) := ∑ p, fileShare (s.procs p) (G p)

/-- The references that open files have. -/
def openRefs (s : FsState) : Multiset (Fin NINODE) := ∑ f, (s.files f).type.refs

/-- The references to inodes that processes have. -/
def procRefs (s : FsState) (G : Accounts) : Multiset (Fin NINODE) :=
  ∑ p, inodeShare (s.procs p) (G p)

/-- A file that its process has just allocated. -/
structure Fresh (s : FsState) (h : Hold) (f : Fin NFILE) : Prop where
  type : (s.files f).type = .none
  ref : (s.files f).ref = 1
  held : h.files.count f = 1

/-- The account of `p`. -/
structure Acct (s : FsState) (G : Accounts) (p : Fin NPROC) (h : Hold) : Prop where
  proc : s.procs p = h.proc
  live : h.proc.state = .live
  nodup : h.locks.Nodup
  fresh : ∀ f ∈ h.fresh, Fresh s h f
  child : ∀ c r, h.child = some (c, r) → G c = none ∧ s.procs c = r ∧ r.state = .embryo

/-- All counts are exact. -/
structure Inv (s : FsState) (G : Accounts) : Prop where
  files : ∀ f, (s.files f).ref = (s.fileRefs G).count f
  inodes : ∀ e, s.ref e = (s.openRefs + s.procRefs G).count e
  lock : ∀ e p, s.lock e = some p ↔ ∃ h, G p = some h ∧ e ∈ h.locks
  closed : ∀ f, (s.files f).ref = 0 → (s.files f).type = .none
  acct : ∀ p h, G p = some h → s.Acct G p h
  parent : ∀ p q h k c r r', G p = some h → G q = some k → h.child = some (c, r) →
    k.child = some (c, r') → p = q
  unused : ∀ p, (s.procs p).state = .unused → slots (s.procs p) = 0 ∧ (s.procs p).cwd = none

variable {s s' : FsState} {G : Accounts} {p q : Fin NPROC} {h h' : Hold} {f : Fin NFILE}

namespace Inv

variable {e : Fin NINODE} {r : FProc}

/-- The references to a file are in the accounts of `p` and of the others. -/
theorem count_files (hI : Inv s G) (hp : G p = some h) : h.files.count f ≤ (s.files f).ref := by
  rw [hI.files]
  have : fileShare (s.procs p) (G p) ≤ s.fileRefs G :=
    single_le_sum (f := fun p => fileShare (s.procs p) (G p)) (fun _ _ => zero_le _) (mem_univ p)
  rw [hp] at this
  exact_mod_cast count_le_of_le f this

/-- No other process has a reference to a file that has just been allocated. -/
theorem fresh_excl {k : Hold} (hI : Inv s G) (hq : G q = some k) (hf : f ∈ k.fresh) (hne : q ≠ p)
    (hp : G p = some h) : h.files.count f = 0 := by
  obtain ⟨-, href, hheld⟩ := (hI.acct q k hq).fresh f hf
  have hsub : ∑ r ∈ {p, q}, fileShare (s.procs r) (G r) ≤ s.fileRefs G :=
    Finset.sum_le_sum_of_subset (Finset.subset_univ _)
  rw [Finset.sum_pair hne.symm, hp, hq] at hsub
  have hle := count_le_of_le f hsub
  rw [count_add] at hle
  have := hI.files f
  have hle : h.files.count f + k.files.count f ≤ (s.fileRefs G).count f := hle
  omega

theorem fileRefs_update (h' : Hold) (hp : G p = some h)
    (hprocs : ∀ q, q ≠ p → s'.procs q = s.procs q) :
    s'.fileRefs (update G p (some h')) + h.files = s.fileRefs G + h'.files := by
  have := tally_change (f := fun q => fileShare (s.procs q) (G q))
    (g := fun q => fileShare (s'.procs q) (update G p (some h') q)) p
    fun q hq => by rw [update_of_ne hq, hprocs q hq]
  rw [hp, update_self] at this
  exact this

theorem procRefs_update (h' : Hold) (hp : G p = some h)
    (hprocs : ∀ q, q ≠ p → s'.procs q = s.procs q) :
    s'.procRefs (update G p (some h')) + h.inodes = s.procRefs G + h'.inodes := by
  have := tally_change (f := fun q => inodeShare (s.procs q) (G q))
    (g := fun q => inodeShare (s'.procs q) (update G p (some h') q)) p
    fun q hq => by rw [update_of_ne hq, hprocs q hq]
  rw [hp, update_self] at this
  exact this

section

variable (hI : Inv s G) (hp : G p = some h)

include hI hp

/-- **A step of `p`** that changes no other process: counts and account change together. -/
theorem upd (hprocs : ∀ q, q ≠ p → s'.procs q = s.procs q) (hproc : s'.procs p = h'.proc)
    (hlive : h'.proc.state = .live) (hchild : h'.child = h.child)
    (hfiles : ∀ f, (s'.files f).ref + h.files.count f = (s.files f).ref + h'.files.count f)
    (hinodes : ∀ e, s'.ref e + h.inodes.count e + s.openRefs.count e =
      s.ref e + h'.inodes.count e + s'.openRefs.count e)
    (hlock : ∀ e q, s'.lock e = some q ↔ (q = p ∧ e ∈ h'.locks) ∨ (q ≠ p ∧ s.lock e = some q))
    (hnodup : h'.locks.Nodup) (hclosed : ∀ f, (s'.files f).ref = 0 → (s'.files f).type = .none)
    (hfresh : ∀ f ∈ h'.fresh, Fresh s' h' f)
    (hothers : ∀ q k f, q ≠ p → G q = some k → f ∈ k.fresh →
      (s'.files f).type = .none ∧ (s'.files f).ref = 1) : Inv s' (update G p (some h')) := by
  have hacct := hI.acct p h hp
  refine ⟨fun f => ?_, fun e => ?_, fun e q => ?_, hclosed, fun q k hk => ?_,
    fun q q' k k' c r r' hk hk' hc hc' => ?_, fun q hq => ?_⟩
  · have hsum := congrArg (count f) (fileRefs_update h' hp hprocs)
    rw [count_add, count_add] at hsum
    have := hI.files f
    have := hfiles f
    omega
  · have hsum := congrArg (count e) (procRefs_update h' hp hprocs)
    rw [count_add, count_add] at hsum
    have := hI.inodes e
    have := hinodes e
    rw [count_add] at *
    omega
  · rw [hlock]
    by_cases e' : q = p
    · subst e'; simp
    · simp [e', hI.lock]
  · by_cases e' : q = p
    · subst e'
      rw [update_self] at hk
      cases hk
      refine ⟨hproc, hlive, hnodup, hfresh, fun c r hc => ?_⟩
      obtain ⟨hg, hr, hs⟩ := hacct.child c r (hchild ▸ hc)
      have hne : c ≠ q := fun e => by rw [e, hp] at hg; cases hg
      exact ⟨by rw [update_of_ne hne]; exact hg, by rw [hprocs c hne]; exact hr, hs⟩
    · rw [update_of_ne e'] at hk
      have ha := hI.acct q k hk
      refine ⟨by rw [hprocs q e']; exact ha.proc, ha.live, ha.nodup, fun f hf => ?_,
        fun c r hc => ?_⟩
      · obtain ⟨ht, hr⟩ := hothers q k f e' hk hf
        exact ⟨ht, hr, (ha.fresh f hf).held⟩
      · obtain ⟨hg, hr, hs⟩ := ha.child c r hc
        have hne : c ≠ p := fun e => by rw [e, hp] at hg; cases hg
        exact ⟨by rw [update_of_ne hne]; exact hg, by rw [hprocs c hne]; exact hr, hs⟩
  · -- two parents of one child were parents of it before
    have old : ∀ {q k c r}, update G p (some h') q = some k → k.child = some (c, r) →
        ∃ k₀, G q = some k₀ ∧ k₀.child = some (c, r) := by
      intro q k c r hk hc
      by_cases e' : q = p
      · subst e'
        rw [update_self] at hk
        cases hk
        exact ⟨h, hp, hchild ▸ hc⟩
      · rw [update_of_ne e'] at hk
        exact ⟨k, hk, hc⟩
    obtain ⟨k₁, hk₁, hc₁⟩ := old hk hc
    obtain ⟨k₂, hk₂, hc₂⟩ := old hk' hc'
    exact hI.parent q q' k₁ k₂ c r r' hk₁ hk₂ hc₁ hc₂
  · by_cases e' : q = p
    · subst e'
      rw [hproc, hlive] at hq
      cases hq
    · rw [hprocs q e'] at hq ⊢
      exact hI.unused q hq

/-- A change of the inode layer. -/
theorem onInodes {i : Inodes} {m : Multiset (Fin NINODE)}
    (href : ∀ e, (i.cache e).ref + h.inodes.count e = s.ref e + m.count e) :
    Inv { s with inodes := i } (update G p (some { h with inodes := m })) := by
  have ha := hI.acct p h hp
  refine hI.upd hp (fun _ _ => rfl) ha.proc ha.live rfl (fun _ => rfl) (fun e => ?_) (fun e q => ?_)
    ha.nodup hI.closed (fun f hf => ⟨(ha.fresh f hf).type, (ha.fresh f hf).ref,
      (ha.fresh f hf).held⟩) fun q k f _ hk hf => ?_
  · have := href e
    change (i.cache e).ref + (h.inodes.count e : Int) + (s.openRefs.count e : Int) =
      s.ref e + (m.count e : Int) + (s.openRefs.count e : Int)
    omega
  · by_cases e' : q = p
    · subst e'; simp [hI.lock, hp]
    · simp [e']
  · have := (hI.acct q k hk).fresh f hf
    exact ⟨this.type, this.ref⟩

theorem acquire (hfree : s.lock e = none) :
    Inv (s.setLock e (some p)) (update G p (some { h with locks := e ::ₘ h.locks })) := by
  have ha := hI.acct p h hp
  have hnot : e ∉ h.locks := fun hm => by
    have := (hI.lock e p).mpr ⟨h, hp, hm⟩
    rw [hfree] at this
    cases this
  refine hI.upd hp (fun _ _ => rfl) ha.proc ha.live rfl (fun _ => rfl) (fun _ => rfl)
    (fun e' q => ?_) (nodup_cons.mpr ⟨hnot, ha.nodup⟩) hI.closed
    (fun f hf => ⟨(ha.fresh f hf).type, (ha.fresh f hf).ref, (ha.fresh f hf).held⟩)
    fun q k f _ hk hf => ?_
  · by_cases e₁ : e' = e
    · subst e₁
      simp [setLock, hfree, eq_comm]
    · by_cases e₂ : q = p
      · subst e₂; simp [setLock, e₁, hI.lock, hp]
      · simp [setLock, e₁, e₂]
  · have := (hI.acct q k hk).fresh f hf
    exact ⟨this.type, this.ref⟩

theorem release {l : Multiset (Fin NINODE)} (hl : h.locks = e ::ₘ l) :
    Inv (s.setLock e none) (update G p (some { h with locks := l })) := by
  have ha := hI.acct p h hp
  obtain ⟨hnot, hnd⟩ := nodup_cons.mp (hl ▸ ha.nodup)
  have hheld : s.lock e = some p := (hI.lock e p).mpr ⟨h, hp, by simp [hl]⟩
  refine hI.upd hp (fun _ _ => rfl) ha.proc ha.live rfl (fun _ => rfl) (fun _ => rfl)
    (fun e' q => ?_) hnd hI.closed
    (fun f hf => ⟨(ha.fresh f hf).type, (ha.fresh f hf).ref, (ha.fresh f hf).held⟩)
    fun q k f _ hk hf => ?_
  · by_cases e₁ : e' = e
    · subst e₁
      have : q ≠ p → p ≠ q := Ne.symm
      simp [setLock, hnot, hheld]
      tauto
    · by_cases e₂ : q = p
      · subst e₂; simp [setLock, e₁, hI.lock, hp, hl]
      · simp [setLock, e₁, e₂]
  · have := (hI.acct q k hk).fresh f hf
    exact ⟨this.type, this.ref⟩

/-- The process changes its own record. -/
theorem setProc (hr : r.state = .live) :
    Inv (s.setProc p r) (update G p (some { h with proc := r })) := by
  have ha := hI.acct p h hp
  refine hI.upd hp (fun q hq => update_of_ne hq _ _) (update_self _ _ _) hr rfl
    (fun _ => rfl) (fun _ => rfl) (fun e q => ?_) ha.nodup hI.closed
    (fun f hf => ⟨(ha.fresh f hf).type, (ha.fresh f hf).ref, (ha.fresh f hf).held⟩)
    fun q k f _ hk hf => ?_
  · by_cases e' : q = p
    · subst e'; simp [FsState.setProc, hI.lock, hp]
    · simp [FsState.setProc, e']
  · have := (hI.acct q k hk).fresh f hf
    exact ⟨this.type, this.ref⟩

/-- A file changes, of which no other process has just been given the first reference. -/
theorem setFile {v : File} (hproc : h'.proc = h.proc)
    (hlocks : h'.locks = h.locks) (hchild : h'.child = h.child)
    (href : v.ref + h.files.count f = (s.files f).ref + h'.files.count f)
    (hne : ∀ f', f' ≠ f → h'.files.count f' = h.files.count f')
    (hino : v.type.refs + h'.inodes = (s.files f).type.refs + h.inodes)
    (hclosed : v.ref = 0 → v.type = .none)
    (hfresh : ∀ f' ∈ h'.fresh, f' = f ∧ v.type = .none ∧ v.ref = 1 ∧ h'.files.count f = 1 ∨
      f' ≠ f ∧ f' ∈ h.fresh) (hothers : ∀ q k, q ≠ p → G q = some k → f ∉ k.fresh) :
    Inv (s.setFile f v) (update G p (some h')) := by
  have ha := hI.acct p h hp
  have hself : (s.setFile f v).files f = v := update_self _ _ _
  have hoff : ∀ f', f' ≠ f → (s.setFile f v).files f' = s.files f' :=
    fun f' e => update_of_ne e _ _
  have hopen : (s.setFile f v).openRefs + (s.files f).type.refs = s.openRefs + v.type.refs :=
    tally_update (fun _ (x : File) => x.type.refs) s.files f v
  refine hI.upd hp (fun _ _ => rfl) (hproc ▸ ha.proc) (hproc ▸ ha.live) hchild (fun f' => ?_)
    (fun e => ?_) (fun e q => ?_) (hlocks ▸ ha.nodup) (fun f' => ?_) (fun f' hf' => ?_)
    fun q k f' hq hk hf' => ?_
  · by_cases e' : f' = f
    · subst e'; rw [hself]; exact href
    · rw [hoff f' e', hne f' e']
  · have h₁ := congrArg (count e) hopen
    have h₂ := congrArg (count e) hino
    simp only [count_add] at h₁ h₂
    change s.ref e + _ + _ = _
    omega
  · by_cases e' : q = p
    · subst e'; simp [FsState.setFile, hI.lock, hp, hlocks]
    · simp [FsState.setFile, e']
  · by_cases e' : f' = f
    · subst e'; rw [hself]; exact hclosed
    · rw [hoff f' e']; exact hI.closed f'
  · rcases hfresh f' hf' with ⟨rfl, ht, hr, hc⟩ | ⟨e', hold⟩
    · exact ⟨by rw [hself]; exact ht, by rw [hself]; exact hr, hc⟩
    · obtain ⟨ht, hr, hc⟩ := ha.fresh f' hold
      exact ⟨by rw [hoff f' e']; exact ht, by rw [hoff f' e']; exact hr, by rw [hne f' e', hc]⟩
  · have e' : f' ≠ f := fun e => hothers q k hq hk (e ▸ hf')
    have := (hI.acct q k hk).fresh f' hf'
    rw [hoff f' e']
    exact ⟨this.type, this.ref⟩

end

/-! ### Calls begin and end -/

/-- A process that begins a call, or ends one with nothing left to answer for. -/
theorem swap {x : Option Hold} (hI : Inv s G)
    (hfiles : fileShare (s.procs p) x = fileShare (s.procs p) (G p))
    (hinodes : inodeShare (s.procs p) x = inodeShare (s.procs p) (G p))
    (hlocks : ∀ k e, G p = some k ∨ x = some k → e ∉ k.locks)
    (hacct : ∀ k, x = some k → k.child = none ∧ k.locks.Nodup ∧ k.fresh = ∅ ∧
      s.procs p = k.proc ∧ k.proc.state = .live)
    (hnot : ∀ q k r, G q = some k → k.child ≠ some (p, r)) : Inv s (update G p x) := by
  have hsums : s.fileRefs (update G p x) = s.fileRefs G ∧
      s.procRefs (update G p x) = s.procRefs G := by
    constructor <;> refine sum_congr rfl fun q _ => ?_ <;> by_cases e : q = p
    · subst e; rw [update_self, hfiles]
    · rw [update_of_ne e]
    · subst e; rw [update_self, hinodes]
    · rw [update_of_ne e]
  refine ⟨fun f => by rw [hsums.1]; exact hI.files f, fun e => by rw [hsums.2]; exact hI.inodes e,
    fun e q => ?_, hI.closed, fun q k hk => ?_, fun q q' k k' c r r' hk hk' hc hc' => ?_, hI.unused⟩
  · rw [hI.lock]
    by_cases e' : q = p
    · subst e'
      rw [update_self]
      constructor
      · rintro ⟨k, hk, hm⟩
        exact absurd hm (hlocks k e (.inl hk))
      · rintro ⟨k, hk, hm⟩
        exact absurd hm (hlocks k e (.inr hk))
    · rw [update_of_ne e']
  · by_cases e' : q = p
    · subst e'
      rw [update_self] at hk
      obtain ⟨hc, hnd, hf, hproc, hlive⟩ := hacct k hk
      exact ⟨hproc, hlive, hnd, by simp [hf], by simp [hc]⟩
    · rw [update_of_ne e'] at hk
      have ha := hI.acct q k hk
      refine ⟨ha.proc, ha.live, ha.nodup, ha.fresh, fun c r hc => ?_⟩
      have hne : c ≠ p := fun e => hnot q k r hk (e ▸ hc)
      rw [update_of_ne hne]
      exact ha.child c r hc
  · have old : ∀ {q k c r}, update G p x q = some k → k.child = some (c, r) → G q = some k := by
      intro q k c r hk hc
      by_cases e' : q = p
      · subst e'
        rw [update_self] at hk
        rw [(hacct k hk).1] at hc
        cases hc
      · rwa [update_of_ne e'] at hk
    exact hI.parent q q' k k' c r r' (old hk hc) (old hk' hc') hc hc'

/-- A process that is not in the middle of a call begins one. -/
theorem start (hI : Inv s G) (hp : G p = none) (hlive : (s.procs p).state = .live) :
    Inv s (update G p (some (Hold.idle (s.procs p)))) := by
  refine hI.swap (by rw [hp]; rfl) (by rw [hp]; rfl) (fun k e hk => ?_) (fun k hk => ?_)
    fun q k r hk hc => ?_
  · rcases hk with hk | hk
    · rw [hp] at hk; cases hk
    · cases hk; exact notMem_zero e
  · cases hk; exact ⟨rfl, nodup_zero, rfl, rfl, hlive⟩
  · obtain ⟨-, hr, hs⟩ := (hI.acct q k hk).child p r hc
    rw [← hr, hlive] at hs
    cases hs

/-- A call ends. -/
theorem finish (hI : Inv s G) (hp : G p = some (Hold.idle r)) : Inv s (update G p none) := by
  have hproc := (hI.acct p _ hp).proc
  refine hI.swap (by rw [hp, hproc]; rfl) (by rw [hp, hproc]; rfl) (fun k e hk => ?_)
    (fun k hk => by cases hk) fun q k r hk hc => ?_
  · rcases hk with hk | hk
    · rw [hp] at hk; cases hk; exact notMem_zero e
    · cases hk
  · have hg := ((hI.acct q k hk).child p r hc).1
    rw [hp] at hg
    cases hg

/-- The record of a process with no call in progress, which is no one's child, changes its state
only. -/
theorem setState (hI : Inv s G) (hp : G p = none)
    (hnot : ∀ q k r, G q = some k → k.child ≠ some (p, r)) (hslots : slots r = slots (s.procs p))
    (hcwd : r.cwd = (s.procs p).cwd) (hunused : r.state = .unused → slots r = 0 ∧ r.cwd = none) :
    Inv (s.setProc p r) G := by
  have hself : (s.setProc p r).procs p = r := update_self _ _ _
  have hoff : ∀ q, q ≠ p → (s.setProc p r).procs q = s.procs q :=
    fun q e => update_of_ne e _ _
  have hsums : (s.setProc p r).fileRefs G = s.fileRefs G ∧
      (s.setProc p r).procRefs G = s.procRefs G := by
    constructor <;> refine sum_congr rfl fun q _ => ?_ <;> by_cases e : q = p
    · subst e; rw [hself, hp]; exact hslots
    · rw [hoff q e]
    · subst e; rw [hself, hp]; exact congrArg one hcwd
    · rw [hoff q e]
  refine ⟨fun f => by rw [hsums.1]; exact hI.files f, fun e => by rw [hsums.2]; exact hI.inodes e,
    hI.lock, hI.closed, fun q k hk => ?_, hI.parent, fun q hq => ?_⟩
  · have hne : q ≠ p := fun e => by rw [e, hp] at hk; cases hk
    have ha := hI.acct q k hk
    refine ⟨by rw [hoff q hne]; exact ha.proc, ha.live, ha.nodup,
      fun f hf => ⟨(ha.fresh f hf).type, (ha.fresh f hf).ref, (ha.fresh f hf).held⟩,
      fun c r' hc => ?_⟩
    have hne' : c ≠ p := fun e => hnot q k r' hk (e ▸ hc)
    rw [hoff c hne']
    exact ha.child c r' hc
  · by_cases e : q = p
    · subst e; rw [hself] at hq ⊢; exact hunused hq
    · rw [hoff q e] at hq ⊢; exact hI.unused q hq

/-! ### The child of `fork` -/

/-- A step of `p` that gives references to the child `c` that it is making. -/
theorem setChild {c : Fin NPROC} (hI : Inv s G) (hp : G p = some h) (hc : G c = none)
    (hexcl : ∀ q k r, q ≠ p → G q = some k → k.child ≠ some (c, r)) (hproc : h'.proc = h.proc)
    (hlocks : h'.locks = h.locks) (hfresh : h'.fresh = ∅)
    (hfiles : slots r + h'.files = slots (s.procs c) + h.files)
    (hinodes : one r.cwd + h'.inodes = one (s.procs c).cwd + h.inodes)
    (hchild : ∀ c₁ r₁, h'.child = some (c₁, r₁) → c₁ = c ∧ r₁ = r ∧ r.state = .embryo)
    (hunused : r.state = .unused → slots r = 0 ∧ r.cwd = none) :
    Inv (s.setProc c r) (update G p (some h')) := by
  have hcp : p ≠ c := fun e => by rw [e, hc] at hp; cases hp
  have ha := hI.acct p h hp
  have hself : (s.setProc c r).procs c = r := update_self _ _ _
  have hoff : ∀ q, q ≠ c → (s.setProc c r).procs q = s.procs q :=
    fun q e => update_of_ne e _ _
  have hf := tally_change₂ (f := fun q => fileShare (s.procs q) (G q))
    (g := fun q => fileShare ((s.setProc c r).procs q) (update G p (some h') q)) hcp
    fun q e₁ e₂ => by rw [update_of_ne e₁, hoff q e₂]
  have hi := tally_change₂ (f := fun q => inodeShare (s.procs q) (G q))
    (g := fun q => inodeShare ((s.setProc c r).procs q) (update G p (some h') q)) hcp
    fun q e₁ e₂ => by rw [update_of_ne e₁, hoff q e₂]
  rw [hp, hc, update_self, update_of_ne hcp.symm, hc, hself] at hf hi
  have hf : (s.setProc c r).fileRefs (update G p (some h')) + (h.files + slots (s.procs c)) =
      s.fileRefs G + (h'.files + slots r) := hf
  have hi : (s.setProc c r).procRefs (update G p (some h')) +
      (h.inodes + one (s.procs c).cwd) = s.procRefs G + (h'.inodes + one r.cwd) := hi
  refine ⟨fun f => ?_, fun e => ?_, fun e q => ?_, hI.closed, fun q k hk => ?_,
    fun q q' k k' c₁ r₁ r₂ hk hk' hc₁ hc₂ => ?_, fun q hq => ?_⟩
  · rw [add_comm h'.files, hfiles, add_comm h.files] at hf
    rw [add_right_cancel hf]
    exact hI.files f
  · rw [add_comm h'.inodes, hinodes, add_comm h.inodes] at hi
    rw [add_right_cancel hi]
    exact hI.inodes e
  · change s.lock e = some q ↔ _
    rw [hI.lock]
    by_cases e' : q = p
    · subst e'; simp [hp, hlocks]
    · rw [update_of_ne e']
  · by_cases e' : q = p
    · subst e'
      rw [update_self] at hk
      cases hk
      refine ⟨by rw [hoff q hcp, hproc]; exact ha.proc, hproc ▸ ha.live, hlocks ▸ ha.nodup,
        by simp [hfresh], fun c₁ r₁ hc₁ => ?_⟩
      obtain ⟨rfl, rfl, hst⟩ := hchild c₁ r₁ hc₁
      exact ⟨by rw [update_of_ne hcp.symm]; exact hc, hself, hst⟩
    · rw [update_of_ne e'] at hk
      have hqc : q ≠ c := fun e => by rw [e, hc] at hk; cases hk
      have hq := hI.acct q k hk
      refine ⟨by rw [hoff q hqc]; exact hq.proc, hq.live, hq.nodup,
        fun f hf => ⟨(hq.fresh f hf).type, (hq.fresh f hf).ref, (hq.fresh f hf).held⟩,
        fun c₁ r₁ hc₁ => ?_⟩
      have hne : c₁ ≠ c := fun e => hexcl q k r₁ e' hk (e ▸ hc₁)
      obtain ⟨hg, hr, hs⟩ := hq.child c₁ r₁ hc₁
      have hne' : c₁ ≠ p := fun e => by rw [e, hp] at hg; cases hg
      exact ⟨by rw [update_of_ne hne']; exact hg, by rw [hoff c₁ hne]; exact hr, hs⟩
  · -- a child of `p` is `c`, which is no one else's
    have old : ∀ {q k c₁ r₁}, update G p (some h') q = some k → k.child = some (c₁, r₁) →
        q = p ∧ c₁ = c ∨ q ≠ p ∧ c₁ ≠ c ∧ G q = some k := by
      intro q k c₁ r₁ hk hc₁
      by_cases e' : q = p
      · subst e'
        rw [update_self] at hk
        cases hk
        exact .inl ⟨rfl, (hchild c₁ r₁ hc₁).1⟩
      · rw [update_of_ne e'] at hk
        exact .inr ⟨e', fun e => hexcl q k r₁ e' hk (e ▸ hc₁), hk⟩
    rcases old hk hc₁ with ⟨h₁, h₂⟩ | ⟨h₁, h₂, h₃⟩ <;>
      rcases old hk' hc₂ with ⟨h₄, h₅⟩ | ⟨h₄, h₅, h₆⟩
    · rw [h₁, h₄]
    · exact absurd h₂ h₅
    · exact absurd h₅ h₂
    · exact hI.parent q q' k k' c₁ r₁ r₂ h₃ h₆ hc₁ hc₂
  · by_cases e : q = c
    · subst e; rw [hself] at hq ⊢; exact hunused hq
    · rw [hoff q e] at hq ⊢; exact hI.unused q hq

end Inv

end FsState

end Xv6
