import Xv6.Lib.Circular
import Xv6.Lib.Lock
import Xv6.Lib.Run
import Xv6.Log.Commit
import Mathlib.Data.Finset.Card

/-!
# Fs — Bcache

The buffer cache: `bio.c` over the disk of `memide.c`.  A session is one use of a buffer: `bread` of a
block of device 1, any number of changes of the data, each one followed by `log_write` or `bwrite`,
and `brelse`.  Any number of sessions `τ` go on at the same time; a process that has several buffers
at once, as `write_log` and `install_trans` of a commit have, is in several sessions.

A step is a section under `bcache.lock`, or what a session does to a buffer whose sleep lock it holds.
Beside the cache the state records what was last put in a buffer for each block (`last`).

* `bcache_coherent`: the links are one circle of all the buffers, a block has at most one buffer, and
  what `bread` returns is what was last put there; a buffer that is in use or dirty keeps its block.
-/

namespace Xv6.Bio

open Lib Function List

def NBUF : Nat := MAXOPBLOCKS * 3

/-- The device of the file system. -/
def ROOTDEV : Nat := 1

/-- `struct buf`, but for its links and its lock. -/
structure Buf where
  /-- `B_VALID` -/
  valid : Bool
  /-- `B_DIRTY` -/
  dirty : Bool
  dev : Nat
  blockno : Nat
  refcnt : Nat
  data : Block

/-- How far a session is. -/
inductive Phase where
  /-- `bget` has the buffer, and waits for its lock -/
  | found
  /-- `bget` has returned -/
  | locked
  /-- `bread` has returned -/
  | held
  /-- the data has been changed -/
  | changed
  /-- `brelse` has let go of the lock -/
  | released
  deriving DecidableEq

/-- A session with the buffer `b`, for block `x`. -/
structure Session where
  phase : Phase
  b : Fin NBUF
  x : Nat
  deriving DecidableEq

/-- `bcache`, its locks, the disk and the sessions; the head of the list is `none`. -/
structure Cache (τ : Type) where
  buf : Fin NBUF → Buf
  links : Links (Option (Fin NBUF))
  lock : Fin NBUF → Option τ
  disk : Nat → Block
  session : τ → Option Session
  /-- what was last put in a buffer for a block -/
  last : Nat → Block

inductive Op (τ : Type) where
  | bget (t : τ) (x : Nat)
  | acquiresleep (t : τ)
  | bread (t : τ)
  | modify (t : τ) (data : Block)
  | logWrite (t : τ)
  | bwrite (t : τ)
  | releasesleep (t : τ)
  | brelse (t : τ)

variable {τ : Type} {e : Option Session} {l : List (Fin NBUF)}

/-- `binit`, with the disk as it is. -/
def binit (disk : Nat → Block) : Cache τ where
  buf _ := ⟨false, false, 0, 0, 0, fun _ => 0⟩
  links := (List.finRange NBUF).foldl (fun p b => p.insertFront none (some b))
    ⟨fun _ => none, fun _ => none⟩
  lock _ := none
  disk := disk
  session _ := none
  last := disk

namespace Cache

variable [DecidableEq τ]

def setBuf (s : Cache τ) (b : Fin NBUF) (v : Buf) : Cache τ :=
  { s with buf := update s.buf b v }

def setSession (s : Cache τ) (t : τ) (e : Option Session) : Cache τ :=
  { s with session := update s.session t e }

def setLock (s : Cache τ) (b : Fin NBUF) (o : Option τ) : Cache τ :=
  { s with lock := update s.lock b o }

/-- The section of `bget` under `bcache.lock`. -/
def bget (s : Cache τ) (dev blockno : Nat) : Res (Fin NBUF × Cache τ) :=
  let cached (n : Option (Fin NBUF)) : Bool :=
    n.any fun b => (s.buf b).dev = dev ∧ (s.buf b).blockno = blockno
  let unused (n : Option (Fin NBUF)) : Bool :=
    n.any fun b => (s.buf b).refcnt = 0 ∧ (s.buf b).dirty = false
  match (Links.scan s.links.next none cached (NBUF + 1) (s.links.next none)).join with
  | some b => .ok (b, s.setBuf b { s.buf b with refcnt := (s.buf b).refcnt + 1 })
  | none =>
    match (Links.scan s.links.prev none unused (NBUF + 1) (s.links.prev none)).join with
    | some b => .ok (b, s.setBuf b { s.buf b with
        dev := dev, blockno := blockno, valid := false, dirty := false, refcnt := 1 })
    | none => .error (.panic "bget: no buffers")

/-- `holdingsleep`: someone has the lock. -/
def holdingsleep (s : Cache τ) (b : Fin NBUF) : Bool := (s.lock b).isSome

/-- `iderw`. -/
def iderw (disksize : Nat) (s : Cache τ) (b : Fin NBUF) : Res (Cache τ) :=
  if s.holdingsleep b = false then .error (.panic "iderw: buf not locked")
  else if (s.buf b).valid = true ∧ (s.buf b).dirty = false then
    .error (.panic "iderw: nothing to do")
  else if (s.buf b).dev ≠ 1 then .error (.panic "iderw: request not for disk 1")
  else if (s.buf b).blockno ≥ disksize then .error (.panic "iderw: block out of range")
  else if (s.buf b).dirty then
    .ok { s.setBuf b { s.buf b with dirty := false, valid := true } with
      disk := update s.disk (s.buf b).blockno (s.buf b).data }
  else .ok (s.setBuf b { s.buf b with data := s.disk (s.buf b).blockno, valid := true })

/-- `bwrite`. -/
def bwrite (disksize : Nat) (s : Cache τ) (b : Fin NBUF) : Res (Cache τ) :=
  if s.holdingsleep b = false then .error (.panic "bwrite")
  else (s.setBuf b { s.buf b with dirty := true }).iderw disksize b

/-- The section of `brelse` under `bcache.lock`. -/
def brelse (s : Cache τ) (b : Fin NBUF) : Cache τ :=
  let s := s.setBuf b { s.buf b with refcnt := (s.buf b).refcnt - 1 }
  if (s.buf b).refcnt = 0 then
    { s with links := (s.links.unlink (some b)).insertFront none (some b) }
  else s

/-- `bwrite` writes the data to the disk. -/
theorem bwrite_ok {disksize : Nat} {s s' : Cache τ} {b : Fin NBUF}
    (h : s.bwrite disksize b = .ok s') : s' =
      { s.setBuf b { s.buf b with dirty := false, valid := true } with
        disk := update s.disk (s.buf b).blockno (s.buf b).data } := by
  unfold bwrite at h
  split at h
  · cases h
  unfold iderw at h
  simp only [setBuf, update_self, update_idem] at h
  split at h
  · cases h
  rw [if_neg (by simp)] at h
  split at h
  · cases h
  split at h
  · cases h
  · rw [if_pos trivial] at h
    cases h
    rfl

/-- But for the links, `brelse` counts one user less. -/
theorem brelse_eq (s : Cache τ) (b : Fin NBUF) : s.brelse b =
    { s.setBuf b { s.buf b with refcnt := (s.buf b).refcnt - 1 } with
      links := (s.brelse b).links } := by
  unfold brelse
  dsimp only
  split <;> rfl

/-- One step of a session. -/
def exec (disksize : Nat) (s : Cache τ) : Op τ → Res (Cache τ)
  | .bget t x =>
    match s.session t with
    | none => do
      let (b, s) ← s.bget ROOTDEV x
      return s.setSession t (some ⟨.found, b, x⟩)
    | some _ => .error (.fault "not at this point")
  | .acquiresleep t =>
    match s.session t with
    | some ⟨.found, b, x⟩ =>
      if s.lock b = none then
        .ok ((s.setLock b (some t)).setSession t (some ⟨.locked, b, x⟩))
      else .error (.fault "the process sleeps")
    | _ => .error (.fault "not at this point")
  | .bread t =>
    match s.session t with
    | some ⟨.locked, b, x⟩ => do
      let s ← if (s.buf b).valid = false then s.iderw disksize b else .ok s
      return s.setSession t (some ⟨.held, b, x⟩)
    | _ => .error (.fault "not at this point")
  | .modify t data =>
    match s.session t with
    | some ⟨.held, b, x⟩ | some ⟨.changed, b, x⟩ =>
      .ok { (s.setBuf b { s.buf b with data := data }).setSession t (some ⟨.changed, b, x⟩) with
        last := update s.last x data }
    | _ => .error (.fault "not at this point")
  | .logWrite t =>
    match s.session t with
    | some ⟨.held, b, x⟩ | some ⟨.changed, b, x⟩ =>
      .ok ((s.setBuf b { s.buf b with dirty := true }).setSession t (some ⟨.held, b, x⟩))
    | _ => .error (.fault "not at this point")
  | .bwrite t =>
    match s.session t with
    | some ⟨.held, b, x⟩ | some ⟨.changed, b, x⟩ => do
      let s ← s.bwrite disksize b
      return s.setSession t (some ⟨.held, b, x⟩)
    | _ => .error (.fault "not at this point")
  | .releasesleep t =>
    match s.session t with
    | some ⟨.held, b, x⟩ =>
      if s.holdingsleep b = false then .error (.panic "brelse")
      else .ok ((s.setLock b none).setSession t (some ⟨.released, b, x⟩))
    | _ => .error (.fault "not at this point")
  | .brelse t =>
    match s.session t with
    | some ⟨.released, b, _⟩ => .ok ((s.brelse b).setSession t none)
    | _ => .error (.fault "not at this point")

/-- One step. -/
def Step (disksize : Nat) (s : Cache τ) (op : Op τ) (s' : Cache τ) : Prop :=
  s.exec disksize op = .ok s'

end Cache

/-! ### The invariant -/

/-- The buffer and the block of a session. -/
def target (e : Option Session) : Option (Fin NBUF × Nat) := e.map fun e => (e.b, e.x)

/-- The session uses the buffer `b`. -/
def Uses (b : Fin NBUF) (e : Option Session) : Prop := ∃ x, target e = some (b, x)

/-- The session holds the sleep lock of `b`. -/
def Holds (b : Fin NBUF) : Option Session → Prop
  | some ⟨.locked, c, _⟩ | some ⟨.held, c, _⟩ | some ⟨.changed, c, _⟩ => c = b
  | _ => False

/-- `bread` has returned `b` for block `x`, and `brelse` has not been called. -/
def Has (b : Fin NBUF) (x : Nat) (e : Option Session) : Prop :=
  e = some ⟨.held, b, x⟩ ∨ e = some ⟨.changed, b, x⟩

theorem Has.target_eq {b : Fin NBUF} {x : Nat} (h : Has b x e) : target e = some (b, x) := by
  rcases h with rfl | rfl <;> rfl

/-- The links, and which block each buffer is for. -/
structure Ids (s : Cache τ) : Prop where
  circle : ∃ l : List (Fin NBUF), Circular s.links none (l.map some) ∧ ∀ b, b ∈ l
  uniq : ∀ b c, (s.buf b).dev = ROOTDEV → (s.buf c).dev = ROOTDEV →
    (s.buf b).blockno = (s.buf c).blockno → b = c
  refs : ∀ b, ∃ S : Finset τ, (∀ t, t ∈ S ↔ Uses b (s.session t)) ∧ (s.buf b).refcnt = S.card
  block : ∀ t b x, target (s.session t) = some (b, x) →
    (s.buf b).dev = ROOTDEV ∧ (s.buf b).blockno = x

/-- The buffer may be newer than the disk. -/
def Newer (s : Cache τ) (b : Fin NBUF) : Prop :=
  (s.buf b).dirty = true ∨ ∃ t x, s.session t = some ⟨.changed, b, x⟩

/-- What the buffers and the disk hold. -/
structure Data (s : Cache τ) : Prop where
  valid : ∀ t b x, Has b x (s.session t) → (s.buf b).valid = true
  dirty : ∀ b, (s.buf b).dirty = true → (s.buf b).valid = true
  data : ∀ b, (s.buf b).dev = ROOTDEV → (s.buf b).valid = true →
    (s.buf b).data = s.last (s.buf b).blockno
  sync : ∀ x, (∀ b, (s.buf b).dev = ROOTDEV → (s.buf b).blockno = x → ¬ Newer s b) →
    s.disk x = s.last x

structure Inv (s : Cache τ) : Prop where
  ids : Ids s
  lock : ∀ b, Holder (s.lock b) s.session (Holds b)
  data : Data s

/-- What a step can be. -/
inductive StepKind [DecidableEq τ] (s : Cache τ) : Op τ → Cache τ → Prop where
  | hit {t b x} (hs : s.session t = none)
      (hb : (s.buf b).dev = ROOTDEV ∧ (s.buf b).blockno = x) :
      StepKind s (.bget t x) ((s.setBuf b { s.buf b with
        refcnt := (s.buf b).refcnt + 1 }).setSession t (some ⟨.found, b, x⟩))
  | recycle {t b x} (hs : s.session t = none)
      (hno : ∀ c, ¬ ((s.buf c).dev = ROOTDEV ∧ (s.buf c).blockno = x))
      (hr : (s.buf b).refcnt = 0) (hd : (s.buf b).dirty = false) :
      StepKind s (.bget t x) ((s.setBuf b { s.buf b with
        dev := ROOTDEV, blockno := x, valid := false, dirty := false,
        refcnt := 1 }).setSession t (some ⟨.found, b, x⟩))
  | lock {t b x} (hs : s.session t = some ⟨.found, b, x⟩) (hl : s.lock b = none) :
      StepKind s (.acquiresleep t) ((s.setLock b (some t)).setSession t (some ⟨.locked, b, x⟩))
  | cached {t b x} (hs : s.session t = some ⟨.locked, b, x⟩) (hv : (s.buf b).valid = true) :
      StepKind s (.bread t) (s.setSession t (some ⟨.held, b, x⟩))
  | fill {t b x} (hs : s.session t = some ⟨.locked, b, x⟩) (hv : (s.buf b).valid = false) :
      StepKind s (.bread t) ((s.setBuf b { s.buf b with
        data := s.disk (s.buf b).blockno, valid := true }).setSession t (some ⟨.held, b, x⟩))
  | modify {t b x data} (hs : Has b x (s.session t)) :
      StepKind s (.modify t data)
        { (s.setBuf b { s.buf b with data := data }).setSession t (some ⟨.changed, b, x⟩) with
          last := update s.last x data }
  | logWrite {t b x} (hs : Has b x (s.session t)) :
      StepKind s (.logWrite t) ((s.setBuf b { s.buf b with
        dirty := true }).setSession t (some ⟨.held, b, x⟩))
  | bwrite {t b x} (hs : Has b x (s.session t)) :
      StepKind s (.bwrite t)
        { (s.setBuf b { s.buf b with dirty := false, valid := true }).setSession t
            (some ⟨.held, b, x⟩) with
          disk := update s.disk (s.buf b).blockno (s.buf b).data }
  | unlock {t b x} (hs : s.session t = some ⟨.held, b, x⟩) :
      StepKind s (.releasesleep t) ((s.setLock b none).setSession t (some ⟨.released, b, x⟩))
  | brelse {t b x} (hs : s.session t = some ⟨.released, b, x⟩) :
      StepKind s (.brelse t) ((s.brelse b).setSession t none)

variable {s s' : Cache τ} {t : τ} {b : Fin NBUF} {x : Nat}

/-! ### Links and blocks -/

namespace Ids

theorem unused (h : Ids s) (hr : (s.buf b).refcnt = 0) (u : τ) : ¬ Uses b (s.session u) := by
  obtain ⟨S, hS, hc⟩ := h.refs b
  rw [hr] at hc
  rw [← hS, Finset.card_eq_zero.mp hc.symm]
  exact Finset.notMem_empty u

/-- Nothing that matters changes. -/
theorem congr (h : Ids s) (hl : s'.links = s.links)
    (hb : ∀ b, (s'.buf b).dev = (s.buf b).dev ∧ (s'.buf b).blockno = (s.buf b).blockno ∧
      (s'.buf b).refcnt = (s.buf b).refcnt)
    (hs : ∀ u, target (s'.session u) = target (s.session u)) : Ids s' := by
  refine ⟨by rw [hl]; exact h.circle, fun b c h₁ h₂ h₃ => ?_, fun b => ?_, fun u b x hu => ?_⟩
  · rw [(hb b).1] at h₁
    rw [(hb c).1] at h₂
    rw [(hb b).2.1, (hb c).2.1] at h₃
    exact h.uniq b c h₁ h₂ h₃
  · obtain ⟨S, hS, hc⟩ := h.refs b
    refine ⟨S, fun u => ?_, (hb b).2.2.trans hc⟩
    rw [hS, Uses, Uses, hs]
  · rw [hs] at hu
    rw [(hb b).1, (hb b).2.1]
    exact h.block u b x hu

variable [DecidableEq τ]

/-- A session goes on with its buffer. -/
theorem target_update {e : Session} (hs : s.session t = some e) (ph : Phase) (u : τ) :
    target (update s.session t (some { e with phase := ph }) u) = target (s.session u) := by
  by_cases e' : u = t
  · subst e'; rw [update_self, hs]; rfl
  · rw [update_of_ne e']

/-- **`bget`**: a buffer for block `x` gets one more user. -/
theorem use (h : Ids s) (v : Buf) (hs : s.session t = none)
    (hv : v.dev = ROOTDEV ∧ v.blockno = x) (hr : v.refcnt = (s.buf b).refcnt + 1)
    (hold : ((s.buf b).dev = v.dev ∧ (s.buf b).blockno = v.blockno) ∨ (s.buf b).refcnt = 0)
    (huniq : ∀ c, c ≠ b → ¬ ((s.buf c).dev = ROOTDEV ∧ (s.buf c).blockno = x)) :
    Ids ((s.setBuf b v).setSession t (some ⟨.found, b, x⟩)) := by
  refine ⟨h.circle, fun c d h₁ h₂ h₃ => ?_, fun c => ?_, fun u c y hu => ?_⟩
  · by_cases ec : c = b
    · by_cases ed : d = b
      · rw [ec, ed]
      · subst ec
        simp only [Cache.setSession, Cache.setBuf, update_self, update_of_ne ed] at h₂ h₃
        exact absurd ⟨h₂, by rw [← h₃, hv.2]⟩ (huniq d ed)
    · by_cases ed : d = b
      · subst ed
        simp only [Cache.setSession, Cache.setBuf, update_self, update_of_ne ec] at h₁ h₃
        exact absurd ⟨h₁, by rw [h₃, hv.2]⟩ (huniq c ec)
      · simp only [Cache.setSession, Cache.setBuf, update_of_ne ec, update_of_ne ed] at h₁ h₂ h₃
        exact h.uniq c d h₁ h₂ h₃
  · obtain ⟨S, hS, hc⟩ := h.refs c
    have ht : t ∉ S := by
      rw [hS, hs]
      rintro ⟨y, hy⟩
      cases hy
    by_cases ec : c = b
    · subst ec
      refine ⟨insert t S, fun u => ?_, ?_⟩
      · rw [Finset.mem_insert]
        by_cases e : u = t
        · subst e
          simp [Cache.setSession, Uses, target]
        · simp [Cache.setSession, Cache.setBuf, e, hS]
      · rw [Finset.card_insert_of_notMem ht, ← hc]
        simpa [Cache.setSession, Cache.setBuf] using hr
    · refine ⟨S, fun u => ?_, by simpa [Cache.setSession, Cache.setBuf, ec] using hc⟩
      rw [hS]
      by_cases e : u = t
      · subst e
        simp [Cache.setSession, Cache.setBuf, hs, Uses, target, Ne.symm ec]
      · simp [Cache.setSession, Cache.setBuf, e]
  · by_cases e : u = t
    · subst e
      simp only [Cache.setSession, update_self] at hu
      cases hu
      simpa [Cache.setSession, Cache.setBuf] using hv
    · simp only [Cache.setSession, Cache.setBuf, update_of_ne e] at hu ⊢
      have hblock := h.block u c y hu
      by_cases ec : c = b
      · subst ec
        rw [update_self]
        rcases hold with ⟨h₁, h₂⟩ | h₀
        · rw [← h₁, ← h₂]; exact hblock
        · exact absurd ⟨y, hu⟩ (h.unused h₀ u)
      · rw [update_of_ne ec]
        exact hblock

/-- **`brelse`**: the user of a buffer leaves it. -/
theorem leave (h : Ids s) (hs : target (s.session t) = some (b, x)) :
    Ids ((s.brelse b).setSession t none) := by
  have hbuf : (s.brelse b).buf =
      update s.buf b { s.buf b with refcnt := (s.buf b).refcnt - 1 } := by
    rw [Cache.brelse_eq]; rfl
  have hsess : (s.brelse b).session = s.session := by rw [Cache.brelse_eq]; rfl
  have hids : ∀ c, ((s.brelse b).buf c).dev = (s.buf c).dev ∧
      ((s.brelse b).buf c).blockno = (s.buf c).blockno := by
    intro c
    rw [hbuf]
    by_cases ec : c = b
    · subst ec; simp
    · simp [ec]
  have hrefcnt : ∀ c, ((s.brelse b).buf c).refcnt =
      if c = b then (s.buf c).refcnt - 1 else (s.buf c).refcnt := by
    intro c
    rw [hbuf]
    by_cases ec : c = b
    · subst ec; simp
    · simp [ec]
  refine ⟨?_, fun c d h₁ h₂ h₃ => ?_, fun c => ?_, fun u c y hu => ?_⟩
  · obtain ⟨l, hc, hmem⟩ := h.circle
    change ∃ l : List (Fin NBUF), Circular (s.brelse b).links none (l.map some) ∧ ∀ b, b ∈ l
    unfold Cache.brelse
    dsimp only
    split
    · -- the buffer moves to the front
      obtain ⟨l₁, l₂, rfl⟩ := append_of_mem (hmem b)
      rw [map_append, map_cons] at hc
      have hnd := hc.nodup
      have hc' := hc.unlink
      rw [← map_append] at hc'
      refine ⟨b :: (l₁ ++ l₂), ?_, fun c => ?_⟩
      · refine hc'.insertFront fun hb => ?_
        have hb : b ∈ l₁ ++ l₂ := by simpa using hb
        have hnd' : (l₁ ++ b :: l₂).Nodup := by
          rw [← map_cons, ← map_append] at hnd
          exact (nodup_cons.mp hnd).2.of_map _
        exact (nodup_cons.mp (nodup_middle.mp hnd')).1 hb
      · have := hmem c
        simp only [mem_append, mem_cons] at this ⊢
        tauto
    · exact ⟨l, hc, hmem⟩
  · have h₁' := (hids c).1.symm.trans h₁
    have h₂' := (hids d).1.symm.trans h₂
    exact h.uniq c d h₁' h₂' ((hids c).2.symm.trans (h₃.trans (hids d).2))
  · obtain ⟨S, hS, hc⟩ := h.refs c
    change ∃ S : Finset τ, (∀ u, u ∈ S ↔ Uses c (update (s.brelse b).session t none u)) ∧
      ((s.brelse b).buf c).refcnt = S.card
    rw [hsess, hrefcnt]
    by_cases ec : c = b
    · subst ec
      have ht : t ∈ S := (hS t).mpr ⟨x, hs⟩
      refine ⟨S.erase t, fun u => ?_, ?_⟩
      · rw [Finset.mem_erase, hS]
        by_cases e : u = t
        · subst e
          simp [Uses, target]
        · simp [e]
      · rw [if_pos rfl, Finset.card_erase_of_mem ht, hc]
    · refine ⟨S, fun u => ?_, by rw [if_neg ec, hc]⟩
      rw [hS]
      by_cases e : u = t
      · subst e
        rw [update_self]
        refine iff_of_false ?_ ?_
        · rintro ⟨y, hy⟩
          exact ec (congrArg Prod.fst (Option.some.inj (hs.symm.trans hy))).symm
        · rintro ⟨y, hy⟩
          cases hy
      · simp [e]
  · change target (update (s.brelse b).session t none u) = some (c, y) at hu
    change ((s.brelse b).buf c).dev = ROOTDEV ∧ ((s.brelse b).buf c).blockno = y
    rw [hsess] at hu
    rw [(hids c).1, (hids c).2]
    by_cases e : u = t
    · subst e
      rw [update_self] at hu
      cases hu
    · rw [update_of_ne e] at hu
      exact h.block u c y hu

end Ids

/-! ### Contents -/

namespace Data

variable [DecidableEq τ] {v : Buf}

/-- A session goes on and the buffers stay as they are. -/
theorem turn (h : Data s) {e : Option Session} (hb : ∀ b, (s'.buf b).valid = (s.buf b).valid ∧
      (s'.buf b).dirty = (s.buf b).dirty ∧ (s'.buf b).dev = (s.buf b).dev ∧
      (s'.buf b).blockno = (s.buf b).blockno ∧ (s'.buf b).data = (s.buf b).data)
    (hd : s'.disk = s.disk) (hl : s'.last = s.last) (hsess : s'.session = update s.session t e)
    (hold : ∀ b x, s.session t ≠ some ⟨.changed, b, x⟩)
    (hnew : ∀ b x, Has b x e → (s.buf b).valid = true ∧ e ≠ some ⟨.changed, b, x⟩) : Data s' := by
  have hhas : ∀ u b x, Has b x (s'.session u) → (s.buf b).valid = true := by
    intro u b x hu
    rw [hsess] at hu
    by_cases eu : u = t
    · subst eu
      rw [update_self] at hu
      exact (hnew b x hu).1
    · rw [update_of_ne eu] at hu
      exact h.valid u b x hu
  refine ⟨fun u b x hu => ?_, fun b hb' => ?_, fun b h₁ h₂ => ?_, fun x hx => ?_⟩
  · rw [(hb b).1]
    exact hhas u b x hu
  · rw [(hb b).2.1] at hb'
    rw [(hb b).1]
    exact h.dirty b hb'
  · rw [(hb b).2.2.1] at h₁
    rw [(hb b).1] at h₂
    rw [(hb b).2.2.2.2, (hb b).2.2.2.1, hl]
    exact h.data b h₁ h₂
  · rw [hd, hl]
    refine h.sync x fun b h₁ h₂ hn =>
      hx b (by rw [(hb b).2.2.1, h₁]) (by rw [(hb b).2.2.2.1, h₂]) ?_
    rcases hn with hn | ⟨u, y, hu⟩
    · exact .inl (by rw [(hb b).2.1, hn])
    · have eu : u ≠ t := fun e => hold b y (e ▸ hu)
      exact .inr ⟨u, y, by rw [hsess, update_of_ne eu, hu]⟩

/-- **A session works on its buffer** `b` for block `x`: afterwards the buffer is valid, what it
holds is what was last put there, and the disk holds it too unless the buffer may be newer. -/
theorem write (h : Data s) (hi : Ids s) {ph : Phase} (hs : target (s.session t) = some (b, x))
    (hbuf : s'.buf = update s.buf b v) (hsess : s'.session = update s.session t (some ⟨ph, b, x⟩))
    (hdisk : ∀ y, y ≠ x → s'.disk y = s.disk y) (hlast : ∀ y, y ≠ x → s'.last y = s.last y)
    (hid : v.dev = (s.buf b).dev ∧ v.blockno = (s.buf b).blockno) (hvalid : v.valid = true)
    (hdata : v.data = s'.last x) (hsync : v.dirty = true ∨ ph = .changed ∨ s'.disk x = s'.last x) :
    Data s' := by
  obtain ⟨hdev, hblk⟩ := hi.block t b x hs
  have hother : ∀ {u c}, c ≠ b → ∀ {y}, target (s.session u) = some (c, y) → u ≠ t :=
    fun ec _ hu e => ec (congrArg Prod.fst (Option.some.inj (hu.symm.trans (e ▸ hs))))
  refine ⟨fun u c y hu => ?_, fun c hc => ?_, fun c h₁ h₂ => ?_, fun y hy => ?_⟩
  · rw [hbuf]
    by_cases ec : c = b
    · subst ec; rw [update_self]; exact hvalid
    rw [update_of_ne ec]
    rw [hsess] at hu
    by_cases eu : u = t
    · subst eu
      rw [update_self] at hu
      cases hu.target_eq
      exact absurd rfl ec
    · rw [update_of_ne eu] at hu
      exact h.valid u c y hu
  · rw [hbuf] at hc ⊢
    by_cases ec : c = b
    · subst ec; rw [update_self]; exact hvalid
    · rw [update_of_ne ec] at hc ⊢
      exact h.dirty c hc
  · rw [hbuf] at h₁ h₂ ⊢
    by_cases ec : c = b
    · subst ec
      rw [update_self, hid.2, hblk]
      exact hdata
    rw [update_of_ne ec] at h₁ h₂ ⊢
    -- another buffer is for another block
    have hne : (s.buf c).blockno ≠ x := fun e => ec (hi.uniq c b h₁ hdev (e.trans hblk.symm))
    rw [hlast _ hne]
    exact h.data c h₁ h₂
  · by_cases ey : y = x
    · subst ey
      have hn := hy b (by rw [hbuf, update_self, hid.1, hdev])
        (by rw [hbuf, update_self, hid.2, hblk])
      rcases hsync with hd | hch | he
      · exact absurd (.inl (by rw [hbuf, update_self]; exact hd)) hn
      · exact absurd (.inr ⟨t, y, by rw [hsess, update_self, hch]⟩) hn
      · exact he
    · rw [hdisk y ey, hlast y ey]
      refine h.sync y fun c h₁ h₂ hn => ?_
      have ec : c ≠ b := fun e => ey (by rw [← h₂, e, hblk])
      have hbc : s'.buf c = s.buf c := by rw [hbuf, update_of_ne ec]
      refine hy c (by rw [hbc, h₁]) (by rw [hbc, h₂]) ?_
      rcases hn with hn | ⟨u, z, hu⟩
      · exact .inl (by rw [hbc, hn])
      · have eu : u ≠ t := hother ec (by rw [hu]; rfl)
        exact .inr ⟨u, z, by rw [hsess, update_of_ne eu, hu]⟩

/-- **A buffer that nobody uses and that is clean** is given to block `x`, which has none. -/
theorem recycle (h : Data s) (hi : Ids s) (hs : s.session t = none) (hr : (s.buf b).refcnt = 0)
    (hd : (s.buf b).dirty = false) (hv : v.valid = false) (hvd : v.dirty = false) :
    Data ((s.setBuf b v).setSession t (some ⟨.found, b, x⟩)) := by
  have hunused := hi.unused hr
  have hsess : ∀ u ph c y, ph ≠ .found →
      ((s.setBuf b v).setSession t (some ⟨.found, b, x⟩)).session u = some ⟨ph, c, y⟩ →
      s.session u = some ⟨ph, c, y⟩ ∧ c ≠ b := by
    intro u ph c y hph hu
    change update s.session t _ u = _ at hu
    by_cases eu : u = t
    · subst eu
      rw [update_self] at hu
      cases hu
      exact absurd rfl hph
    · rw [update_of_ne eu] at hu
      exact ⟨hu, fun e => hunused u ⟨y, by rw [hu, e]; rfl⟩⟩
  refine ⟨fun u c y hu => ?_, fun c hc => ?_, fun c h₁ h₂ => ?_, fun y hy => ?_⟩
  · change (update s.buf b v c).valid = true
    rcases hu with hu | hu
    · obtain ⟨hu, ec⟩ := hsess u _ c y (by decide) hu
      rw [update_of_ne ec]
      exact h.valid u c y (.inl hu)
    · obtain ⟨hu, ec⟩ := hsess u _ c y (by decide) hu
      rw [update_of_ne ec]
      exact h.valid u c y (.inr hu)
  · change (update s.buf b v c).dirty = true at hc
    change (update s.buf b v c).valid = true
    by_cases ec : c = b
    · subst ec
      rw [update_self, hvd] at hc
      cases hc
    · rw [update_of_ne ec] at hc ⊢
      exact h.dirty c hc
  · change (update s.buf b v c).dev = ROOTDEV at h₁
    change (update s.buf b v c).valid = true at h₂
    change (update s.buf b v c).data = s.last (update s.buf b v c).blockno
    by_cases ec : c = b
    · subst ec
      rw [update_self, hv] at h₂
      cases h₂
    · rw [update_of_ne ec] at h₁ h₂ ⊢
      exact h.data c h₁ h₂
  · refine h.sync y fun c h₁ h₂ hn => ?_
    rcases hn with hn | ⟨u, z, hu⟩
    · have ec : c ≠ b := fun e => by rw [e, hd] at hn; cases hn
      have hbc : ((s.setBuf b v).setSession t (some ⟨.found, b, x⟩)).buf c = s.buf c :=
        update_of_ne ec _ _
      exact hy c (by rw [hbc, h₁]) (by rw [hbc, h₂]) (.inl (by rw [hbc, hn]))
    have ec : c ≠ b := fun e => hunused u ⟨z, by rw [hu, e]; rfl⟩
    have eu : u ≠ t := fun e => by rw [e, hs] at hu; cases hu
    have hbc : ((s.setBuf b v).setSession t (some ⟨.found, b, x⟩)).buf c = s.buf c :=
      update_of_ne ec _ _
    refine hy c (by rw [hbc, h₁]) (by rw [hbc, h₂]) (.inr ⟨u, z, ?_⟩)
    exact (update_of_ne eu _ _).trans hu

end Data

/-! ### Steps -/

variable [DecidableEq τ] {disksize : Nat} {op : Op τ}

omit [DecidableEq τ] in
/-- A search through all the buffers. -/
theorem find_buffer (hmem : ∀ b, b ∈ l) (q : Option (Fin NBUF) → Bool) :
    (∃ b, ((l.map some).find? q).join = some b ∧ q (some b) = true) ∨
    ((l.map some).find? q).join = none ∧ ∀ b, q (some b) = false := by
  cases hf : (l.map some).find? q with
  | none =>
    refine .inr ⟨rfl, fun b => ?_⟩
    have := find?_eq_none.mp hf (some b) (mem_map.mpr ⟨b, hmem b, rfl⟩)
    simpa using this
  | some n =>
    obtain ⟨b, -, rfl⟩ := mem_map.mp (mem_of_find?_eq_some hf)
    exact .inl ⟨b, rfl, find?_some hf⟩

omit [DecidableEq τ] in
/-- The loops of `bget` go through all the buffers. -/
theorem Ids.scans (h : Ids s) : ∃ l l' : List (Fin NBUF), (∀ b, b ∈ l) ∧ (∀ b, b ∈ l') ∧
    ∀ q, Links.scan s.links.next none q (NBUF + 1) (s.links.next none) = (l.map some).find? q ∧
      Links.scan s.links.prev none q (NBUF + 1) (s.links.prev none) = (l'.map some).find? q := by
  obtain ⟨l, hc, hmem⟩ := h.circle
  have hlen : (l.map some).length < NBUF + 1 := by
    have hnd : l.Nodup := (nodup_cons.mp hc.nodup).2.of_map _
    have := hnd.length_le_card
    rw [Fintype.card_fin] at this
    rw [length_map]
    omega
  refine ⟨l, l.reverse, hmem, fun b => mem_reverse.mpr (hmem b), fun q => ?_⟩
  rw [hc.scan_next q hlen, hc.scan_prev q hlen, map_reverse]
  exact ⟨rfl, rfl⟩

/-- **`bget`** finds the buffer for the block, or recycles one that nobody uses and that is clean. -/
theorem Ids.bget (h : Ids s) {dev : Nat} (hg : s.bget dev x = .ok (b, s')) :
    (((s.buf b).dev = dev ∧ (s.buf b).blockno = x) ∧
      s' = s.setBuf b { s.buf b with refcnt := (s.buf b).refcnt + 1 }) ∨
    ((∀ c, ¬ ((s.buf c).dev = dev ∧ (s.buf c).blockno = x)) ∧ (s.buf b).refcnt = 0 ∧
      (s.buf b).dirty = false ∧ s' = s.setBuf b { s.buf b with
        dev := dev, blockno := x, valid := false, dirty := false, refcnt := 1 }) := by
  obtain ⟨l, l', hl, hl', hscan⟩ := h.scans
  unfold Cache.bget at hg
  dsimp only at hg
  rw [(hscan _).1, (hscan _).2] at hg
  rcases find_buffer hl (fun n => n.any fun b => decide ((s.buf b).dev = dev ∧
    (s.buf b).blockno = x)) with ⟨b, hb, hq⟩ | ⟨hb, hq⟩
  · rw [hb] at hg
    cases hg
    exact .inl ⟨by simpa using hq, rfl⟩
  rw [hb] at hg
  dsimp only at hg
  rcases find_buffer hl' (fun n => n.any fun b => decide ((s.buf b).refcnt = 0 ∧
    (s.buf b).dirty = false)) with ⟨c, hc, hq'⟩ | ⟨hc, -⟩
  · rw [hc] at hg
    cases hg
    have hq' : (s.buf b).refcnt = 0 ∧ (s.buf b).dirty = false := by simpa using hq'
    exact .inr ⟨fun d hd => by simpa [hd.1, hd.2] using hq d, hq'.1, hq'.2, rfl⟩
  · rw [hc] at hg
    cases hg

/-- Every step from a state with the invariant is one of these. -/
theorem Inv.kind (h : Inv s) (hs : s.Step disksize op s') : StepKind s op s' := by
  unfold Cache.Step Cache.exec at hs
  cases op with
  | bget t x =>
    dsimp only at hs
    split at hs
    · next hn =>
      obtain ⟨⟨b, s₁⟩, hg, hs⟩ := of_bind hs
      cases hs
      rcases h.ids.bget hg with ⟨hb, rfl⟩ | ⟨hno, hr, hd, rfl⟩
      · exact .hit hn hb
      · exact .recycle hn hno hr hd
    · cases hs
  | acquiresleep t =>
    dsimp only at hs
    split at hs
    · next hn =>
      split at hs
      · next hl => cases hs; exact .lock hn hl
      · cases hs
    · cases hs
  | bread t =>
    dsimp only at hs
    split at hs
    · next b x hn =>
      split at hs
      · next hv =>
        obtain ⟨s₁, hw, hs⟩ := of_bind hs
        cases hs
        have hd : (s.buf b).dirty = false := by
          cases hd : (s.buf b).dirty with
          | false => rfl
          | true => rw [h.data.dirty b hd] at hv; cases hv
        unfold Cache.iderw at hw
        rw [hv, hd] at hw
        split at hw
        · cases hw
        rw [if_neg (by simp)] at hw
        split at hw
        · cases hw
        split at hw
        · cases hw
        · cases hw
          exact .fill hn hv
      · next hv =>
        cases hs
        exact .cached hn (by simpa using hv)
    · cases hs
  | modify t data =>
    dsimp only at hs
    split at hs
    · next hn => cases hs; exact .modify (.inl hn)
    · next hn => cases hs; exact .modify (.inr hn)
    · cases hs
  | logWrite t =>
    dsimp only at hs
    split at hs
    · next hn => cases hs; exact .logWrite (.inl hn)
    · next hn => cases hs; exact .logWrite (.inr hn)
    · cases hs
  | bwrite t =>
    dsimp only at hs
    split at hs
    · next hn =>
      obtain ⟨s₁, hw, hs⟩ := of_bind hs
      cases hs
      rw [Cache.bwrite_ok hw]
      exact .bwrite (.inl hn)
    · next hn =>
      obtain ⟨s₁, hw, hs⟩ := of_bind hs
      cases hs
      rw [Cache.bwrite_ok hw]
      exact .bwrite (.inr hn)
    · cases hs
  | releasesleep t =>
    dsimp only at hs
    split at hs
    · next hn =>
      split at hs
      · cases hs
      · cases hs; exact .unlock hn
    · cases hs
  | brelse t =>
    dsimp only at hs
    split at hs
    · next hn => cases hs; exact .brelse hn
    · cases hs

/-! ### Every step keeps the invariant -/

/-- The sleep locks when a session goes on with its lock, or without it. -/
theorem Inv.lock_keep (h : Inv s) (he : ∀ c, Holds c e ↔ Holds c (s.session t)) (c : Fin NBUF) :
    Holder (s.lock c) (update s.session t e) (Holds c) := (h.lock c).keep (he c)

/-- A session that has its buffer works on it. -/
theorem Inv.work (h : Inv s) {v : Buf} (ph : Phase) (hs : target (s.session t) = some (b, x))
    (hph : ∀ c, Holds c (some ⟨ph, b, x⟩) ↔ Holds c (s.session t)) (hlinks : s'.links = s.links)
    (hlock : s'.lock = s.lock) (hbuf : s'.buf = update s.buf b v)
    (hsess : s'.session = update s.session t (some ⟨ph, b, x⟩))
    (hdisk : ∀ y, y ≠ x → s'.disk y = s.disk y) (hlast : ∀ y, y ≠ x → s'.last y = s.last y)
    (hid : v.dev = (s.buf b).dev ∧ v.blockno = (s.buf b).blockno ∧
      v.refcnt = (s.buf b).refcnt) (hvalid : v.valid = true) (hdata : v.data = s'.last x)
    (hsync : v.dirty = true ∨ ph = .changed ∨ s'.disk x = s'.last x) : Inv s' := by
  refine ⟨h.ids.congr hlinks (fun c => ?_) fun u => ?_, fun c => ?_,
    h.data.write h.ids hs hbuf hsess hdisk hlast ⟨hid.1, hid.2.1⟩ hvalid hdata hsync⟩
  · rw [hbuf]
    by_cases ec : c = b
    · subst ec; rw [update_self]; exact hid
    · rw [update_of_ne ec]; exact ⟨rfl, rfl, rfl⟩
  · rw [hsess]
    by_cases eu : u = t
    · subst eu; rw [update_self]; exact hs.symm
    · rw [update_of_ne eu]
  · rw [hlock, hsess]
    exact h.lock_keep hph c

theorem Has.holds_iff (h : Has b x e) (c : Fin NBUF) : Holds c e ↔ b = c := by
  rcases h with rfl | rfl <;> exact .rfl

/-- But for the number of its users, a buffer is as it was. -/
theorem same_setBuf {n : Nat} (c : Fin NBUF) :
    let v := update s.buf b { s.buf b with refcnt := n } c
    v.valid = (s.buf c).valid ∧ v.dirty = (s.buf c).dirty ∧ v.dev = (s.buf c).dev ∧
      v.blockno = (s.buf c).blockno ∧ v.data = (s.buf c).data := by
  by_cases ec : c = b
  · subst ec; simp
  · simp [ec]

theorem Inv.step (h : Inv s) (hk : StepKind s op s') : Inv s' := by
  cases hk with
  | @hit t b x hs hb =>
    refine ⟨h.ids.use _ hs hb rfl (.inl ⟨rfl, rfl⟩) fun c ec hc => ec ?_,
      h.lock_keep fun c => ?_, h.data.turn same_setBuf rfl rfl rfl ?_ ?_⟩
    · exact h.ids.uniq c b hc.1 hb.1 (hc.2.trans hb.2.symm)
    · rw [hs]; exact .rfl
    · rw [hs]; exact fun _ _ e => (by cases e)
    · rintro _ _ (e | e) <;> cases e
  | @recycle t b x hs hno hr hd =>
    refine ⟨h.ids.use _ hs ⟨rfl, rfl⟩ (by rw [hr]) (.inr hr) fun c _ => hno c,
      h.lock_keep fun c => ?_, h.data.recycle h.ids hs hr hd rfl rfl⟩
    rw [hs]; exact .rfl
  | @lock t b x hs hl =>
    refine ⟨h.ids.congr rfl (fun c => ⟨rfl, rfl, rfl⟩) (Ids.target_update hs .locked), fun c => ?_,
      h.data.turn (fun c => ⟨rfl, rfl, rfl, rfl, rfl⟩) rfl rfl rfl ?_ ?_⟩
    · change Holder (update s.lock b (some t) c) (update s.session t _) (Holds c)
      have hc := h.lock c
      by_cases ec : c = b
      · subst ec
        rw [update_self]
        rw [hl] at hc
        exact hc.take rfl
      rw [update_of_ne ec]
      refine hc.keep ?_
      rw [hs]
      exact iff_of_false (Ne.symm ec) id
    · rw [hs]; exact fun _ _ e => (by cases e)
    · rintro _ _ (e | e) <;> cases e
  | @cached t b x hs hv =>
    refine ⟨h.ids.congr rfl (fun c => ⟨rfl, rfl, rfl⟩) (Ids.target_update hs .held),
      h.lock_keep fun c => ?_, h.data.turn (fun c => ⟨rfl, rfl, rfl, rfl, rfl⟩) rfl rfl rfl ?_ ?_⟩
    · rw [hs]; exact .rfl
    · rw [hs]; exact fun _ _ e => (by cases e)
    · rintro _ _ (e | e) <;> cases e
      exact ⟨hv, fun e => (by cases e)⟩
  | @fill t b x hs hv =>
    have ht : target (s.session t) = some (b, x) := by rw [hs]; rfl
    obtain ⟨hdev, hblk⟩ := h.ids.block t b x ht
    -- an invalid buffer is not newer than the disk
    have hdisk : s.disk x = s.last x := by
      refine h.data.sync x fun c h₁ h₂ hn => ?_
      obtain rfl := h.ids.uniq c b h₁ hdev (h₂.trans hblk.symm)
      rcases hn with hn | ⟨u, y, hu⟩
      · rw [h.data.dirty c hn] at hv; cases hv
      · rw [h.data.valid u c y (.inr hu)] at hv; cases hv
    refine h.work .held ht (fun c => ?_) rfl rfl rfl rfl (fun _ _ => rfl) (fun _ _ => rfl)
      ⟨rfl, rfl, rfl⟩ rfl ?_ (.inr (.inr hdisk))
    · rw [hs]; exact .rfl
    · change s.disk (s.buf b).blockno = s.last x
      rw [hblk, hdisk]
  | @modify t b x data hs =>
    refine h.work .changed hs.target_eq (fun c => (hs.holds_iff c).symm) rfl rfl rfl rfl
      (fun _ _ => rfl) (fun y ey => update_of_ne ey _ _) ⟨rfl, rfl, rfl⟩ (h.data.valid t b x hs) ?_
      (.inr (.inl rfl))
    exact (update_self x data s.last).symm
  | @logWrite t b x hs =>
    obtain ⟨hdev, hblk⟩ := h.ids.block t b x hs.target_eq
    have hv := h.data.valid t b x hs
    refine h.work .held hs.target_eq (fun c => (hs.holds_iff c).symm) rfl rfl rfl rfl (fun _ _ => rfl)
      (fun _ _ => rfl) ⟨rfl, rfl, rfl⟩ hv ?_ (.inl rfl)
    rw [← hblk]; exact h.data.data b hdev hv
  | @bwrite t b x hs =>
    obtain ⟨hdev, hblk⟩ := h.ids.block t b x hs.target_eq
    have hdata := h.data.data b hdev (h.data.valid t b x hs)
    rw [hblk] at hdata
    refine h.work .held hs.target_eq (fun c => (hs.holds_iff c).symm) rfl rfl rfl rfl (fun y ey => ?_)
      (fun _ _ => rfl) ⟨rfl, rfl, rfl⟩ rfl hdata (.inr (.inr ?_))
    · exact update_of_ne (by rw [hblk]; exact ey) _ _
    · change update s.disk (s.buf b).blockno (s.buf b).data x = s.last x
      rw [hblk, update_self, hdata]
  | @unlock t b x hs =>
    refine ⟨h.ids.congr rfl (fun c => ⟨rfl, rfl, rfl⟩) (Ids.target_update hs .released),
      fun c => ?_, h.data.turn (fun c => ⟨rfl, rfl, rfl, rfl, rfl⟩) rfl rfl rfl ?_ ?_⟩
    · change Holder (update s.lock b none c) (update s.session t _) (Holds c)
      have hc := h.lock c
      by_cases ec : c = b
      · subst ec
        rw [update_self]
        exact hc.drop (by rw [hs]; rfl) id
      rw [update_of_ne ec]
      refine hc.keep ?_
      rw [hs]
      exact iff_of_false id (Ne.symm ec)
    · rw [hs]; exact fun _ _ e => (by cases e)
    · rintro _ _ (e | e) <;> cases e
  | @brelse t b x hs =>
    have ht : target (s.session t) = some (b, x) := by rw [hs]; rfl
    refine ⟨h.ids.leave ht, fun c => ?_, ?_⟩
    · rw [Cache.brelse_eq]
      refine h.lock_keep (fun c => ?_) c
      rw [hs]; exact .rfl
    · rw [Cache.brelse_eq]
      refine h.data.turn same_setBuf rfl rfl rfl ?_ ?_
      · rw [hs]; exact fun _ _ e => (by cases e)
      · rintro _ _ (e | e) <;> cases e

omit [DecidableEq τ] in
/-- The loop of `binit`. -/
theorem circle_foldl {p : Links (Option (Fin NBUF))} {l' : List (Fin NBUF)}
    (hc : Circular p none (l.map some)) (hnd : (l' ++ l).Nodup) :
    Circular (l'.foldl (fun p b => p.insertFront none (some b)) p) none
      ((l'.reverse ++ l).map some) := by
  induction l' generalizing p l with
  | nil => exact hc
  | cons b l' ih =>
    have hb : b ∉ l := fun hb => (nodup_cons.mp hnd).1 (mem_append_right _ hb)
    have h := ih (l := b :: l) (hc.insertFront (by simpa using hb)) (nodup_middle.mpr hnd)
    rwa [append_cons, ← reverse_cons] at h

omit [DecidableEq τ] in
theorem inv_binit (disk : Nat → Block) : Inv (binit disk : Cache τ) := by
  have hempty : Circular (⟨fun _ => none, fun _ => none⟩ : Links (Option (Fin NBUF))) none
      (([] : List (Fin NBUF)).map some) :=
    ⟨by simp, isChain_cons_cons.mpr ⟨⟨rfl, rfl⟩, .singleton _⟩⟩
  refine ⟨⟨⟨_, circle_foldl hempty (by simpa using nodup_finRange NBUF), fun b => ?_⟩,
    fun b c h => ?_, fun b => ⟨∅, fun t => ?_, rfl⟩, fun t b x h => (by cases h)⟩, fun b t => ?_,
    ⟨fun t b x h => ?_, fun b h => (by cases h), fun b h => ?_, fun x _ => rfl⟩⟩
  · simp
  · cases h
  · refine iff_of_false (Finset.notMem_empty t) ?_
    rintro ⟨x, hx⟩
    cases hx
  · exact iff_of_false (fun h => (by cases h)) id
  · rcases h with h | h <;> cases h
  · cases h

/-- What is true of the cache in a state. -/
structure Coherent (s : Cache τ) : Prop where
  /-- `prev` and `next` form one circle through the head, with each buffer once -/
  list : ∃ l : List (Fin NBUF), Circular s.links none (l.map some) ∧ l.Nodup ∧ ∀ b, b ∈ l
  /-- a block has at most one buffer -/
  uniq : ∀ b c, (s.buf b).dev = ROOTDEV → (s.buf c).dev = ROOTDEV →
    (s.buf b).blockno = (s.buf c).blockno → b = c
  /-- what `bread` has returned is for the block, and holds what was last put there -/
  returned : ∀ t b x, Has b x (s.session t) → ((s.buf b).dev = ROOTDEV ∧ (s.buf b).blockno = x) ∧
    (s.buf b).valid = true ∧ (s.buf b).data = s.last x

omit [DecidableEq τ] in
theorem Inv.coherent (h : Inv s) : Coherent s := by
  refine ⟨?_, h.ids.uniq, fun t b x hs => ?_⟩
  · obtain ⟨l, hc, hmem⟩ := h.ids.circle
    exact ⟨l, hc, (nodup_cons.mp hc.nodup).2.of_map _, hmem⟩
  · have hb := h.ids.block t b x hs.target_eq
    have hv := h.data.valid t b x hs
    exact ⟨hb, hv, by rw [← hb.2]; exact h.data.data b hb.1 hv⟩

/-- A buffer in use, or dirty, keeps its block. -/
theorem StepKind.keeps (hk : StepKind s op s') (hb : (s.buf b).refcnt ≠ 0 ∨ (s.buf b).dirty = true) :
    (s'.buf b).dev = (s.buf b).dev ∧ (s'.buf b).blockno = (s.buf b).blockno := by
  cases hk with
  | @recycle t c x hs hno hr hd =>
    have ec : b ≠ c := fun e => by
      rw [e, hr, hd] at hb
      rcases hb with hb | hb
      · exact hb rfl
      · cases hb
    simp [Cache.setSession, Cache.setBuf, ec]
  | lock | cached | unlock => exact ⟨rfl, rfl⟩
  | @brelse t c x hs =>
    rw [Cache.brelse_eq]
    by_cases ec : b = c
    · subst ec; simp [Cache.setSession, Cache.setBuf]
    · simp [Cache.setSession, Cache.setBuf, ec]
  | @hit _ c _ _ _ | @fill _ c _ _ _ | @modify _ c _ _ _ | @logWrite _ c _ _ | @bwrite _ c _ _ =>
    by_cases ec : b = c
    · subst ec; simp [Cache.setSession, Cache.setBuf]
    · simp [Cache.setSession, Cache.setBuf, ec]

/-- **The buffer cache.**  After every run of any number of sessions the cache is coherent, and the
next step of the run does not give a buffer that is in use or dirty to another block. -/
theorem bcache_coherent {disk : Nat → Block} {tr : List (Cache τ × Op τ)}
    (hr : Run (Cache.Step disksize) (binit disk) tr s) :
    Coherent s ∧ ∀ op s', s.Step disksize op s' → ∀ b,
      (s.buf b).refcnt ≠ 0 ∨ (s.buf b).dirty = true →
        (s'.buf b).dev = (s.buf b).dev ∧ (s'.buf b).blockno = (s.buf b).blockno := by
  have h : Inv s := (hr.inv_all (fun s _ s' (h : Inv s) hs => h.step (h.kind hs))
    (inv_binit disk)).2
  exact ⟨h.coherent, fun op s' hs b hb => (h.kind hs).keeps hb⟩

/-- One session changes block 3 and logs it; another one reads it after the first has left. -/
def passOn : List (Op Bool) :=
  [.bget true 3, .acquiresleep true, .bread true, .bget false 3, .modify true fun _ => 7,
    .logWrite true, .releasesleep true, .acquiresleep false, .brelse true, .bread false]

theorem bcache_coherent_passOn : ∃ tr s, Run (Cache.Step 10) (binit fun _ _ => 0) tr s ∧
    (s.session false).any (fun e => e.phase = .held ∧ (s.buf e.b).data Log.countWord = 7 ∧
      s.disk 3 Log.countWord = 0) = true ∧ Coherent s := by
  obtain ⟨s, hr, hs⟩ := exists_run
    (fun (s : Cache Bool) op s' => (Res.toOption_eq_some (x := s.exec 10 op) (a := s')).mp)
    (binit fun _ _ => 0) passOn
    (fun s => (s.session false).any (fun e => e.phase = .held ∧ (s.buf e.b).data Log.countWord = 7 ∧
      s.disk 3 Log.countWord = 0) = true) (by decide +kernel)
  exact ⟨_, s, hr, hs, (bcache_coherent hr).1⟩

end Xv6.Bio
