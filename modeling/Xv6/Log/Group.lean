import Mathlib.Data.Finset.Card
import Xv6.Lib.Run
import Xv6.Log.Ops

/-!
# Log — Group

Group commit: the operations of any number of processes, in any interleaving, are committed in
groups, and no operation is split.

`GroupInv`: `outstanding` counts the processes in an operation, `committing` is set while a process
commits, and then nobody is in an operation.  `HeaderInv` relates the header to the history of the
run (`Hist`): the blocks passed to `log_write` since the last commit, by anybody and by each process
in its current operation.  Both hold in every state of every run, and give `group_commit`.
-/

namespace Xv6

open Function List Option

/-! ### The header -/

namespace LogHeader

variable {lh lh' : LogHeader} {b : UInt32}

theorem length_blocks (h : lh.n ≤ LOGSIZE) : lh.blocks.length = lh.n := by
  simp [blocks, h]

theorem getElem?_blocks {i : Nat} (hi : i < LOGSIZE) (hn : i < lh.n) :
    lh.blocks[i]? = some (lh.block ⟨i, hi⟩) := by
  rw [blocks, List.getElem?_take_of_lt hn, List.getElem?_ofFn, dif_pos hi]

theorem blocks_push (hi : lh.n < LOGSIZE) (b : UInt32) :
    blocks ⟨lh.n + 1, update lh.block ⟨lh.n, hi⟩ b⟩ = lh.blocks ++ [b] := by
  have hlen := length_blocks hi.le
  have hlen' : (blocks ⟨lh.n + 1, update lh.block ⟨lh.n, hi⟩ b⟩).length = lh.n + 1 :=
    length_blocks hi
  refine ext_getElem? fun j => ?_
  rcases Nat.lt_trichotomy j lh.n with hj | rfl | hj
  · rw [getElem?_blocks (hj.trans hi) (Nat.lt_succ_of_lt hj),
      getElem?_append_left (hlen.symm ▸ hj), getElem?_blocks (hj.trans hi) hj]
    exact congrArg some (update_of_ne (fun e => hj.ne (congrArg Fin.val e)) _ _)
  · rw [getElem?_blocks hi (Nat.lt_succ_self _), getElem?_append_right hlen.le, hlen, Nat.sub_self]
    exact congrArg some (update_self _ _ _)
  · rw [getElem?_eq_none (by rw [hlen']; exact hj), getElem?_eq_none (by simp [hlen]; exact hj)]

/-- **The section of `log_write`.**  The block is added to the header, once. -/
theorem add_eq_ok (hn : lh.n ≤ LOGSIZE) (h : lh.add b = .ok lh') :
    lh'.n ≤ LOGSIZE ∧ lh'.blocks = if b ∈ lh.blocks then lh.blocks else lh.blocks ++ [b] := by
  have hlen := length_blocks hn
  unfold add at h
  dsimp only at h
  by_cases hb : b ∈ lh.blocks
  · -- the block is written over itself
    have hlt : lh.blocks.idxOf b < lh.n := hlen ▸ idxOf_lt_length_of_mem hb
    have hi := hlt.trans_le hn
    have he : lh.block ⟨_, hi⟩ = b := by
      have h₁ := getElem?_blocks hi hlt
      rw [getElem?_eq_getElem (hlen.symm ▸ hlt), getElem_idxOf] at h₁
      exact (some.inj h₁).symm
    have hu : update lh.block ⟨_, hi⟩ b = lh.block := by
      nth_rewrite 2 [← he]
      exact update_eq_self _ _
    rw [dif_pos hi, if_neg hlt.ne, hu] at h
    cases h
    exact ⟨hn, (if_pos hb).symm⟩
  · have hidx : lh.blocks.idxOf b = lh.n := (idxOf_eq_length hb).trans hlen
    rw [if_neg hb]
    by_cases hi : lh.n < LOGSIZE
    · simp only [hidx, hi, dif_pos, if_pos] at h
      cases h
      exact ⟨hi, blocks_push hi b⟩
    · simp only [hidx, hi, dif_neg, not_false_iff] at h
      cases h

end LogHeader

namespace Log

open Lib

variable {ι : Type} [DecidableEq ι] {s s' : Sys ι} {op : Op ι} {p : ι} {phase : ι → Phase}
  {x y : Phase} {l l' : LogState} {dev : Dev Nat Block} {start : Nat}

/-! ### Who is in an operation -/

/-- **The invariant of the log's lock.** -/
structure GroupInv (s : Sys ι) : Prop where
  count : ∃ S : Finset ι, (∀ p, p ∈ S ↔ (s.phase p).inside = true) ∧ s.log.outstanding = S.card
  alone : s.log.committing = true → s.log.outstanding = 0
  commits : ∀ p, (s.phase p).commits = true → s.log.committing = true
  unique : ∀ p q, (s.phase p).commits = true → (s.phase q).commits = true → p = q

omit [DecidableEq ι] in
theorem GroupInv.pos (h : GroupInv s) (hp : (s.phase p).inside = true) : 1 ≤ s.log.outstanding := by
  obtain ⟨S, hS, hc⟩ := h.count
  have hcard := Finset.card_pos.mpr ⟨p, (hS p).mpr hp⟩
  omega

omit [DecidableEq ι] in
theorem GroupInv.not_committing (h : GroupInv s) (hp : (s.phase p).inside = true) :
    s.log.committing = false := by
  have hpos := h.pos hp
  cases hc : s.log.committing with
  | false => rfl
  | true => have := h.alone hc; omega

theorem apply_update {β : Type} (f : Phase → β) (hp : phase p = y) (h : f x = f y) (q : ι) :
    f (update phase p x q) = f (phase q) := by
  by_cases hq : q = p
  · subst hq
    rw [update_self, h, hp]
  · rw [update_of_ne hq]

/-- The process `p` moves from the phase `y` to `x`, in or out of an operation or a commit as
before. -/
theorem GroupInv.move (h : GroupInv s) (hp : s.phase p = y) (hi : x.inside = y.inside)
    (hcm : x.commits = y.commits) (ho : l.outstanding = s.log.outstanding)
    (hc : l.committing = s.log.committing) : GroupInv ⟨l, update s.phase p x, dev⟩ where
  count := by
    obtain ⟨S, hS, hcard⟩ := h.count
    exact ⟨S, fun q => by rw [hS q, apply_update _ hp hi], ho.trans hcard⟩
  alone hl := ho.trans (h.alone (hc ▸ hl))
  commits q hq := hc.trans (h.commits q (apply_update _ hp hcm q ▸ hq))
  unique q r hq hr :=
    h.unique q r (apply_update _ hp hcm q ▸ hq) (apply_update _ hp hcm r ▸ hr)

theorem beginOp_eq_some (h : beginOp l = some l') :
    l.committing = false ∧ (l.lh.n : Int) + (l.outstanding + 1) * MAXOPBLOCKS ≤ LOGSIZE ∧
      l' = { l with outstanding := l.outstanding + 1 } := by
  unfold beginOp at h
  split at h
  · cases h
  next hc =>
  split at h
  · cases h
  · next hn => exact ⟨by simpa using hc, not_lt.mp hn, (some.inj h).symm⟩

theorem endOp_eq_ok {doCommit : Bool} (h : endOp l = .ok (doCommit, l')) : l.committing = false ∧
      ((doCommit = true ∧ l.outstanding = 1 ∧
          l' = { l with outstanding := 0, committing := true }) ∨
        (doCommit = false ∧ l' = { l with outstanding := l.outstanding - 1 })) := by
  unfold endOp at h
  dsimp only at h
  split at h
  · cases h
  next hc =>
  refine ⟨by simpa using hc, ?_⟩
  split at h
  · next ho =>
    cases h
    exact .inl ⟨rfl, by omega, by rw [ho]⟩
  · cases h
    exact .inr ⟨rfl, rfl⟩

/-- The process `p` enters an operation. -/
theorem GroupInv.enter (h : GroupInv s) (hp : (s.phase p).inside = false)
    (hcm : (s.phase p).commits = false) (hc : s.log.committing = false) : GroupInv { s with
      log := { s.log with outstanding := s.log.outstanding + 1 }
      phase := update s.phase p .inOp } := by
  have hcm : ∀ q, (update s.phase p .inOp q).commits = (s.phase q).commits :=
    apply_update Phase.commits rfl (x := .inOp) hcm.symm
  refine ⟨?_, fun hl => ?_, fun q hq => h.commits q (hcm q ▸ hq), fun q r hq hr =>
    h.unique q r (hcm q ▸ hq) (hcm r ▸ hr)⟩
  · obtain ⟨S, hS, hcard⟩ := h.count
    have hpS : p ∉ S := fun hm => by rw [(hS p).mp hm] at hp; cases hp
    refine ⟨insert p S, fun q => ?_, ?_⟩
    · by_cases hq : q = p
      · subst hq
        simp [Phase.inside]
      · simp [hq, hS q]
    · rw [Finset.card_insert_of_notMem hpS]
      simp [hcard]
  · have hl : s.log.committing = true := hl
    rw [hc] at hl
    cases hl

/-- The process `p` leaves its operation; `x` is its next phase. -/
theorem GroupInv.leave (h : GroupInv s) (hp : s.phase p = .inOp)
    (hi : ∀ q, (phase q).inside = (s.phase q).inside)
    (hcm : ∀ q, (phase q).commits = (s.phase q).commits) (hx : x.inside = false)
    (ho : l.outstanding = s.log.outstanding - 1) (hc : l.committing = x.commits)
    (h₀ : l.committing = true → l.outstanding = 0) : GroupInv ⟨l, update phase p x, s.dev⟩ := by
  -- nobody was committing, so only `p` can be
  have hone : ∀ q, (update phase p x q).commits = true → q = p := by
    intro q hq
    by_contra hqp
    rw [update_of_ne hqp, hcm] at hq
    have hfalse := h.not_committing (p := p) (by rw [hp]; rfl)
    rw [h.commits q hq] at hfalse
    cases hfalse
  refine ⟨?_, h₀, fun q hq => ?_, fun q q' hq hq' => by rw [hone q hq, hone q' hq']⟩
  · obtain ⟨S, hS, hcard⟩ := h.count
    have hpS : p ∈ S := (hS p).mpr (by rw [hp]; rfl)
    refine ⟨S.erase p, fun q => ?_, ?_⟩
    · by_cases hq : q = p
      · subst hq
        simp [hx]
      · simp [hq, hS q, hi q]
    · have hpos := Finset.card_pos.mpr ⟨p, hpS⟩
      rw [Finset.card_erase_of_mem hpS]
      dsimp only
      omega
  · obtain rfl := hone q hq
    have hq : (update phase q x q).commits = true := hq
    rw [update_self] at hq
    exact hc.trans hq

/-- The commit of `p` is over. -/
theorem GroupInv.clear (h : GroupInv s) (hp : s.phase p = .committed) : GroupInv { s with
      log := { s.log with committing := false }
      phase := update (wakeup s.phase) p .idle } := by
  have hno : ∀ q, (update (wakeup s.phase) p .idle q).commits ≠ true := by
    intro q hq
    by_cases hqp : q = p
    · subst hqp
      rw [update_self] at hq
      cases hq
    · rw [update_of_ne hqp, commits_wakeup] at hq
      exact hqp (h.unique q p hq (hp ▸ rfl))
  refine ⟨?_, fun hl => (by cases hl), fun q hq => absurd hq (hno q), fun q _ hq _ =>
    absurd hq (hno q)⟩
  obtain ⟨S, hS, hcard⟩ := h.count
  refine ⟨S, fun q => ?_, hcard⟩
  have hw : (wakeup s.phase p).inside = Phase.idle.inside := by rw [inside_wakeup, hp]; rfl
  rw [hS q, apply_update Phase.inside rfl hw.symm, inside_wakeup]

/-- Every step keeps the invariant. -/
theorem groupInv_step (h : GroupInv s) (hs : Step s op s') : GroupInv s' := by
  cases step_kind hs with
  | sleep hp _ =>
    rcases hp with hp | hp
    · exact h.move hp rfl rfl rfl rfl
    · exact h.move hp rfl rfl rfl rfl
  | enter hp hb =>
    obtain ⟨hc, -, rfl⟩ := beginOp_eq_some hb
    rcases hp with hp | hp
    · exact h.enter (hp ▸ rfl) (hp ▸ rfl) hc
    · exact h.enter (hp ▸ rfl) (hp ▸ rfl) hc
  | check hp | store hp | commit hp | wake hp => exact h.move hp rfl rfl rfl rfl
  | last hp he =>
    obtain ⟨-, ⟨-, ho, rfl⟩ | ⟨h', -⟩⟩ := endOp_eq_ok he
    · exact h.leave hp (fun _ => rfl) (fun _ => rfl) rfl (by simp [ho]) rfl fun _ => rfl
    · cases h'
  | notLast hp he =>
    obtain ⟨hc, ⟨h', -⟩ | ⟨-, rfl⟩⟩ := endOp_eq_ok he
    · cases h'
    · exact h.leave hp (inside_wakeup _) (commits_wakeup _) rfl rfl hc
        fun hl => by rw [hc] at hl; cases hl
  | clear hp => exact h.clear hp

omit [DecidableEq ι] in
theorem groupInv_initial (start size : Nat) (block : Fin LOGSIZE → UInt32) (d : Nat → Block) :
    GroupInv (initial start size block d : Sys ι) where
  count := ⟨∅, fun p => by simp [initial, Phase.inside], rfl⟩
  alone h := by cases h
  commits p hp := by cases hp
  unique p q hp := by cases hp

/-! ### What is in the header -/

/-- What has happened: the blocks passed to `log_write` since the last commit, those that each
process has passed in its current operation, and those of each operation that has ended since the
last commit. -/
structure Hist (ι : Type) where
  since : List UInt32
  mine : ι → List UInt32
  done : List (List UInt32)

/-- A block is logged by `p`. -/
def Hist.log (c : Hist ι) (p : ι) (b : UInt32) : Hist ι :=
  { c with since := b :: c.since, mine := update c.mine p (b :: c.mine p) }

/-- The history after a step from the state `x.1`. -/
def Hist.next (c : Hist ι) (x : Sys ι × Op ι) : Hist ι :=
  match x.2 with
  | .beginOp p => { c with mine := update c.mine p [] }
  | .logStore p =>
    match x.1.phase p with
    | .writing b => c.log p b
    | _ => c
  | .endOp p => { c with done := c.mine p :: c.done }
  | .commit _ => { c with since := [], done := [] }
  | _ => c

/-- The history of a run. -/
def history (t : List (Sys ι × Op ι)) : Hist ι := t.foldl Hist.next ⟨[], fun _ => [], []⟩

/-- **The invariant of the header.** -/
structure HeaderInv (c : Hist ι) (s : Sys ι) : Prop where
  group : GroupInv s
  n_le : s.log.lh.n ≤ LOGSIZE
  nodup : s.log.lh.blocks.Nodup
  mem : ∀ b, b ∈ s.log.lh.blocks ↔ b ∈ c.since
  ops : ∀ b, b ∈ c.since ↔ (∃ ws ∈ c.done, b ∈ ws) ∨ ∃ p, (s.phase p).inside = true ∧ b ∈ c.mine p

/-- What `commit` leaves in memory. -/
theorem commit_lh {lh lh' : LogHeader} {dev' : Dev Nat Block}
    (h : (commit start lh).run dev = .ok (lh', dev')) : lh'.n = 0 := by
  unfold commit at h
  split at h
  · obtain ⟨_, _, -, h⟩ := Prog.run_bind_eq_ok _ h
    obtain ⟨_, _, -, h⟩ := Prog.run_bind_eq_ok _ h
    obtain ⟨_, _, -, h⟩ := Prog.run_bind_eq_ok _ h
    obtain ⟨_, _, -, h⟩ := Prog.run_bind_eq_ok _ h
    cases h
    rfl
  · next hn =>
    cases h
    omega

omit [DecidableEq ι] in
/-- While somebody commits nobody is in an operation. -/
theorem GroupInv.outside (h : GroupInv s) (hp : (s.phase p).commits = true) (q : ι) :
    (s.phase q).inside = false := by
  cases hq : (s.phase q).inside with
  | false => rfl
  | true =>
    have hc := h.not_committing hq
    rw [h.commits p hp] at hc
    cases hc

omit [DecidableEq ι] in
/-- A step that changes neither the header nor who is in an operation. -/
theorem HeaderInv.keep {c : Hist ι} (h : HeaderInv c s) (hg : GroupInv s')
    (hl : s'.log.lh = s.log.lh) (hi : ∀ p, (s'.phase p).inside = (s.phase p).inside) :
    HeaderInv c s' where
  group := hg
  n_le := hl ▸ h.n_le
  nodup := hl ▸ h.nodup
  mem b := by rw [hl, h.mem]
  ops b := by rw [h.ops]; simp only [hi]

/-- A block is logged. -/
theorem HeaderInv.log {c : Hist ι} (h : HeaderInv c s) (hg : GroupInv s') {b : UInt32}
    (hl : s.log.lh.add b = .ok s'.log.lh) (hi : ∀ q, (s'.phase q).inside = (s.phase q).inside)
    (hp : (s.phase p).inside = true) : HeaderInv (c.log p b) s' := by
  obtain ⟨hn, hb⟩ := LogHeader.add_eq_ok h.n_le hl
  refine ⟨hg, hn, ?_, fun a => ?_, fun a => ?_⟩
  · rw [hb]
    split
    · exact h.nodup
    · next hm =>
      exact nodup_append.mpr ⟨h.nodup, nodup_singleton b, fun x hx y hy e =>
        hm (mem_singleton.mp hy ▸ e ▸ hx)⟩
  · have hmem : a ∈ s'.log.lh.blocks ↔ a = b ∨ a ∈ s.log.lh.blocks := by
      rw [hb]
      split
      · next hm => exact ⟨.inr, fun h => h.elim (fun e => e ▸ hm) id⟩
      · rw [mem_append, mem_singleton, or_comm]
    rw [hmem, h.mem]
    exact mem_cons.symm
  · have hmine : (∃ q, (s'.phase q).inside = true ∧ a ∈ (c.log p b).mine q) ↔
        a = b ∨ ∃ q, (s.phase q).inside = true ∧ a ∈ c.mine q := by
      simp only [hi, Hist.log]
      constructor
      · rintro ⟨q, hq, ha⟩
        by_cases hqp : q = p
        · subst hqp
          rw [update_self] at ha
          exact (mem_cons.mp ha).imp id fun ha => ⟨q, hq, ha⟩
        · rw [update_of_ne hqp] at ha
          exact .inr ⟨q, hq, ha⟩
      · rintro (rfl | ⟨q, hq, ha⟩)
        · exact ⟨p, hp, by rw [update_self]; exact mem_cons_self⟩
        · refine ⟨q, hq, ?_⟩
          by_cases hqp : q = p
          · subst hqp
            rw [update_self]
            exact mem_cons_of_mem _ ha
          · rwa [update_of_ne hqp]
    have hold := h.ops a
    simp only [Hist.log] at hmine ⊢
    rw [hmine, or_left_comm, ← hold, mem_cons]

/-- `p` is in `begin_op`. -/
theorem HeaderInv.begin {c : Hist ι} (h : HeaderInv c s) (hg : GroupInv s')
    (hl : s'.log.lh = s.log.lh) (hp : (s.phase p).inside = false)
    (hi : ∀ q, q ≠ p → (s'.phase q).inside = (s.phase q).inside) :
    HeaderInv { c with mine := update c.mine p [] } s' where
  group := hg
  n_le := hl ▸ h.n_le
  nodup := hl ▸ h.nodup
  mem b := by rw [hl, h.mem]
  ops b := by
    rw [h.ops]
    dsimp only
    refine or_congr_right ⟨fun ⟨q, hq, hb⟩ => ?_, fun ⟨q, hq, hb⟩ => ?_⟩
    · have hqp : q ≠ p := fun e => by rw [e, hp] at hq; cases hq
      exact ⟨q, (hi q hqp).trans hq, by rwa [update_of_ne hqp]⟩
    · by_cases hqp : q = p
      · subst hqp
        rw [update_self] at hb
        cases hb
      · rw [update_of_ne hqp] at hb
        exact ⟨q, (hi q hqp).symm.trans hq, hb⟩

omit [DecidableEq ι] in
/-- `p` ends its operation. -/
theorem HeaderInv.finish {c : Hist ι} (h : HeaderInv c s) (hg : GroupInv s')
    (hl : s'.log.lh = s.log.lh) (hp : (s.phase p).inside = true) (hp' : (s'.phase p).inside = false)
    (hi : ∀ q, q ≠ p → (s'.phase q).inside = (s.phase q).inside) :
    HeaderInv { c with done := c.mine p :: c.done } s' where
  group := hg
  n_le := hl ▸ h.n_le
  nodup := hl ▸ h.nodup
  mem b := by rw [hl, h.mem]
  ops b := by
    rw [h.ops]
    constructor
    · rintro (⟨ws, hws, hb⟩ | ⟨q, hq, hb⟩)
      · exact .inl ⟨ws, mem_cons_of_mem _ hws, hb⟩
      · by_cases hqp : q = p
        · exact .inl ⟨c.mine p, mem_cons_self, hqp ▸ hb⟩
        · exact .inr ⟨q, (hi q hqp).trans hq, hb⟩
    · rintro (⟨ws, hws, hb⟩ | ⟨q, hq, hb⟩)
      · rcases mem_cons.mp hws with rfl | hws
        · exact .inr ⟨p, hp, hb⟩
        · exact .inl ⟨ws, hws, hb⟩
      · have hqp : q ≠ p := fun e => by rw [e, hp'] at hq; cases hq
        exact .inr ⟨q, (hi q hqp).symm.trans hq, hb⟩

omit [DecidableEq ι] in
/-- A commit: nobody is in an operation, and the header is empty. -/
theorem HeaderInv.commit {c : Hist ι} (hg : GroupInv s') (hn : s'.log.lh.n = 0)
    (hi : ∀ q, (s'.phase q).inside = false) : HeaderInv { c with since := [], done := [] } s' := by
  have hnil : s'.log.lh.blocks = [] := by rw [LogHeader.blocks, hn, take_zero]
  refine ⟨hg, hn ▸ Nat.zero_le _, hnil ▸ nodup_nil, fun b => by rw [hnil], fun b => ?_⟩
  simp [hi]

/-- Every step keeps the invariant. -/
theorem headerInv_step {c : Hist ι} (h : HeaderInv c s) (hs : Step s op s') :
    HeaderInv (c.next (s, op)) s' := by
  have hg := groupInv_step h.group hs
  cases step_kind hs with
  | sleep hp _ =>
    refine h.begin hg rfl (by rcases hp with hp | hp <;> rw [hp] <;> rfl) fun q hqp => ?_
    exact congrArg Phase.inside (update_of_ne hqp _ _)
  | enter hp hb =>
    obtain ⟨-, -, rfl⟩ := beginOp_eq_some hb
    refine h.begin hg rfl (by rcases hp with hp | hp <;> rw [hp] <;> rfl) fun q hqp => ?_
    exact congrArg Phase.inside (update_of_ne hqp _ _)
  | check hp _ => exact h.keep hg rfl fun q => apply_update Phase.inside hp (x := .writing _) rfl q
  | @store p b lh hp hl =>
    have hc : c.next (s, .logStore p) = c.log p b := by simp only [Hist.next, hp]
    rw [hc]
    exact h.log hg hl (apply_update _ hp rfl) (hp ▸ rfl)
  | @last p l hp he =>
    obtain ⟨-, ⟨-, -, rfl⟩ | ⟨h', -⟩⟩ := endOp_eq_ok he
    · refine h.finish hg rfl (p := p) (hp ▸ rfl) ?_ fun q hqp => ?_
      · exact congrArg Phase.inside (update_self p Phase.closing s.phase)
      · exact congrArg Phase.inside (update_of_ne hqp _ _)
    · cases h'
  | @notLast p l hp he =>
    obtain ⟨-, ⟨h', -⟩ | ⟨-, rfl⟩⟩ := endOp_eq_ok he
    · cases h'
    refine h.finish hg rfl (p := p) (hp ▸ rfl) ?_ fun q hqp => ?_
    · exact congrArg Phase.inside (update_self p Phase.idle (wakeup s.phase))
    · rw [← inside_wakeup s.phase q]
      exact congrArg Phase.inside (update_of_ne hqp _ _)
  | @commit p lh dev hp hr =>
    refine .commit hg (commit_lh hr) fun q => ?_
    rw [← h.group.outside (p := p) (hp ▸ rfl) q]
    exact apply_update Phase.inside hp (x := .committed) rfl q
  | @clear p hp =>
    refine h.keep hg rfl fun q => ?_
    have hw : wakeup s.phase p = .committed := by rw [wakeup, hp]; rfl
    rw [← inside_wakeup s.phase q]
    exact apply_update Phase.inside hw (x := .idle) rfl q
  | wake hp => exact h.keep hg rfl fun q => apply_update Phase.inside hp (x := .woken) rfl q

omit [DecidableEq ι] in
theorem headerInv_initial (start size : Nat) (block : Fin LOGSIZE → UInt32) (d : Nat → Block) :
    HeaderInv ⟨[], fun _ => [], []⟩ (initial start size block d : Sys ι) where
  group := groupInv_initial start size block d
  n_le := Nat.zero_le _
  nodup := nodup_nil
  mem b := Iff.rfl
  ops b := by simp

/-- Both invariants hold all along a run. -/
theorem headerInv_run {size : Nat} {block : Fin LOGSIZE → UInt32} {d : Nat → Block}
    {t : List (Sys ι × Op ι)} (hr : Run Step (initial start size block d) t s) :
    HeaderInv (history t) s :=
  hr.inv_history Hist.next (fun _ _ _ _ h hs => headerInv_step h hs)
    (headerInv_initial start size block d)

/-! ### The panics -/

/-- The errors of a piece of code that only moves blocks. -/
def BlockError (e : Stop) : Prop :=
  e = .panic "incorrect blockno" ∨ e = .fault "log.lh.block: index out of range"

theorem bread_only (b : Nat) : (bread b).Only BlockError := by
  unfold bread
  split
  · exact fun _ => trivial
  · exact .inl rfl

theorem bwrite_only (b : Nat) (v : Block) : (bwrite b v).Only BlockError := by
  unfold bwrite
  split
  · trivial
  · exact .inl rfl

theorem index_only (i : Nat) : (index i).Only BlockError := by
  unfold index
  split
  · trivial
  · exact .inr rfl

theorem installTrans_only (start : Nat) (lh : LogHeader) :
    (installTrans start lh).Only BlockError := by
  refine .upTo (fun tail => ?_) _
  refine (bread_only _).bind fun _ => (index_only _).bind fun _ => ?_
  exact (bread_only _).bind fun _ => bwrite_only _ _

theorem writeLog_only (start : Nat) (lh : LogHeader) : (writeLog start lh).Only BlockError := by
  refine .upTo (fun tail => ?_) _
  refine (bread_only _).bind fun _ => (index_only _).bind fun _ => ?_
  exact (bread_only _).bind fun _ => bwrite_only _ _

theorem copyOut_only (lh : LogHeader) (hb : Block) (i : Nat) :
    (copyOut lh hb i).Only BlockError := by
  induction i with
  | zero => trivial
  | succ i ih => exact ih.bind fun _ => (index_only _).bind fun _ => trivial

theorem writeHead_only (start : Nat) (lh : LogHeader) : (writeHead start lh).Only BlockError :=
  (bread_only _).bind fun _ => (copyOut_only _ _ _).bind fun _ => bwrite_only _ _

theorem commit_only (start : Nat) (lh : LogHeader) : (commit start lh).Only BlockError := by
  unfold commit
  split
  · refine (writeLog_only _ _).bind fun _ => (writeHead_only _ _).bind fun _ => ?_
    exact (installTrans_only _ _).bind fun _ => (writeHead_only _ _).bind fun _ => trivial
  · trivial

/-- **Why the machine stops**: the first check of `log_write`, a full header, or a block number
outside of the disk. -/
theorem step_error (h : GroupInv s) {e : Stop} (he : step s op = some (.error e)) :
    (e = .panic "too big a transaction" ∧ logCheck s.log = .error e ∧
      ∃ p b v, op = .logWrite p b v ∧ s.phase p = .inOp) ∨ BlockError e := by
  cases op with
  | beginOp p =>
    obtain ⟨-, he⟩ := ite_none_right_eq_some.mp he
    cases hb : beginOp s.log with
    | none => rw [hb] at he; cases he
    | some l => rw [hb] at he; cases he
  | logWrite p b v =>
    obtain ⟨hp, he⟩ := ite_none_right_eq_some.mp he
    rcases Res.bind_eq_error.mp (some.inj he) with hc | ⟨_, -, hc⟩
    · refine .inl ⟨?_, hc, p, b, v, rfl, hp⟩
      unfold logCheck at hc
      split at hc
      · cases hc
        rfl
      · have hpos := h.pos (p := p) (hp ▸ rfl)
        rw [if_neg (by omega)] at hc
        cases hc
    · cases hc
  | logStore p =>
    cases hp : s.phase p with
    | writing b =>
      simp only [step, hp] at he
      rcases Res.bind_eq_error.mp (some.inj he) with ha | ⟨_, -, ha⟩
      · unfold LogHeader.add at ha
        dsimp only at ha
        split at ha
        · cases ha
        · cases ha
          exact .inr (.inr rfl)
      · cases ha
    | _ => simp [step, hp] at he
  | endOp p =>
    obtain ⟨hp, he⟩ := ite_none_right_eq_some.mp he
    have hc := h.not_committing (p := p) (hp ▸ rfl)
    rcases Res.bind_eq_error.mp (some.inj he) with ho | ⟨_, -, ho⟩
    · unfold endOp at ho
      simp only [hc, Bool.false_eq_true, if_false] at ho
      split at ho
      · cases ho
      · cases ho
    · cases ho
  | commit p =>
    obtain ⟨-, he⟩ := ite_none_right_eq_some.mp he
    rcases Res.bind_eq_error.mp (some.inj he) with hr | ⟨_, -, hr⟩
    · exact .inr ((commit_only _ _).of_run hr)
    · cases hr
  | clear | wake =>
    obtain ⟨-, he⟩ := ite_none_right_eq_some.mp he
    cases he

/-- **Group commit.**  In every state of every run: while `committing` is set, in particular while
a process commits, `outstanding` is 0 and nobody is in an operation; the panics of `end_op` and of
`log_write` outside of an operation are not reached; the header names the blocks passed to
`log_write` since the last commit, each once; and these are all the blocks of the operations that
have ended since the last commit and of those that go on, so that no commit splits an operation. -/
theorem group_commit {start size : Nat} {block : Fin LOGSIZE → UInt32} {d : Nat → Block}
    {t : List (Sys ι × Op ι)} (hr : Run Step (initial start size block d) t s) :
    (∀ p, s.phase p = .closing ∨ s.phase p = .committed → s.log.committing = true) ∧
    (s.log.committing = true → s.log.outstanding = 0 ∧ ∀ q, (s.phase q).inside = false) ∧
    (∀ op, step s op ≠ some (.error (.panic "log.committing")) ∧
      step s op ≠ some (.error (.panic "log_write outside of trans"))) ∧
    (s.log.lh.blocks.Nodup ∧ ∀ b, b ∈ s.log.lh.blocks ↔ b ∈ (history t).since) ∧
    ∀ b, b ∈ (history t).since ↔ (∃ ws ∈ (history t).done, b ∈ ws) ∨
      ∃ p, (s.phase p).inside = true ∧ b ∈ (history t).mine p := by
  have h := headerInv_run hr
  have hgroup := h.group
  refine ⟨fun p hp => hgroup.commits p ?_, fun hc => ⟨hgroup.alone hc, fun q => ?_⟩,
    fun op => ⟨fun he => ?_, fun he => ?_⟩, ⟨h.nodup, h.mem⟩, h.ops⟩
  · rcases hp with hp | hp
    · rw [hp]; rfl
    · rw [hp]; rfl
  · cases hq : (s.phase q).inside with
    | false => rfl
    | true =>
      rw [hgroup.not_committing hq] at hc
      cases hc
  · rcases step_error hgroup he with ⟨h, -⟩ | h | h
    · simp at h
    · simp at h
    · simp at h
  · rcases step_error hgroup he with ⟨h, -⟩ | h | h
    · simp at h
    · simp at h
    · simp at h

/-- A step, as a function. -/
def next (s : Sys ι) (op : Op ι) : Option (Sys ι) := (step s op).bind Except.toOption

theorem step_of_next (h : next s op = some s') : Step s op s' := by
  obtain ⟨r, hr, h⟩ := bind_eq_some_iff.mp h
  cases r with
  | error e => cases h
  | ok s₁ => cases h; exact hr

/-- Two processes log the block 50, and the second one is the last to end its operation. -/
def twoOps : List (Op Bool) :=
  [.beginOp false, .beginOp true, .logWrite false 50 fun _ => 0, .logStore false,
    .logWrite true 50 fun _ => 0, .logStore true, .endOp false, .endOp true]

theorem group_commit_twoOps : ∃ (s : Sys Bool) (t : _),
    Run Step (initial 2 30 (fun _ => 0) fun _ _ => 0) t s ∧
    (s.phase true = .closing ∧ s.log.lh.blocks = [50]) ∧
    s.log.outstanding = 0 ∧ ∀ b, b ∈ s.log.lh.blocks ↔ b ∈ (history t).since := by
  obtain ⟨s, hr, hs⟩ := exists_run (R := Step) (f := next) (fun _ _ _ h => step_of_next h)
    (initial 2 30 (fun _ => 0) fun _ _ => 0) twoOps
    (fun s => s.phase true = .closing ∧ s.log.lh.blocks = [50]) (by decide +kernel)
  obtain ⟨hc, ho, -, hh, -⟩ := group_commit hr
  exact ⟨s, _, hr, hs, (ho (hc true (.inl hs.1))).1, hh.2⟩

end Log

end Xv6
