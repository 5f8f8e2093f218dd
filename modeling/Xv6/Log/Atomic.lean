import Xv6.Log.Commit

/-!
# Log — Atomic

A transaction is on the disk as a whole or not at all, whenever the machine stops.  The disk is
always in one of three states: the log is clean and the home blocks have their old contents
(`Clean` of the old disk), the header has the transaction and the log blocks have its contents
(`Committed`), or the log is clean and the home blocks have their new contents (`Clean` of
`Trans.result`).  `CrashInv` is their disjunction; the write of the header in the middle of
`commit` is the step from the first to the second.

`commit` and `recover_from_log` have `CrashInv` as their crash condition (`commit_triple`,
`recover_triple`), so a recovery may be cut off any number of times (`commit_atomic`).
-/

namespace Xv6.Log

open Lib Function Nat

/-- The blocks of the disk that are the log's: the header and `size - 1` blocks. -/
structure LogArea where
  start : Nat
  size : Nat
  pos : 0 < size
  fits : start + size ≤ FSSIZE

/-- Is `b` a block of the log? -/
def LogArea.Has (A : LogArea) (b : Nat) : Prop := A.start ≤ b ∧ b < A.start + A.size

/-- A transaction: the header in memory, and the new contents of the blocks it names. -/
structure Trans (A : LogArea) where
  lh : LogHeader
  new : Nat → Block
  lt_size : lh.n < A.size
  le_logsize : lh.n ≤ LOGSIZE
  lt_fssize : ∀ i : Fin LOGSIZE, i.1 < lh.n → (lh.block i).toNat < FSSIZE
  home : ∀ i : Fin LOGSIZE, i.1 < lh.n → ¬ A.Has (lh.block i).toNat

/-- Is `b` a block that the transaction changes? -/
def Trans.Mem {A : LogArea} (T : Trans A) (b : Nat) : Prop :=
  ∃ i : Fin LOGSIZE, i.1 < T.lh.n ∧ (T.lh.block i).toNat = b

instance {A : LogArea} (T : Trans A) (b : Nat) : Decidable (T.Mem b) :=
  inferInstanceAs (Decidable (∃ i : Fin LOGSIZE, i.1 < T.lh.n ∧ (T.lh.block i).toNat = b))

/-- The disk after the transaction. -/
def Trans.result {A : LogArea} (T : Trans A) (d : Nat → Block) (b : Nat) : Block :=
  if T.Mem b then T.new b else d b

variable {A : LogArea} {T : Trans A} {d x w : Nat → Block} {P P' : Cond Nat Block}
  {C : (Nat → Block) → Prop} {b i n : Nat} {lh : LogHeader}

theorem LogArea.has_start (A : LogArea) : A.Has A.start :=
  ⟨le_rfl, Nat.lt_add_of_pos_right A.pos⟩

theorem LogArea.Has.lt (h : A.Has b) : b < FSSIZE := lt_of_lt_of_le h.2 A.fits

theorem LogArea.Has.ne {c : Nat} (h : A.Has b) (hc : ¬ A.Has c) : b ≠ c := fun e => hc (e ▸ h)

theorem Trans.has_slot (T : Trans A) (hi : i < T.lh.n) : A.Has (A.start + i + 1) := by
  have h := T.lt_size
  exact ⟨by omega, by omega⟩

theorem Trans.Mem.not_has (h : T.Mem b) : ¬ A.Has b := by
  obtain ⟨i, hi, rfl⟩ := h
  exact T.home i hi

/-! ### The pieces of a program -/

theorem bread_triple (hb : b < FSSIZE) (hC : ∀ w x, P w x → C x) :
    Triple P (bread b) (fun v w x => P w x ∧ w b = v) C := by
  rw [bread, if_pos hb]
  exact .read fun v => .ret (fun _ _ h => h) fun w x h => hC w x h.1

theorem bwrite_triple {v : Block} (hb : b < FSSIZE)
    (hP : ∀ w x, P w x → P' (update w b v) (update x b v)) (hC : ∀ w x, P w x → C x)
    (hC' : ∀ w x, P' w x → C x) : Triple P (bwrite b v) (fun _ => P') C := by
  rw [bwrite, if_pos hb]
  exact .write (.ret (fun _ _ h => h) hC') hP hC

theorem index_eq (hi : i < LOGSIZE) : index i = .ret ⟨i, hi⟩ := dif_pos hi

theorem copyIn_eq (buf : Block) (lh : LogHeader) (hi : i ≤ LOGSIZE) : copyIn buf lh i =
      .ret { lh with block := fun j => if j.1 < i then buf (blockWord j) else lh.block j } := by
  induction i with
  | zero => simp [copyIn]
  | succ i ih =>
    rw [copyIn, ih (le_of_succ_le hi), index_eq hi]
    refine congrArg (fun f => Prog.ret { lh with block := f }) ?_
    funext j
    rw [update_apply]
    by_cases hj : j = ⟨i, hi⟩
    · subst hj
      simp
    have hne : j.1 ≠ i := fun e => hj (Fin.ext e)
    simp only [hj, if_false]
    congr 1
    exact propext ⟨fun h => by omega, fun h => by omega⟩

/-- The header block `hb` says what `lh` says. -/
structure HeadOf (lh : LogHeader) (hb : Block) : Prop where
  n : count (hb countWord) = lh.n
  block : ∀ i : Fin LOGSIZE, i.1 < lh.n → hb (blockWord i) = lh.block i

theorem count_ofNat (h : n ≤ LOGSIZE) : count (UInt32.ofNat n) = n := by
  have h : n < 31 := lt_succ_of_le h
  revert h
  revert n
  decide

theorem blockWord_inj {i j : Fin LOGSIZE} (h : blockWord i = blockWord j) : i = j :=
  Fin.ext (succ.inj (congrArg Fin.val h))

theorem blockWord_ne (i : Fin LOGSIZE) : blockWord i ≠ countWord := fun h =>
  absurd (congrArg Fin.val h) (succ_ne_zero _)

/-- The loop of `write_head`: the first word is left alone. -/
theorem copyOut_eq (lh : LogHeader) (hb : Block) (hi : i ≤ LOGSIZE) :
    ∃ hb', copyOut lh hb i = .ret hb' ∧ hb' countWord = hb countWord ∧
      ∀ j : Fin LOGSIZE, j.1 < i → hb' (blockWord j) = lh.block j := by
  induction i with
  | zero => exact ⟨hb, rfl, rfl, fun _ h => absurd h (not_lt_zero _)⟩
  | succ i ih =>
    obtain ⟨hb', he, hn, hb'⟩ := ih (le_of_succ_le hi)
    rw [copyOut, he, index_eq hi]
    refine ⟨_, rfl, ?_, fun j hj => ?_⟩
    · rw [update_of_ne (blockWord_ne _).symm, hn]
    · by_cases hji : j = ⟨i, hi⟩
      · rw [hji, update_self]
      · rw [update_of_ne fun e => hji (blockWord_inj e)]
        have hne : j.1 ≠ i := fun e => hji (Fin.ext e)
        exact hb' j (by omega)

theorem copyOut_headOf (hn : lh.n ≤ LOGSIZE) (buf : Block) :
    ∃ hb, copyOut lh (update buf countWord (UInt32.ofNat lh.n)) lh.n = .ret hb ∧
      HeadOf lh hb := by
  obtain ⟨hb, he, hc, hbl⟩ :=
    copyOut_eq lh (update buf countWord (UInt32.ofNat lh.n)) hn
  refine ⟨hb, he, ?_, hbl⟩
  rw [hc, update_self, count_ofNat hn]

/-- `write_head` is the one write of a header block. -/
theorem writeHead_triple (A : LogArea) (P' : Cond Nat Block) (hn : lh.n ≤ LOGSIZE)
    (hP : ∀ w x hb, P w x → HeadOf lh hb →
      P' (update w A.start hb) (update x A.start hb)) (hC : ∀ w x, P w x → C x)
    (hC' : ∀ w x, P' w x → C x) : Triple P (writeHead A.start lh) (fun _ => P') C := by
  refine (bread_triple A.has_start.lt hC).bind fun buf => ?_
  obtain ⟨hb, he, hhead⟩ := copyOut_headOf hn buf
  rw [he]
  exact bwrite_triple A.has_start.lt (fun w x h => hP w x hb h.1 hhead) (fun w x h => hC w x h.1) hC'

/-! ### The states of the disk -/

/-- The log of `x` is clean, and its other blocks are those of `d`. -/
structure Clean (A : LogArea) (d x : Nat → Block) : Prop where
  other : ∀ b, ¬ A.Has b → x b = d b
  head : count (x A.start countWord) = 0

/-- The transaction is in the log, and the blocks that it does not change are those of `d`. -/
structure Committed (T : Trans A) (d x : Nat → Block) : Prop where
  other : ∀ b, ¬ A.Has b → ¬ T.Mem b → x b = d b
  head : HeadOf T.lh (x A.start)
  log : ∀ i : Fin LOGSIZE, i.1 < T.lh.n → x (A.start + i.1 + 1) = T.new (T.lh.block i).toNat

/-- What a crash can leave. -/
def CrashInv (T : Trans A) (d x : Nat → Block) : Prop :=
  Clean A d x ∨ Committed T d x ∨ Clean A (T.result d) x

/-- The header is overwritten by an empty one. -/
theorem clean_update {hb : Block} (h : ∀ b, ¬ A.Has b → x b = d b)
    (hh : count (hb countWord) = 0) : Clean A d (update x A.start hb) where
  other b hb' := by
    rw [update_of_ne (A.has_start.ne hb').symm]
    exact h b hb'
  head := by rwa [update_self]

/-- A home block is written. -/
theorem Committed.install {i : Fin LOGSIZE} (h : Committed T d x) (hi : i.1 < T.lh.n) (v : Block) :
    Committed T d (update x (T.lh.block i).toNat v) where
  other b hb hm := by
    rw [update_of_ne fun e => hm ⟨i, hi, e.symm⟩]
    exact h.other b hb hm
  head := by
    rw [update_of_ne (A.has_start.ne (T.home i hi))]
    exact h.head
  log j hj := by
    rw [update_of_ne ((T.has_slot hj).ne (T.home i hi))]
    exact h.log j hj

/-- **Installation.**  `lh` is the transaction's header, read back or still in memory. -/
theorem installTrans_triple (hn : lh.n = T.lh.n)
    (hl : ∀ i : Fin LOGSIZE, i.1 < T.lh.n → lh.block i = T.lh.block i) :
    Triple (fun w x => Committed T d x ∧ ∀ b, A.Has b → w b = x b) (installTrans A.start lh)
      (fun _ _ x => Committed T d x ∧ ∀ b, T.Mem b → x b = T.new b) (Committed T d) := by
  -- after `k` iterations the first `k` blocks are at home
  have hloop := Triple.upTo (n := lh.n) (C := Committed T d)
    (I := fun k w x => (Committed T d x ∧ ∀ b, A.Has b → w b = x b) ∧
      ∀ i : Fin LOGSIZE, i.1 < T.lh.n → i.1 < k →
        x (T.lh.block i).toNat = T.new (T.lh.block i).toNat)
    (f := fun tail => do
      let lbuf ← bread (A.start + tail + 1)
      let i ← index tail
      let _dbuf ← bread (lh.block i).toNat
      bwrite (lh.block i).toNat lbuf)
    (fun i hi => ?_) (fun w x h => h.1.1)
  · refine hloop.conseq (fun w x h => ⟨h, fun i _ hi => absurd hi (not_lt_zero _)⟩)
      (fun _ w x h => ⟨h.1.1, ?_⟩) fun _ h => h
    rintro b ⟨i, hi, rfl⟩
    exact h.2 i hi (hn ▸ hi)
  · rw [hn] at hi
    have hlt : i < LOGSIZE := lt_of_lt_of_le hi T.le_logsize
    refine (bread_triple (T.has_slot hi).lt fun w x h => h.1.1).bind fun lbuf => ?_
    rw [index_eq hlt]
    have hbl := hl ⟨i, hlt⟩ hi
    have hfs := T.lt_fssize ⟨i, hlt⟩ hi
    refine (bread_triple (hbl ▸ hfs) fun w x h => h.1.1.1).bind fun _ => ?_
    rw [hbl]
    refine bwrite_triple hfs ?_ (fun w x h => h.1.1.1.1) fun w x h => h.1.1
    rintro w x ⟨⟨⟨⟨hc, hv⟩, hdone⟩, rfl⟩, -⟩
    have hnew : w (A.start + i + 1) = T.new (T.lh.block ⟨i, hlt⟩).toNat := by
      rw [hv _ (T.has_slot hi)]
      exact hc.log ⟨i, hlt⟩ hi
    refine ⟨⟨hc.install hi _, fun b hb => ?_⟩, fun j hj hjk => ?_⟩
    · have hne := hb.ne (T.home ⟨i, hlt⟩ hi)
      rw [update_of_ne hne, update_of_ne hne]
      exact hv b hb
    · rw [update_apply]
      split
      · next he => rw [he, hnew]
      · next he =>
        refine hdone j hj (lt_of_le_of_ne (le_of_lt_succ hjk) fun e => he ?_)
        rw [← (Fin.ext e : j = ⟨i, hlt⟩)]

/-- The last write of a commit and of a recovery. -/
theorem clear_triple (T : Trans A) (d : Nat → Block) (lh : LogHeader) :
    Triple (fun _ x => Committed T d x ∧ ∀ b, T.Mem b → x b = T.new b)
      (writeHead A.start { lh with n := 0 }) (fun _ _ x => Clean A (T.result d) x)
      (CrashInv T d) := by
  refine writeHead_triple A (fun _ x => Clean A (T.result d) x) (zero_le _) ?_
    (fun w x h => .inr (.inl h.1)) fun w x h => .inr (.inr h)
  rintro w x hb ⟨hc, hnew⟩ hhead
  refine clean_update (fun b hb => ?_) hhead.n
  unfold Trans.result
  split
  · next hm => exact hnew b hm
  · next hm => exact hc.other b hb hm

/-! ### Commit -/

/-- The state a commit starts from: the changed blocks are in the cache only. -/
structure Pending (T : Trans A) (d w x : Nat → Block) : Prop where
  clean : Clean A d x
  new : ∀ b, T.Mem b → w b = T.new b
  log : ∀ b, A.Has b → w b = x b

/-- A log block is written. -/
theorem Pending.store (h : Pending T d w x) (hi : i < T.lh.n) (v : Block) :
    Pending T d (update w (A.start + i + 1) v) (update x (A.start + i + 1) v) where
  clean :=
    { other := fun b hb => by
        rw [update_of_ne ((T.has_slot hi).ne hb).symm]
        exact h.clean.other b hb
      head := by
        rw [update_of_ne (by omega)]
        exact h.clean.head }
  new b hb := by
    rw [update_of_ne ((T.has_slot hi).ne hb.not_has).symm]
    exact h.new b hb
  log b hb := by
    rw [update_apply, update_apply]
    split
    · rfl
    · exact h.log b hb

theorem writeLog_triple : Triple (Pending T d) (writeLog A.start T.lh)
      (fun _ w x => Pending T d w x ∧ ∀ i : Fin LOGSIZE, i.1 < T.lh.n →
        x (A.start + i.1 + 1) = T.new (T.lh.block i).toNat) (Clean A d) := by
  have hloop := Triple.upTo (n := T.lh.n) (C := Clean A d)
    (I := fun k w x => Pending T d w x ∧ ∀ i : Fin LOGSIZE, i.1 < k →
        x (A.start + i.1 + 1) = T.new (T.lh.block i).toNat)
    (f := fun tail => do
      let _to ← bread (A.start + tail + 1)
      let i ← index tail
      let data ← bread (T.lh.block i).toNat
      bwrite (A.start + tail + 1) data)
    (fun i hi => ?_) (fun w x h => h.1.clean)
  · exact hloop.conseq (fun w x h => ⟨h, fun i hi => absurd hi (not_lt_zero _)⟩)
      (fun _ w x h => h) fun _ h => h
  · have hlt : i < LOGSIZE := lt_of_lt_of_le hi T.le_logsize
    refine (bread_triple (T.has_slot hi).lt fun w x h => h.1.clean).bind fun _ => ?_
    rw [index_eq hlt]
    refine (bread_triple (T.lt_fssize ⟨i, hlt⟩ hi) fun w x h => h.1.1.clean).bind fun data => ?_
    refine bwrite_triple (T.has_slot hi).lt ?_ (fun w x h => h.1.1.1.clean) fun w x h => h.1.clean
    rintro w x ⟨⟨⟨hp, hlog⟩, -⟩, rfl⟩
    refine ⟨hp.store hi _, fun j hj => ?_⟩
    rw [update_apply]
    split
    · next he =>
      have hji : j.1 = i := by omega
      obtain rfl : j = ⟨i, hlt⟩ := Fin.ext hji
      exact hp.new _ ⟨_, hi, rfl⟩
    · next he => exact hlog j (by omega)

/-- **Commit.** -/
theorem commit_triple :
    Triple (Pending T d) (commit A.start T.lh) (fun _ _ x => Clean A (T.result d) x)
      (CrashInv T d) := by
  unfold commit
  split
  · refine (writeLog_triple.conseq (fun _ _ h => h) (fun _ _ _ h => h) fun x h => .inl h).bind
      fun _ => ?_
    -- the write of the header takes the transaction from `Clean` to `Committed`
    refine (writeHead_triple A (fun w x => Committed T d x ∧ ∀ b, A.Has b → w b = x b)
      T.le_logsize ?_ (fun w x h => .inl h.1.clean) fun w x h => .inr (.inl h.1)).bind fun _ => ?_
    · rintro w x hb ⟨hp, hlog⟩ hhead
      refine ⟨⟨fun b hb _ => ?_, by rwa [update_self], fun i hi => ?_⟩, fun b hb => ?_⟩
      · rw [update_of_ne (A.has_start.ne hb).symm]
        exact hp.clean.other b hb
      · rw [update_of_ne (by omega)]
        exact hlog i hi
      · rw [update_apply, update_apply]
        split
        · rfl
        · exact hp.log b hb
    · refine ((installTrans_triple rfl fun _ _ => rfl).conseq (fun _ _ h => h) (fun _ _ _ h => h)
        fun x h => .inr (.inl h)).bind fun _ => ?_
      exact (clear_triple T d T.lh).bind fun _ => .ret (fun _ _ h => h) fun w x h => .inr (.inr h)
  · next hn =>
    refine .ret (fun w x h => ⟨fun b hb => ?_, h.clean.head⟩) fun w x h => .inl h.clean
    have hm : ¬ T.Mem b := fun ⟨i, hi, _⟩ => hn (zero_lt_of_lt hi)
    rw [Trans.result, if_neg hm]
    exact h.clean.other b hb

/-! ### Recovery -/

theorem readHead_triple (A : LogArea) (lh₀ : LogHeader) (hn : n ≤ LOGSIZE)
    (hP : ∀ w x, P w x → count (w A.start countWord) = n) (hC : ∀ w x, P w x → C x) :
    Triple P (readHead A.start lh₀) (fun lh w x => P w x ∧ lh.n = n ∧
      ∀ i : Fin LOGSIZE, i.1 < n → lh.block i = w A.start (blockWord i)) C := by
  refine (bread_triple A.has_start.lt hC).bind fun buf => ?_
  by_cases hc : count (buf countWord) = n
  · rw [hc, copyIn_eq _ _ hn]
    refine .ret ?_ fun w x h => hC w x h.1
    rintro w x ⟨h, rfl⟩
    exact ⟨h, rfl, fun i hi => if_pos hi⟩
  have hno : ∀ w x, ¬ (P w x ∧ w A.start = buf) := by
    rintro w x ⟨h, rfl⟩
    exact hc (hP w x h)
  exact ⟨fun s h => absurd h (hno _ _), fun s h => absurd h (hno _ _)⟩

/-- Recovery with a clean log. -/
theorem recover_clean (d : Nat → Block) (lh₀ : LogHeader) :
    Triple (fun w x => Clean A d x ∧ w = x) (recoverFromLog A.start lh₀)
      (fun _ _ x => Clean A d x) (Clean A d) := by
  refine (readHead_triple A lh₀ (n := 0) (zero_le _) ?_ fun w x h => h.1).bind fun lh => ?_
  · rintro w x ⟨h, rfl⟩
    exact h.head
  · by_cases hn : lh.n = 0
    · rw [installTrans, hn]
      refine (writeHead_triple A (fun _ x => Clean A d x) (zero_le _) ?_
        (fun w x h => h.1.1) fun w x h => h).bind fun _ => .ret (fun _ _ h => h) fun _ _ h => h
      rintro w x hb ⟨⟨h, -⟩, -⟩ hhead
      exact clean_update h.other hhead.n
    · exact ⟨fun s h => absurd h.2.1 hn, fun s h => absurd h.2.1 hn⟩

/-- Recovery with a transaction in the log. -/
theorem recover_committed (lh₀ : LogHeader) :
    Triple (fun w x => Committed T d x ∧ w = x) (recoverFromLog A.start lh₀)
      (fun _ _ x => Clean A (T.result d) x) (CrashInv T d) := by
  refine (readHead_triple A lh₀ T.le_logsize ?_ fun w x h => .inr (.inl h.1)).bind fun lh => ?_
  · rintro w x ⟨h, rfl⟩
    exact h.head.n
  · by_cases hl : lh.n = T.lh.n ∧ ∀ i : Fin LOGSIZE, i.1 < T.lh.n → lh.block i = T.lh.block i
    · refine ((installTrans_triple hl.1 hl.2).conseq ?_ (fun _ _ _ h => h)
        fun x h => .inr (.inl h)).bind fun _ => ?_
      · rintro w x ⟨⟨h, rfl⟩, -⟩
        exact ⟨h, fun _ _ => rfl⟩
      · exact (clear_triple T d lh).bind fun _ => .ret (fun _ _ h => h) fun w x h => .inr (.inr h)
    · have hno : ∀ w x, ¬ ((Committed T d x ∧ w = x) ∧ lh.n = T.lh.n ∧
          ∀ i : Fin LOGSIZE, i.1 < T.lh.n → lh.block i = w A.start (blockWord i)) := by
        rintro w x ⟨⟨h, rfl⟩, hn, hb⟩
        exact hl ⟨hn, fun i hi => (hb i hi).trans (h.head.block i hi)⟩
      exact ⟨fun s h => absurd h (hno _ _), fun s h => absurd h (hno _ _)⟩

/-- **Recovery**, from whatever a crash left. -/
theorem recover_triple (lh₀ : LogHeader) :
    Triple (fun w x => CrashInv T d x ∧ w = x) (recoverFromLog A.start lh₀)
      (fun _ _ x => Clean A d x ∨ Clean A (T.result d) x) (CrashInv T d) := by
  have h₁ := (recover_clean (A := A) d lh₀).conseq (P := fun w x => Clean A d x ∧ w = x)
    (Q := fun _ _ x => Clean A d x ∨ Clean A (T.result d) x) (C := CrashInv T d)
    (fun _ _ h => h) (fun _ _ _ h => .inl h) fun x h => .inl h
  have h₂ := (recover_clean (A := A) (T.result d) lh₀).conseq
    (P := fun w x => Clean A (T.result d) x ∧ w = x)
    (Q := fun _ _ x => Clean A d x ∨ Clean A (T.result d) x) (C := CrashInv T d)
    (fun _ _ h => h) (fun _ _ _ h => .inr h) fun x h => .inr (.inr h)
  have h₃ := (recover_committed (T := T) (d := d) lh₀).conseq (C := CrashInv T d)
    (Q := fun _ _ x => Clean A d x ∨ Clean A (T.result d) x)
    (fun _ _ h => h) (fun _ _ _ h => .inr h) fun x h => h
  refine h₁.cases (h₃.cases h₂ fun w x h => h) fun w x h => ?_
  obtain ⟨h | h | h, rfl⟩ := h
  · exact .inl ⟨h, rfl⟩
  · exact .inr (.inl ⟨h, rfl⟩)
  · exact .inr (.inr ⟨h, rfl⟩)

/-- **Crash atomicity.**  The log on the disk is clean and the changed blocks are in the cache.
`commit` is cut off after any number of its writes, then any number of recoveries are.  The next
recovery ends; after it the log is clean, and the blocks outside the log are all as they were, or
all as the transaction makes them. -/
theorem commit_atomic (A : LogArea) (T : Trans A) (s : Dev Nat Block)
    (hclean : count (s.disk A.start countWord) = 0) (hnew : ∀ b, T.Mem b → s.view b = T.new b)
    (hlog : ∀ b, A.Has b → s.view b = s.disk b) (n : Nat) {d' : Nat → Block}
    (hr : Crashes (recoverFromLog A.start bootHeader) ((commit A.start T.lh).crash n s) d') :
    ∃ lh s', (recoverFromLog A.start bootHeader).run (.boot d') = .ok (lh, s') ∧
      count (s'.disk A.start countWord) = 0 ∧ ((∀ b, ¬ A.Has b → s'.disk b = s.disk b) ∨
        ∀ b, ¬ A.Has b → s'.disk b = T.result s.disk b) := by
  have hp : Pending T s.disk s.view s.disk := ⟨⟨fun _ _ => rfl, hclean⟩, hnew, hlog⟩
  obtain ⟨lh, s', hrun, hs'⟩ :=
    (recover_triple bootHeader).recovers (commit_triple.crash s hp n) hr
  refine ⟨lh, s', hrun, ?_⟩
  rcases hs' with h | h
  · exact ⟨h.head, .inl h.other⟩
  · exact ⟨h.head, .inr h.other⟩

/-- The log area that `mkfs` lays out. -/
def mkfsLog : LogArea := ⟨2, 30, by decide, by decide⟩

/-- A transaction that fills the blocks 100 and 101 with sevens. -/
def sevens : Trans mkfsLog where
  lh := ⟨2, fun i => if i.1 = 0 then 100 else 101⟩
  new := fun _ _ => 7
  lt_size := by decide
  le_logsize := by decide
  lt_fssize := by decide
  home := by unfold LogArea.Has; decide

/-- A disk of zeros, and the transaction in the cache. -/
def sevensDev : Dev Nat Block where
  disk := fun _ _ => 0
  cache := fun b => if sevens.Mem b then some (sevens.new b) else none

/-- The commit stops after its third write, which is that of the header; the first recovery stops
after one write. -/
theorem commit_atomic_sevens : ∃ lh s',
    (recoverFromLog 2 bootHeader).run (.boot ((recoverFromLog 2 bootHeader).crash 1
      (.boot ((commit 2 sevens.lh).crash 3 sevensDev)))) = .ok (lh, s') ∧
    count (s'.disk 2 countWord) = 0 ∧ ((∀ b, ¬ mkfsLog.Has b → s'.disk b = sevensDev.disk b) ∨
      ∀ b, ¬ mkfsLog.Has b → s'.disk b = sevens.result sevensDev.disk b) := by
  refine commit_atomic mkfsLog sevens sevensDev (by decide) (fun b hb => ?_) (fun b hb => ?_) 3
    (.more 1 (.refl _))
  · simp [Dev.view, sevensDev, hb]
  · have hm : ¬ sevens.Mem b := fun h => h.not_has hb
    simp [Dev.view, sevensDev, hm]

end Xv6.Log
