import Mathlib.Order.Interval.Finset.Nat
import Xv6.Fs.File
import Xv6.Lib.Run

/-!
# Fs — Budget

How many blocks a section of `filewrite` logs.  `filewrite` cuts a write into pieces of at most
`max` bytes and makes each piece a transaction of its own; `begin_op` admits it for `MAXOPBLOCKS`
blocks.

* `logged_loop`: what the loop of `writei` passes to `log_write`.
* `section_logs`: the distinct blocks that a section logs are the blocks that the piece touches, the
  bitmap block if one of them is new, the indirect block if a new one is behind it, and the inode
  block if the file grows.
* `section_budget_iff`: so a section keeps within `MAXOPBLOCKS` iff their number does.
-/

namespace Xv6

open Lib List Nat

namespace Disk

variable {sb : Super} {d d' : Disk} {ip ip' : Dinode} {inum i bn a b off n : Nat} {p q : BlockPtr}

/-! ### What is logged -/

/-- On a disk whose bitmap is one block. -/
theorem bblock_eq (hsb : sb.size ≤ BPB) (hb : b < sb.size) : sb.bblock b = sb.bmapstart := by
  unfold Super.bblock
  rw [div_eq_of_lt (lt_of_lt_of_le hb hsb), zero_add]

theorem mem_takeLog {ind x : Nat} : x ∈ takeLog sb ind p b ↔
    x = b ∨ x = sb.bblock b ∨ (∃ j, p = .entry j) ∧ x = ind := by
  cases p with
  | direct | indirect =>
    refine mem_pair.trans (or_congr_right ⟨.inl, fun h => h.resolve_right ?_⟩)
    rintro ⟨⟨_, he⟩, -⟩
    cases he
  | entry j =>
    refine (mem_cons.trans (or_congr_right mem_pair)).trans ?_
    constructor
    · rintro (h | h | h)
      · exact .inr (.inr ⟨⟨j, rfl⟩, h⟩)
      · exact .inl h
      · exact .inr (.inl h)
    · rintro (h | h | ⟨-, h⟩)
      · exact .inr (.inl h)
      · exact .inr (.inr h)
      · exact .inl h

/-- What is logged when pointers get blocks. -/
theorem Grows.logged {ps : List BlockPtr} (h : Grows sb inum ps d d') (hsb : sb.size ≤ BPB)
    (ho : d.Owned sb) (hi : d.Alloc sb inum) (x : Nat) :
    x ∈ d'.logged ↔ x ∈ d.logged ∨ (∃ p ∈ ps, d'.ptr inum p = x) ∨
      (ps ≠ [] ∧ x = sb.bmapstart) ∨ (∃ j, .entry j ∈ ps) ∧ x = d'.ptr inum .indirect := by
  induction h with
  | refl => simp
  | @more p b ps d d₁ d' h r ih =>
    have ho₁ := h.owned ho hi
    have hi₁ := h.alloc.mpr hi
    have hb₀ : b ≠ 0 := (ho.free h.lt h.free).1
    have hp : d'.ptr inum p = b := by
      rw [r.ptr hi₁ (by rw [h.self]; exact hb₀), h.self]
    -- an entry is given a block only behind an indirect block
    have hind : (∃ j, p = .entry j) → d'.ptr inum .indirect = d₁.ptr inum .indirect := by
      rintro ⟨j, rfl⟩
      refine r.ptr hi₁ fun e => ?_
      have h₀ : d₁.ptr inum (.entry j) = 0 := if_pos e
      rw [h.self] at h₀
      exact hb₀ h₀
    have hlog : x ∈ d₁.logged ↔ x ∈ d.logged ∨ x = b ∨ x = sb.bmapstart ∨
        (∃ j, p = .entry j) ∧ x = d'.ptr inum .indirect := by
      rw [h.logged, mem_append, mem_takeLog, bblock_eq hsb h.lt, or_comm]
      refine or_congr_right (or_congr_right (or_congr_right (and_congr_right fun hj => ?_)))
      rw [hind hj]
    rw [ih ho₁ hi₁, hlog]
    simp only [mem_cons, exists_eq_or_imp, hp, ne_eq, reduceCtorEq, not_false_eq_true, true_and]
    constructor
    · rintro ((hx | hx | hx | ⟨⟨j, hj⟩, hx⟩) | ⟨q, hq, hx⟩ | ⟨-, hx⟩ | ⟨⟨j, hj⟩, hx⟩)
      · exact .inl hx
      · exact .inr (.inl (.inl hx.symm))
      · exact .inr (.inr (.inl hx))
      · exact .inr (.inr (.inr ⟨⟨j, .inl hj.symm⟩, hx⟩))
      · exact .inr (.inl (.inr ⟨q, hq, hx⟩))
      · exact .inr (.inr (.inl hx))
      · exact .inr (.inr (.inr ⟨⟨j, .inr hj⟩, hx⟩))
    · rintro (hx | (hx | ⟨q, hq, hx⟩) | hx | ⟨⟨j, hj | hj⟩, hx⟩)
      · exact .inl (.inl hx)
      · exact .inl (.inr (.inl hx.symm))
      · exact .inr (.inl ⟨q, hq, hx⟩)
      · exact .inl (.inr (.inr (.inl hx)))
      · exact .inl (.inr (.inr (.inr ⟨⟨j, hj.symm⟩, hx⟩)))
      · exact .inr (.inr (.inr ⟨⟨j, hj⟩, hx⟩))

theorem exists_entry_iff (hp : ptrOf bn = some p) : (∃ j, p = .entry j) ↔ NDIRECT ≤ bn := by
  cases p with
  | indirect => exact absurd rfl (ptrOf_ne_indirect hp)
  | direct k =>
    refine ⟨?_, fun h => absurd h (ptrOf_direct hp)⟩
    rintro ⟨_, he⟩
    cases he
  | entry j => exact ⟨fun _ => ptrOf_entry hp, fun _ => ⟨j, rfl⟩⟩

theorem self_mem_missing (hp : ptrOf bn = some p) :
    p ∈ d.missing inum p ↔ d.absent inum bn = true := by
  have habs : d.absent inum bn = true ↔ d.ptr inum p = 0 := by
    unfold absent
    rw [hp, Option.any_some, decide_eq_true_eq]
  rw [habs]
  cases p with
  | indirect => exact absurd rfl (ptrOf_ne_indirect hp)
  | direct k => by_cases h : d.ptr inum (.direct k) = 0 <;> simp [missing, h]
  | entry j =>
    by_cases hi : d.ptr inum .indirect = 0
    · have h₀ : d.ptr inum (.entry j) = 0 := if_pos hi
      simp [missing, hi, h₀]
    · by_cases h : d.ptr inum (.entry j) = 0 <;> simp [missing, hi, h]

/-- What `bmap` logs: nothing, or the new block, the bitmap, and the indirect block. -/
theorem logged_bmap (hsb : sb.size ≤ BPB) (ho : d.Owned sb) (hi : d.Alloc sb inum)
    (hp : ptrOf bn = some p) (hg : Grows sb inum (d.missing inum p) d d') (x : Nat) :
    x ∈ d'.logged ↔ x ∈ d.logged ∨ d.absent inum bn = true ∧
      (x = d'.ptr inum p ∨ x = sb.bmapstart ∨ NDIRECT ≤ bn ∧ x = d'.ptr inum .indirect) := by
  have hentry : (∃ j, .entry j ∈ d.missing inum p) ↔ NDIRECT ≤ bn ∧ d.absent inum bn = true := by
    rw [← exists_entry_iff hp, ← self_mem_missing hp]
    constructor
    · rintro ⟨j, hj⟩
      rcases of_mem_missing hp hj with ⟨he, -⟩ | rfl
      · cases he
      · exact ⟨⟨j, rfl⟩, hj⟩
    · rintro ⟨⟨j, rfl⟩, hj⟩
      exact ⟨j, hj⟩
  have hnil : d.missing inum p ≠ [] ↔ d.absent inum bn = true := by
    rw [← self_mem_missing hp]
    refine ⟨fun h => ?_, fun h => ne_nil_of_mem h⟩
    by_contra hno
    refine h (missing_of_ne_zero fun e => hno ((self_mem_missing hp).mpr ?_))
    unfold absent
    rw [hp, Option.any_some, decide_eq_true_eq]
    exact e
  have hptr : (∃ q ∈ d.missing inum p, d'.ptr inum q = x) →
      d.absent inum bn = true ∧ (x = d'.ptr inum p ∨ NDIRECT ≤ bn ∧ x = d'.ptr inum .indirect) := by
    rintro ⟨q, hq, rfl⟩
    refine ⟨hnil.mp (ne_nil_of_mem hq), ?_⟩
    rcases of_mem_missing hp hq with ⟨rfl, hbn⟩ | rfl
    · exact .inr ⟨hbn, rfl⟩
    · exact .inl rfl
  rw [hg.logged hsb ho hi]
  refine or_congr_right ⟨?_, ?_⟩
  · rintro (hx | ⟨hne, hx⟩ | ⟨hj, hx⟩)
    · obtain ⟨ha, hx | hx⟩ := hptr hx
      · exact ⟨ha, .inl hx⟩
      · exact ⟨ha, .inr (.inr hx)⟩
    · exact ⟨hnil.mp hne, .inr (.inl hx)⟩
    · obtain ⟨hbn, ha⟩ := hentry.mp hj
      exact ⟨ha, .inr (.inr ⟨hbn, hx⟩)⟩
  · rintro ⟨ha, rfl | hx | ⟨hbn, hx⟩⟩
    · exact .inl ⟨p, (self_mem_missing hp).mpr ha, rfl⟩
    · exact .inr (.inl ⟨hnil.mpr ha, hx⟩)
    · exact .inr (.inr ⟨hentry.mpr ⟨hbn, ha⟩, hx⟩)

/-- The blocks that a write through the blocks `bns` of the file logs, from `d` to `d'`. -/
def Logs (sb : Super) (inum : Nat) (bns : List Nat) (d d' : Disk) (x : Nat) : Prop :=
  (∃ bn ∈ bns, ∃ p, ptrOf bn = some p ∧ d'.ptr inum p = x) ∨
  (∃ bn ∈ bns, d.absent inum bn = true) ∧ x = sb.bmapstart ∨
  (∃ bn ∈ bns, NDIRECT ≤ bn ∧ d.absent inum bn = true) ∧ x = d'.ptr inum .indirect

/-- **What the loop of `writei` logs**, and which blocks are there after it. -/
theorem logged_loop {fuel : Nat} {src : List UInt8} (hsb : sb.size ≤ BPB) (hi : inum < sb.ninodes)
    (hf : src.length ≤ fuel) (ho : (d.put inum ip).Owned sb) (ht : ip.type ≠ .free)
    (h : d.writeLoop sb fuel ip off src = .ok (ip', d')) : (∀ x, x ∈ d'.logged ↔ x ∈ d.logged ∨
      Logs sb inum (touched off src.length) (d.put inum ip) (d'.put inum ip') x) ∧
    ∀ bn, (d'.put inum ip').absent inum bn =
      ((d.put inum ip).absent inum bn && decide (bn ∉ touched off src.length)) := by
  refine writeLoop_induction hi (fun _ => by simp [Logs]) ?_ hf ho ht h
  intro fuel d ip off src a ip₁ d₁ m d₂ hpos ho ht hb hlen ht₁ h ⟨hlog₂, habs₂⟩
  have hmem := put_alloc_self (d := d) hi ht
  obtain ⟨p, hp, hpi, hg, ha, ha₀, -⟩ := bmap_spec ho hi ht hb
  have hmem₁ := hg.alloc.mpr hmem
  have ho₁ := hg.owned ho hmem
  have hpass := wrote_pass src ho hi ht hb
  have hlog₁ := logged_bmap hsb ho hmem hp hg
  have habs₁ := hg.absent hmem hp (by rw [ha]; exact ha₀)
  have hnot := notMem_touched_next off src.length
  rw [touched_cons (ne_of_gt hpos)]
  obtain ⟨hw, -⟩ := writeLoop_wrote hi hlen hpass.owned ht₁ h
  rw [length_drop] at hlog₂ habs₂
  set rest := touched (off + m) (src.length - m)
  -- the write to the block changes no pointer
  have hptr : ∀ q, (d₂.put inum ip₁).ptr inum q = (d₁.put inum ip₁).ptr inum q :=
    write_ptr ho₁ hmem₁ hpi ha ha₀ hmem₁
  have habs : ∀ bn, (d₂.put inum ip₁).absent inum bn =
      ((d.put inum ip).absent inum bn && decide (bn ≠ off / BSIZE)) := by
    intro bn
    rw [← habs₁]
    unfold absent
    simp only [hptr]
  have hrest : ∀ bn ∈ rest, (d₂.put inum ip₁).absent inum bn =
      (d.put inum ip).absent inum bn := by
    intro bn hbn
    have hne : bn ≠ off / BSIZE := fun e => hnot (e ▸ hbn)
    rw [habs, decide_eq_true hne, Bool.and_true]
  have hkeep : ∀ q, (d₁.put inum ip₁).ptr inum q ≠ 0 →
      (d'.put inum ip').ptr inum q = (d₁.put inum ip₁).ptr inum q := by
    intro q hq
    rw [hw.ptr inum q (put_alloc_self hi ht₁) (by rw [hptr]; exact hq), hptr]
  have hself : (d'.put inum ip').ptr inum p = a := by
    rw [hkeep p (by rw [ha]; exact ha₀), ha]
  have hind : NDIRECT ≤ off / BSIZE → (d'.put inum ip').ptr inum .indirect =
      (d₁.put inum ip₁).ptr inum .indirect := by
    intro hbn
    obtain ⟨j, rfl⟩ := (exists_entry_iff hp).mpr hbn
    refine hkeep .indirect fun e => ha₀ ?_
    rw [← ha]
    exact if_pos e
  refine ⟨fun x => ?_, fun bn => ?_⟩
  · have hfirst : x ∈ d₂.logged ↔ x = a ∨ x ∈ d₁.logged := mem_cons
    have hlog₁ : x ∈ d₁.logged ↔ x ∈ d.logged ∨ _ := hlog₁ x
    rw [hlog₂, hfirst, hlog₁]
    unfold Logs
    simp only [mem_cons, exists_eq_or_imp, hp, Option.some.injEq, exists_eq_left', hself, ha]
    have h₁ : (∃ bn ∈ rest, (d₂.put inum ip₁).absent inum bn = true) ↔
        ∃ bn ∈ rest, (d.put inum ip).absent inum bn = true :=
      exists_congr fun bn => and_congr_right fun hbn => by rw [hrest bn hbn]
    have h₂ : (∃ bn ∈ rest, NDIRECT ≤ bn ∧
        (d₂.put inum ip₁).absent inum bn = true) ↔
        ∃ bn ∈ rest, NDIRECT ≤ bn ∧ (d.put inum ip).absent inum bn = true :=
      exists_congr fun bn => and_congr_right fun hbn => by rw [hrest bn hbn]
    rw [h₁, h₂]
    constructor
    · rintro ((hx | hx | ⟨hab, hx | hx | ⟨hbn, hx⟩⟩) | hx | ⟨hr, hx⟩ | ⟨hr, hx⟩)
      · exact .inr (.inl (.inl hx.symm))
      · exact .inl hx
      · exact .inr (.inl (.inl hx.symm))
      · exact .inr (.inr (.inl ⟨.inl hab, hx⟩))
      · exact .inr (.inr (.inr ⟨.inl ⟨hbn, hab⟩, hx.trans (hind hbn).symm⟩))
      · exact .inr (.inl (.inr hx))
      · exact .inr (.inr (.inl ⟨.inr hr, hx⟩))
      · exact .inr (.inr (.inr ⟨.inr hr, hx⟩))
    · rintro (hx | (hx | hx) | ⟨hab | hr, hx⟩ | ⟨⟨hbn, hab⟩ | hr, hx⟩)
      · exact .inl (.inr (.inl hx))
      · exact .inl (.inl hx.symm)
      · exact .inr (.inl hx)
      · exact .inl (.inr (.inr ⟨hab, .inr (.inl hx)⟩))
      · exact .inr (.inr (.inl ⟨hr, hx⟩))
      · exact .inl (.inr (.inr ⟨hab, .inr (.inr ⟨hbn, hx.trans (hind hbn)⟩)⟩))
      · exact .inr (.inr (.inr ⟨hr, hx⟩))
  · rw [habs₂, habs]
    by_cases e : bn = off / BSIZE
    · simp [e]
    · simp [e]

/-! ### The distinct blocks of a section -/

/-- The number of blocks that a write of `n` bytes at `off` logs: those that it touches, the bitmap
block for a new one, the indirect block for a new one behind it, and the inode block if the file
grows.  `new` says which blocks are not there yet and `size` is the size of the file. -/
def blocksLogged (new : Nat → Bool) (size off n : Nat) : Nat :=
  (touched off n).length + (if (touched off n).any new then 1 else 0) +
    (if (touched off n).any fun bn => decide (NDIRECT ≤ bn) && new bn then 1 else 0) +
    if off + n > size then 1 else 0

/-- The list of these blocks. -/
def logList (sb : Super) (inum : Nat) (new : Nat → Bool) (size off n : Nat) (d : Disk) : List Nat :=
  (touched off n).map (fun bn => (ptrOf bn).elim 0 (d.ptr inum)) ++
    (if (touched off n).any new then [sb.bmapstart] else []) ++
    (if (touched off n).any fun bn => decide (NDIRECT ≤ bn) && new bn
      then [d.ptr inum .indirect] else []) ++
    if off + n > size then [sb.iblock inum] else []

theorem length_logList (sb : Super) (inum : Nat) (new : Nat → Bool) (size off n : Nat) (d : Disk) :
    (logList sb inum new size off n d).length = blocksLogged new size off n := by
  unfold logList blocksLogged
  simp only [length_append, length_map]
  congr 1
  · congr 1
    · congr 1
      split <;> rfl
    · split <;> rfl
  · split <;> rfl

theorem touched_nodup (off n : Nat) : (touched off n).Nodup := by
  unfold touched
  split
  · exact nodup_nil
  · exact nodup_range'

/-- A block that is touched has a byte that is written. -/
theorem exists_byte (h : bn ∈ touched off n) : ∃ k, off ≤ k ∧ k < off + n ∧ k / BSIZE = bn := by
  obtain ⟨hn, hlo, hhi⟩ := mem_touched.mp h
  have hB : 0 < BSIZE := by decide
  have hle : bn * BSIZE ≤ off + n - 1 := (le_div_iff_mul_le hB).mp hhi
  refine ⟨max off (bn * BSIZE), le_max_left _ _, by omega, ?_⟩
  refine Nat.div_eq_of_lt_le (Nat.le_max_right _ _) (Nat.max_lt.mpr ⟨?_, ?_⟩)
  · exact (Nat.div_lt_iff_lt_mul hB).mp (Nat.lt_succ_of_le hlo)
  · rw [succ_mul]
    omega

/-- They are distinct: data blocks of the file, its indirect block, and two metadata blocks. -/
theorem logList_nodup (new : Nat → Bool) (size : Nat) (ho : d.Owned sb) (hi : d.Alloc sb inum)
    (hfull : ∀ bn ∈ touched off n, ∃ p, ptrOf bn = some p ∧ d.ptr inum p ≠ 0) :
    (logList sb inum new size off n d).Nodup := by
  have hbm : sb.bmapstart < sb.nmeta := by
    have := sb.bitmap_blocks 0 (lt_of_le_of_lt (zero_le _) sb.nblocks_lt)
    rw [Nat.zero_div, Nat.zero_add] at this
    exact this
  have hib : sb.iblock inum < sb.bmapstart := sb.inode_blocks inum hi.1
  have hdata : ∀ x ∈ (touched off n).map (fun bn => (ptrOf bn).elim 0 (d.ptr inum)),
      ∃ p, p ≠ .indirect ∧ d.ptr inum p = x ∧ x ≠ 0 := by
    intro x hx
    obtain ⟨bn, hbn, rfl⟩ := mem_map.mp hx
    obtain ⟨p, hp, hp₀⟩ := hfull bn hbn
    rw [hp]
    exact ⟨p, ptrOf_ne_indirect hp, rfl, hp₀⟩
  have hrange : ∀ x ∈ (touched off n).map (fun bn => (ptrOf bn).elim 0 (d.ptr inum)),
      sb.nmeta ≤ x := by
    intro x hx
    obtain ⟨p, -, rfl, hp₀⟩ := hdata x hx
    exact (ho.range hi hp₀).1
  have hmap : ((touched off n).map (fun bn => (ptrOf bn).elim 0 (d.ptr inum))).Nodup := by
    refine List.Nodup.map_on (fun m hm m' hm' he => ?_) (touched_nodup off n)
    obtain ⟨p, hp, hp₀⟩ := hfull m hm
    obtain ⟨p', hp', -⟩ := hfull m' hm'
    rw [hp, hp'] at he
    obtain ⟨-, rfl⟩ := ho.ptr_inj hi hi hp₀ he
    exact ptrOf_inj hp hp'
  -- the indirect block is there if a block behind it is
  have hind : (touched off n).any (fun bn => decide (NDIRECT ≤ bn) && new bn) = true →
      sb.nmeta ≤ d.ptr inum .indirect ∧ d.ptr inum .indirect ∉
          (touched off n).map (fun bn => (ptrOf bn).elim 0 (d.ptr inum)) := by
    intro hany
    obtain ⟨bn, hbn, hb⟩ := any_eq_true.mp hany
    obtain ⟨p, hp, hp₀⟩ := hfull bn hbn
    have hb : NDIRECT ≤ bn ∧ new bn = true := by simpa using hb
    obtain ⟨j, rfl⟩ := (exists_entry_iff hp).mpr hb.1
    have h₀ : d.ptr inum .indirect ≠ 0 := fun e => hp₀ (if_pos e)
    refine ⟨(ho.range hi h₀).1, fun hin => ?_⟩
    obtain ⟨q, hq, he, hq₀⟩ := hdata _ hin
    exact hq (ho.ptr_inj hi hi (by rw [he]; exact hq₀) he).2
  refine List.Nodup.append (List.Nodup.append (List.Nodup.append hmap ?_ ?_) ?_ ?_) ?_ ?_
  · split <;> simp
  · intro x hx hx'
    split at hx'
    · have := hrange x hx
      rw [mem_singleton.mp hx'] at this
      omega
    · cases hx'
  · split <;> simp
  · intro x hx hx'
    split at hx'
    · next hany =>
      rw [mem_singleton.mp hx'] at hx
      obtain ⟨hge, hno⟩ := hind hany
      rcases mem_append.mp hx with hx | hx
      · exact hno hx
      split at hx
      · have := mem_singleton.mp hx
        omega
      · cases hx
    · cases hx'
  · split <;> simp
  · intro x hx hx'
    split at hx'
    · rw [mem_singleton.mp hx'] at hx
      rcases mem_append.mp hx with hx | hx
      · rcases mem_append.mp hx with hx | hx
        · have := hrange _ hx
          omega
        · split at hx
          · have := mem_singleton.mp hx
            omega
          · cases hx
      · split at hx
        · next hany =>
          have := (hind hany).1
          have := mem_singleton.mp hx
          omega
        · cases hx
    · cases hx'

/-- **What `writei` logs** of a piece that does not wrap. -/
theorem writei_logged {devsw : Devsw} {src : List UInt8} {r : Int} {v : Dinode}
    (hsb : sb.size ≤ BPB) (hc : Consistent sb d) (hi : d.Alloc sb inum)
    (ht : (d.dinode inum).type ≠ .dev) (hoff : off ≤ (d.dinode inum).size)
    (hsrc : off + src.length ≤ MAXFILE * BSIZE) (hlog : d.logged = [])
    (h : d.writei sb devsw inum (d.dinode inum) off src = .ok (r, v, d')) :
    r = src.length ∧ v = d'.dinode inum ∧ Written sb inum off src d d' ∧
    (∀ bn, d'.absent inum bn = (d.absent inum bn && decide (bn ∉ touched off src.length))) ∧
    d'.logged.toFinset.card = blocksLogged (d.absent inum) (d.dinode inum).size off src.length := by
  have hU : off + src.length < UINT := by
    simp only [MAXFILE, NDIRECT, NINDIRECT, BWORDS, BSIZE, UINT] at *
    omega
  unfold writei at h
  rw [if_neg ht, if_neg (by rw [mod_eq_of_lt hU]; omega), if_neg (by omega)] at h
  obtain ⟨⟨ip', d₁⟩, hl, h⟩ := of_bind h
  have ho : (d.put inum (d.dinode inum)).Owned sb := by rw [put_dinode]; exact hc.owned
  obtain ⟨hw, -⟩ := writeLoop_wrote hi.1 (le_refl _) ho hi.2 hl
  obtain ⟨hlogs, habs⟩ := logged_loop hsb hi.1 (le_refl _) ho hi.2 hl
  obtain ⟨hwritten, hip⟩ := written_of_loop hc hi hoff hl
  rw [put_dinode] at hw hlogs habs
  have hsize : ip'.size = (d.dinode inum).size := by
    have := congrArg Dinode.size hw.fields
    rw [put_self] at this
    exact this
  have hfull : ∀ bn ∈ touched off src.length,
      ∃ p, ptrOf bn = some p ∧ (d₁.put inum ip').ptr inum p ≠ 0 := by
    intro bn hbn
    obtain ⟨k, hlo, hhi, rfl⟩ := exists_byte hbn
    exact hw.full k hlo hhi
  have hnodup := logList_nodup (d.absent inum) (d.dinode inum).size hw.owned (hw.alloc.mpr hi) hfull
  -- the blocks that the loop logs
  have hmem : ∀ x, x ∈ d₁.logged ↔ x ∈ (touched off src.length).map
        (fun bn => (ptrOf bn).elim 0 ((d₁.put inum ip').ptr inum)) ∨
      x ∈ (if (touched off src.length).any (d.absent inum) then [sb.bmapstart] else []) ∨
      x ∈ if (touched off src.length).any (fun bn => decide (NDIRECT ≤ bn) && d.absent inum bn)
        then [(d₁.put inum ip').ptr inum .indirect] else [] := by
    intro x
    rw [hlogs, hlog]
    simp only [not_mem_nil, false_or, mem_map, any_eq_true, Bool.and_eq_true, decide_eq_true_eq]
    refine or_congr ?_ (or_congr ?_ ?_)
    · refine exists_congr fun bn => and_congr_right fun hbn => ?_
      obtain ⟨p, hp, -⟩ := hfull bn hbn
      simp [hp]
    · split
      · next hany => simp [hany]
      · next hany => simp [hany]
    · split
      · next hany => simp [hany]
      · next hany => simp [hany]
  have hcard : ∀ e : Disk, (∀ x, x ∈ e.logged ↔ x ∈ logList sb inum (d.absent inum)
      (d.dinode inum).size off src.length (d₁.put inum ip')) → e.logged.toFinset.card =
        blocksLogged (d.absent inum) (d.dinode inum).size off src.length := by
    intro e he
    rw [← length_logList sb inum _ _ _ _ (d₁.put inum ip'), ← toFinset_card_of_nodup hnodup]
    congr 1
    ext x
    rw [mem_toFinset, mem_toFinset, he]
  have hsame : ∀ e : Disk, (e.dinode inum).addrs = ip'.addrs → e.data = d₁.data →
      ∀ q, e.ptr inum q = (d₁.put inum ip').ptr inum q := by
    intro e haddrs hdata q
    cases q with
    | direct | indirect => simp only [ptr, put_self, haddrs]
    | entry j => simp only [ptr, put_self, haddrs, hdata]; rfl
  have habs' : ∀ e : Disk, (∀ q, e.ptr inum q = (d₁.put inum ip').ptr inum q) →
      ∀ bn, e.absent inum bn = (d.absent inum bn && decide (bn ∉ touched off src.length)) := by
    intro e he bn
    rw [← habs]
    unfold absent
    simp only [he]
  dsimp only at h
  split at h
  · next hgrow =>
    cases h
    rw [if_pos hgrow] at hwritten
    refine ⟨rfl, by rw [iupdate_self], hwritten,
      habs' _ (hsame _ (by rw [iupdate_self]) rfl), hcard _ fun x => ?_⟩
    have hx : x ∈ (d₁.iupdate sb inum { ip' with size := off + src.length }).logged ↔
      x = sb.iblock inum ∨ x ∈ d₁.logged := mem_cons
    unfold logList
    rw [hx, hmem, if_pos (show off + src.length > (d.dinode inum).size by omega),
      mem_append, mem_append, mem_append, mem_singleton]
    tauto
  · next hgrow =>
    cases h
    rw [if_neg hgrow] at hwritten
    rw [if_neg hgrow, if_neg hgrow] at hip
    refine ⟨rfl, hip, hwritten, habs' _ (hsame _ (by rw [← hip]) rfl), hcard _ fun x => ?_⟩
    unfold logList
    rw [hmem]
    by_cases hsz : off + src.length > (d.dinode inum).size
    · -- nothing is written, so nothing is logged
      have h₀ : src.length = 0 := by omega
      omega
    · rw [if_neg hsz, append_nil, mem_append, mem_append]
      tauto

end Disk

/-! ### `filewrite` -/

/-- The file that `filewrite` writes to, with `f->off` and the `i` bytes done. -/
structure Writing where
  disk : Disk
  ip : Dinode
  off : Nat
  i : Nat

namespace Writing

open Disk

/-- `max`. -/
def chunkMax : Nat := ((LOGSIZE - 1 - 1 - 2) / 2) * 512

variable (sb : Super) (devsw : Devsw) (inum : Nat) (src : List UInt8)

/-- The `n1` bytes of the next piece. -/
def piece (i : Nat) : List UInt8 := (src.drop i).take chunkMax

/-- From `begin_op` to `end_op`; `logged` are the blocks of this transaction. -/
def pass (w : Writing) : Res (Int × Writing) := do
  let (r, ip, d) ← { w.disk with logged := [] }.writei sb devsw inum w.ip w.off (piece src w.i)
  return (r, { w with disk := d, ip := ip, off := if r > 0 then w.off + r.toNat else w.off })

/-- One pass of the loop; `none` when the loop is left. -/
def next (w : Writing) : Res (Option Writing) := do
  if w.i < src.length then
    let (r, w₁) ← w.pass sb devsw inum src
    if r < 0 then return none
    if r ≠ (piece src w.i).length then throw (.panic "short filewrite")
    return some { w₁ with i := w.i + r.toNat }
  return none

/-- A pass after which the loop goes on. -/
def Next (w : Writing) (_ : Unit) (w' : Writing) : Prop := w.next sb devsw inum src = .ok (some w')

end Writing

/-- The number of blocks that section `k` of `filewrite` logs, for `n` bytes at `off` of inode
`inum` on the disk `d` before the call. -/
def sectionBlocks (d : Disk) (inum off n k : Nat) : Nat :=
  let i := k * Writing.chunkMax
  Disk.blocksLogged (fun bn => d.absent inum bn && decide (bn ∉ touched off i))
    (max (d.dinode inum).size (off + i)) (off + i) (min Writing.chunkMax (n - i))

namespace Writing

open Disk

variable {sb : Super} {devsw : Devsw} {inum off k : Nat} {src : List UInt8} {d : Disk}
  {w w' : Writing} {t : List (Writing × Unit)} {r : Int}

/-- After `k` passes for `n` bytes at `off` on the disk `d`. -/
structure Mid (sb : Super) (inum off n : Nat) (d : Disk) (k : Nat) (w : Writing) : Prop where
  consistent : w.disk.Consistent sb
  copy : w.ip = w.disk.dinode inum
  type : (w.disk.dinode inum).type = (d.dinode inum).type
  done : w.i = min n (k * chunkMax)
  pos : w.off = off + w.i
  size : (w.disk.dinode inum).size = max (d.dinode inum).size w.off
  absent : ∀ bn, w.disk.absent inum bn = (d.absent inum bn && decide (bn ∉ touched off w.i))

theorem consistent_logged {l : List Nat} (h : d.Consistent sb) :
    Consistent sb { d with logged := l } := ⟨h.owned, h.full⟩

theorem length_piece (src : List UInt8) (i : Nat) :
    (piece src i).length = min chunkMax (src.length - i) := by
  unfold piece
  rw [length_take, length_drop]

/-- Two writes in a row touch what one write of both touches. -/
theorem mem_touched_add {m n bn : Nat} :
    bn ∈ touched off (m + n) ↔ bn ∈ touched off m ∨ bn ∈ touched (off + m) n := by
  have hmono : ∀ {x y : Nat}, x ≤ y → x / BSIZE ≤ y / BSIZE := fun h => Nat.div_le_div_right h
  rw [mem_touched, mem_touched, mem_touched]
  by_cases hm : m = 0
  · subst hm; simp
  by_cases hn : n = 0
  · subst hn; simp
  have h₁ : (off + m - 1) / BSIZE ≤ (off + m) / BSIZE := hmono (by omega)
  have h₂ : (off + m) / BSIZE ≤ (off + m - 1) / BSIZE + 1 := by
    rw [← add_div_right _ (by decide)]
    exact hmono (by have : 0 < BSIZE := by decide
                    omega)
  have h₃ : (off + m) / BSIZE ≤ (off + m + n - 1) / BSIZE := hmono (by omega)
  have h₄ : off / BSIZE ≤ (off + m - 1) / BSIZE := hmono (by omega)
  have he : off + (m + n) - 1 = off + m + n - 1 := by omega
  rw [he]
  omega

/-- A piece of a file that fits into the blocks of an inode does not reach `MAXFILE` blocks. -/
theorem piece_lt {size i : Nat} (h : size ≤ (NDIRECT + NINDIRECT) * BSIZE) (hoff : off ≤ size) :
    off + (piece src i).length ≤ MAXFILE * BSIZE := by
  have hlen : (piece src i).length ≤ chunkMax := by
    rw [length_piece]
    exact min_le_left _ _
  have hfit : (NDIRECT + NINDIRECT) * BSIZE + chunkMax ≤ MAXFILE * BSIZE := by decide
  omega

section

variable (h : Mid sb inum off src.length d k w) (hsb : sb.size ≤ BPB) (hi : d.Alloc sb inum)
    (ht : (d.dinode inum).type ≠ .dev)

include h hsb hi ht

/-- **A section** of the loop: what it logs, and the state that the next one starts from. -/
theorem Mid.pass (hlt : w.i < src.length) (hp : w.pass sb devsw inum src = .ok (r, w')) :
    r = (piece src w.i).length ∧
      Mid sb inum off src.length d (k + 1) { w' with i := w.i + r.toNat } ∧
      w'.disk.logged.toFinset.card = sectionBlocks d inum off src.length k := by
  obtain ⟨⟨r', v, d'⟩, hw, hp⟩ := of_bind hp
  cases hp
  have hik : w.i = k * chunkMax := by
    have := h.done
    omega
  have htype : (({ w.disk with logged := [] } : Disk).dinode inum).type = (d.dinode inum).type :=
    h.type
  have halloc : ({ w.disk with logged := [] } : Disk).Alloc sb inum :=
    ⟨hi.1, by rw [htype]; exact hi.2⟩
  have hcons := consistent_logged (l := []) h.consistent
  have hoff : w.off ≤ (w.disk.dinode inum).size := by rw [h.size]; exact le_max_right _ _
  rw [h.copy] at hw
  obtain ⟨rfl, rfl, hwritten, habs, hcard⟩ := writei_logged hsb hcons halloc
    (by rw [htype]; exact ht) hoff (piece_lt (hcons.size_le halloc) hoff) rfl hw
  have hlen := length_piece src w.i
  have hpos : (((piece src w.i).length : Int)) > 0 := by
    have : 0 < chunkMax := by decide
    omega
  rw [if_pos hpos, Int.toNat_natCast]
  refine ⟨rfl, ⟨hwritten.consistent, rfl, ?_, ?_, ?_, ?_, fun bn => ?_⟩, ?_⟩
  · rw [hwritten.fields]
    exact htype
  · rw [hlen, hik, succ_mul]
    dsimp only
    omega
  · dsimp only
    rw [h.pos]
    omega
  · have hsize := congrArg Dinode.size hwritten.fields
    dsimp only at hsize ⊢
    rw [hsize, h.size]
    omega
  · rw [habs]
    have hb := h.absent bn
    have hold : ({ w.disk with logged := [] } : Disk).absent inum bn = w.disk.absent inum bn := rfl
    rw [hold, hb, Bool.and_assoc, ← Bool.decide_and]
    congr 1
    refine decide_eq_decide.mpr ?_
    rw [h.pos, ← not_or, not_iff_not]
    exact mem_touched_add.symm
  · rw [hcard]
    have hnew : ({ w.disk with logged := [] } : Disk).absent inum =
        fun bn => d.absent inum bn && decide (bn ∉ touched off (k * chunkMax)) := by
      funext bn
      rw [← hik]
      exact h.absent bn
    have hsize : (({ w.disk with logged := [] } : Disk).dinode inum).size =
        max (d.dinode inum).size (off + k * chunkMax) := by
      rw [← hik, ← h.pos]
      exact h.size
    rw [hnew, hsize, hlen, h.pos, hik]
    rfl

/-- One pass after which the loop goes on. -/
theorem Mid.next (hn : Next sb devsw inum src w () w') :
    Mid sb inum off src.length d (k + 1) w' := by
  unfold Next Writing.next at hn
  split at hn
  · next hlt =>
    obtain ⟨⟨r, w₁⟩, hp, hn⟩ := of_bind hn
    obtain ⟨rfl, hmid, -⟩ := h.pass hsb hi ht hlt hp
    dsimp only at hn
    rw [if_neg (by omega), if_neg (by simp)] at hn
    cases hn
    exact hmid
  · cases hn

end

theorem Mid.run (hsb : sb.size ≤ BPB) (hi : d.Alloc sb inum) (ht : (d.dinode inum).type ≠ .dev)
    (h : Mid sb inum off src.length d k w) (hr : Run (Next sb devsw inum src) w t w') :
    Mid sb inum off src.length d (k + t.length) w' := by
  induction hr generalizing k with
  | refl => exact h
  | more hn _ ih =>
    rw [length_cons, add_comm _ 1, ← add_assoc]
    exact ih (h.next hsb hi ht hn)

/-- `filewrite` before its loop. -/
def start (d : Disk) (inum off : Nat) : Writing := ⟨d, d.dinode inum, off, 0⟩

theorem mid_start (n : Nat) (hc : d.Consistent sb) (hoff : off ≤ (d.dinode inum).size) :
    Mid sb inum off n d 0 (start d inum off) := by
  refine ⟨hc, rfl, rfl, ?_, rfl, ?_, fun bn => ?_⟩
  · simp [start]
  · exact (max_eq_left hoff).symm
  · simp [start]

/-- **The budget of a section.**  `filewrite` of `src` at `off` to a file of a consistent file
system whose bitmap is one block: the section that it executes after `k` others keeps within
`MAXOPBLOCKS` distinct blocks iff `sectionBlocks` does. -/
theorem section_budget_iff (hsb : sb.size ≤ BPB) (hc : d.Consistent sb) (hi : d.Alloc sb inum)
    (ht : (d.dinode inum).type ≠ .dev) (hoff : off ≤ (d.dinode inum).size)
    (hr : Run (Next sb devsw inum src) (start d inum off) t w) (hlt : w.i < src.length)
    (hp : w.pass sb devsw inum src = .ok (r, w')) : w'.disk.logged.toFinset.card ≤ MAXOPBLOCKS ↔
      sectionBlocks d inum off src.length t.length ≤ MAXOPBLOCKS := by
  have h := (mid_start src.length hc hoff).run hsb hi ht hr
  rw [zero_add] at h
  rw [(h.pass hsb hi ht hlt hp).2.2]

theorem free_blank : 14 ≤ (blank mkfsSuper 2).free mkfsSuper := by
  have hsub : Finset.Ico 59 73 ⊆
      (Finset.range mkfsSuper.size).filter fun b => (blank mkfsSuper 2).bitmap b = false := by
    intro b hb
    obtain ⟨hlo, hhi⟩ := Finset.mem_Ico.mp hb
    refine Finset.mem_filter.mpr ⟨Finset.mem_range.mpr (lt_trans hhi (by decide)), ?_⟩
    exact decide_eq_false (not_lt.mpr hlo)
  calc 14 = (Finset.Ico 59 73).card := (card_Ico 59 73).symm
    _ ≤ _ := Finset.card_le_card hsub

theorem alloc_blank : (blank mkfsSuper 2).Alloc mkfsSuper 2 ∧
    ((blank mkfsSuper 2).dinode 2).type ≠ .dev := by
  have htype : ((blank mkfsSuper 2).dinode 2).type = .file := by simp [blank]
  exact ⟨⟨by decide, by rw [htype]; decide⟩, by rw [htype]; decide⟩

/-- The first section of a write to an empty file of the disk that `mkfs` makes. -/
theorem pass_blank (src : List UInt8) (n : Nat) (hn : (piece src 0).length = n)
    (hmax : n ≤ (NDIRECT + NINDIRECT) * BSIZE)
    (hneed : (blank mkfsSuper 2).need 2 (touched 0 n) ≤ 14) :
    ∃ r w', (start (blank mkfsSuper 2) 2 0).pass mkfsSuper ⟨fun _ => none, fun _ => none⟩ 2 src =
      .ok (r, w') := by
  obtain ⟨hi, ht⟩ := alloc_blank
  obtain ⟨d', hw, -⟩ := writei_ok ⟨fun _ => none, fun _ => none⟩ (blank_consistent mkfsSuper 2) hi ht
    (zero_le _) (by rw [hn, zero_add]; exact hmax) (by rw [hn]; exact le_trans hneed free_blank)
  exact ⟨_, _, Res.bind_eq_ok.mpr ⟨_, hw, rfl⟩⟩

/-- Three bytes to an empty file are one section with the block, its bit and the inode. -/
theorem section_budget_three : ∃ r w', (start (blank mkfsSuper 2) 2 0).pass mkfsSuper
      ⟨fun _ => none, fun _ => none⟩ 2 [1, 2, 3] = .ok (r, w') ∧
    w'.disk.logged.toFinset.card ≤ MAXOPBLOCKS := by
  obtain ⟨hi, ht⟩ := alloc_blank
  obtain ⟨r, w', hp⟩ := pass_blank [1, 2, 3] 3 (by decide) (by decide) (by decide)
  refine ⟨r, w', hp, ?_⟩
  rw [section_budget_iff (by decide) (blank_consistent mkfsSuper 2) hi ht (zero_le _)
    (.refl _) (by decide) hp]
  decide

/-- **A section that logs 16 blocks.**  6656 bytes written to an empty file are one section: 13
blocks of data, the bitmap block, the indirect block and the inode block. -/
theorem section_over_budget : ∃ r w', (start (blank mkfsSuper 2) 2 0).pass mkfsSuper
      ⟨fun _ => none, fun _ => none⟩ 2 (List.replicate 6656 7) = .ok (r, w') ∧
    w'.disk.logged.toFinset.card = 16 ∧ MAXOPBLOCKS < 16 := by
  obtain ⟨hi, ht⟩ := alloc_blank
  have hlen : (piece (replicate 6656 (7 : UInt8)) 0).length = 6656 := by
    rw [length_piece, length_replicate]
    decide
  obtain ⟨r, w', hp⟩ := pass_blank (replicate 6656 7) 6656 hlen (by decide) (by decide)
  have h₀ := mid_start (replicate 6656 (7 : UInt8)).length (blank_consistent mkfsSuper 2)
    (zero_le ((blank mkfsSuper 2).dinode 2).size)
  refine ⟨r, w', hp, ?_, by decide⟩
  rw [(h₀.pass (by decide) hi ht (by rw [length_replicate]; decide) hp).2.2, length_replicate]
  decide

end Writing

end Xv6
