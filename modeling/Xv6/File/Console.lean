import Xv6.Lib.Monitor
import Xv6.Lib.Ring
import Xv6.Kernel.Base
import Mathlib.Data.UInt

/-!
# File — Console

The input side of `console.c`: `consoleintr` and `consoleread` as code under `cons.lock`, point by
point, for any number of processes and interrupts `τ`.  A console other than the active one keeps its
ring in `inputs`; Ctrl-T saves the active ring and loads the next one.

Beside the rings the state records, for each console, what has happened there (`Line`): the
characters typed that can still be edited, those committed so far, and those stored to the readers.

* `console_rings`: every ring has `w - r ≤ e - r ≤ INPUT_BUF` in 32 bits, and on each console what
  the readers got followed by the unread part of the ring is what was committed there, but for the
  Ctrl-D marks that were consumed.
-/

namespace Xv6.Console

open Lib Function List

def INPUT_BUF : Nat := 128

instance : NeZero INPUT_BUF := ⟨Nat.succ_ne_zero 127⟩

/-- Control-x. -/
def C (x : Char) : UInt8 := UInt8.ofNat (x.toNat - '@'.toNat)

/-- Line feed. -/
def newline : UInt8 := 10

/-- Carriage return. -/
def carriageReturn : UInt8 := 13

/-- `struct input`. -/
structure Input where
  buf : Fin INPUT_BUF → UInt8
  r : UInt32
  w : UInt32
  e : UInt32

namespace Input

/-- `buf[e++ % INPUT_BUF] = c`. -/
def put (i : Input) (c : UInt8) : Input :=
  { i with buf := update i.buf (Ring.cell INPUT_BUF i.e.toNat) c, e := i.e + 1 }

/-- `buf[(e-1) % INPUT_BUF]`. -/
def last (i : Input) : UInt8 := i.buf (Ring.cell INPUT_BUF (i.e - 1).toNat)

/-- `e--`. -/
def erase (i : Input) : Input := { i with e := i.e - 1 }

/-- `w = e`. -/
def commit (i : Input) : Input := { i with w := i.e }

/-- `buf[r % INPUT_BUF]`. -/
def head (i : Input) : UInt8 := i.buf (Ring.cell INPUT_BUF i.r.toNat)

/-- `r++`. -/
def tail (i : Input) : Input := { i with r := i.r + 1 }

/-- `r--`. -/
def pushBack (i : Input) : Input := { i with r := i.r - 1 }

/-- The committed bytes that are unread: `r..w`. -/
def unread (i : Input) : List UInt8 := Ring.window i.buf i.r.toNat (i.w - i.r).toNat

/-- `w - r <= e - r <= INPUT_BUF`, in 32 bits. -/
def Bounded (i : Input) : Prop :=
  i.w - i.r ≤ i.e - i.r ∧ i.e - i.r ≤ UInt32.ofNat INPUT_BUF

end Input

/-- A console, or `active`. -/
abbrev Vc := Fin (MAX_NUM_CONTAINERS + 1)

/-- `input`, `inputs` and `active`. -/
structure Cons where
  input : Input
  inputs : Vc → Input
  active : Vc

namespace Cons

/-- Ctrl-T: the active ring is saved and the next one is loaded. -/
def switch (s : Cons) : Cons :=
  let inputs := update s.inputs s.active s.input
  let active : Vc :=
    ⟨(s.active.val + 1) % (MAX_NUM_CONTAINERS + 1), Nat.mod_lt _ (Nat.succ_pos _)⟩
  { input := inputs active, inputs := inputs, active := active }

/-- The ring of a console. -/
def ring (s : Cons) (k : Vc) : Input := if k = s.active then s.input else s.inputs k

end Cons

/-- What has happened on a console. -/
structure Line where
  /-- typed, and not committed yet -/
  pending : List UInt8
  committed : List UInt8
  /-- stored by `consoleread` -/
  delivered : List UInt8

structure World where
  cons : Cons
  line : Vc → Line

namespace World

/-- The static data of the kernel: zeros. -/
def boot : World :=
  let empty : Input := ⟨fun _ => 0, 0, 0, 0⟩
  ⟨⟨empty, fun _ => empty, ⟨0, Nat.succ_pos _⟩⟩, fun _ => ⟨[], [], []⟩⟩

/-- A change of the active ring, and of the record of the active console. -/
def edit (s : World) (f : Input → Input) (g : Line → Line) : World where
  cons := { s.cons with input := f s.cons.input }
  line := update s.line s.cons.active (g (s.line s.cons.active))

/-- A character is stored in the ring. -/
def type (s : World) (c : UInt8) : World :=
  s.edit (·.put c) fun l => { l with pending := l.pending ++ [c] }

/-- The last character is erased. -/
def erase (s : World) : World := s.edit (·.erase) fun l => { l with pending := l.pending.dropLast }

/-- The line is committed. -/
def commit (s : World) : World :=
  s.edit (·.commit) fun l => { l with pending := [], committed := l.committed ++ l.pending }

/-- A character is taken out of the ring. -/
def consume (s : World) : World := s.edit (·.tail) id

/-- It is put back. -/
def pushBack (s : World) : World := s.edit (·.pushBack) id

/-- `*dst++ = c`. -/
def deliver (s : World) (c : UInt8) : World :=
  s.edit id fun l => { l with delivered := l.delivered ++ [c] }

/-- Ctrl-T. -/
def switch (s : World) : World := { s with cons := s.cons.switch }

end World

/-- Where a process, or the interrupt handler, is. -/
inductive Point where
  | outside
  /-- `consoleintr`, before `acquire(&cons.lock)`; `cs` is what `getc` is going to return -/
  | intr (cs : List UInt8)
  /-- `while((c = getc()) >= 0)` -/
  | intrLoop (cs : List UInt8)
  /-- the loop of Ctrl-U -/
  | intrKill (cs : List UInt8)
  /-- `wakeup(&input.r)` -/
  | intrWake (cs : List UInt8)
  /-- `consoleread(ip, dst, n)`, before `acquire(&cons.lock)` -/
  | read (minor n : Int)
  /-- `while(n > 0)` -/
  | readLoop (minor target n : Int)
  /-- there is nothing to read: `if(myproc()->killed)` -/
  | readKilled (minor target n : Int)
  /-- `sleep(&input.r, &cons.lock)` -/
  | readSleep (minor target n : Int)
  /-- `release(&cons.lock)`, and then the return value of `consoleread` -/
  | leave (ret : Int)
  deriving DecidableEq

/-- `consoleintr` on one character. -/
def key (s : World) (c : UInt8) (cs : List UInt8) : World × Point :=
  if c = C 'P' then (s, .intrLoop cs)
  else if c = C 'T' then (s.switch, .intrLoop cs)
  else if c = C 'U' then (s, .intrKill cs)
  else if c = C 'H' ∨ c = 127 then
    (if s.cons.input.e ≠ s.cons.input.w then s.erase else s, .intrLoop cs)
  else if c ≠ 0 ∧ s.cons.input.e - s.cons.input.r < UInt32.ofNat INPUT_BUF then
    let c := if c = carriageReturn then newline else c
    let s := s.type c
    if c = newline ∨ c = C 'D' ∨ s.cons.input.e = s.cons.input.r + UInt32.ofNat INPUT_BUF then
      (s.commit, .intrWake cs)
    else (s, .intrLoop cs)
  else (s, .intrLoop cs)

/-- The kill-line loop, once around. -/
def killLine (s : World) (cs : List UInt8) : World × Point :=
  if s.cons.input.e ≠ s.cons.input.w ∧ s.cons.input.last ≠ newline then (s.erase, .intrKill cs)
  else (s, .intrLoop cs)

/-- The loop of `consoleread`, once around. -/
def take (s : World) (minor target n : Int) : World × Point :=
  if n > 0 then
    if s.cons.input.r = s.cons.input.w ∨ (s.cons.active.val : Int) ≠ minor - 1 then
      (s, .readKilled minor target n)
    else
      let c := s.cons.input.head
      let s := s.consume
      if c = C 'D' then (if n < target then s.pushBack else s, .leave (target - n))
      else
        (s.deliver c,
          if c = newline then .leave (target - (n - 1)) else .readLoop minor target (n - 1))
  else (s, .leave (target - n))

variable {τ : Type}

/-- `consoleintr` and `consoleread`; all sleep on `&input.r`. -/
def instr : Point → Monitor.Instr τ Point World Unit
  | .outside => .rest
  | .intr cs => .acquire (.intrLoop cs)
  | .intrLoop [] => .release .outside
  | .intrLoop (c :: cs) => .access fun _ _ s => key s c cs
  | .intrKill cs => .access fun _ _ s => killLine s cs
  | .intrWake cs => .wakeup () (.intrLoop cs)
  | .read minor n => .acquire (.readLoop minor n n)
  | .readLoop minor target n => .access fun _ _ s => take s minor target n
  | .readKilled minor target n => .access fun _ killed s =>
    (s, if killed then .leave (-1) else .readSleep minor target n)
  | .readSleep minor target n => .sleep () (.readLoop minor target n)
  | .leave _ => .release .outside

/-- The calls: an interrupt with any characters, and `consoleread` of any console. -/
def may (_ : World) (_ : τ → Point) (_ : τ) : Point → Prop
  | .intr _ | .read _ _ => True
  | _ => False

/-! ### One ring -/

/-- The ring holds the committed characters that have not been `taken`, and then the pending ones. -/
structure Rep (i : Input) (l : Line) (taken unread : List UInt8) : Prop where
  committed : l.committed = taken ++ unread
  delivered : l.delivered = taken.filter (· ≠ C 'D')
  w : i.w = i.r + UInt32.ofNat unread.length
  e : i.e = i.w + UInt32.ofNat l.pending.length
  room : unread.length + l.pending.length ≤ INPUT_BUF
  holds : Ring.window i.buf i.r.toNat (unread.length + l.pending.length) = unread ++ l.pending

theorem inputBuf_dvd : INPUT_BUF ∣ 2 ^ 32 := ⟨2 ^ 25, rfl⟩

namespace Rep

variable {i : Input} {l : Line} {taken unread : List UInt8}

/-- A small distance between two counters. -/
theorem toNat_sub {a b : UInt32} {n : Nat} (h : b = a + UInt32.ofNat n) (hn : n ≤ INPUT_BUF) :
    (b - a).toNat = n := by
  have hlt : n < 2 ^ 32 := by unfold INPUT_BUF at hn; omega
  rw [h, UInt32.add_comm, UInt32.add_sub_cancel, UInt32.toNat_ofNat']
  exact Nat.mod_eq_of_lt hlt

section

variable (h : Rep i l taken unread)

include h

theorem e_eq : i.e = i.r + UInt32.ofNat (unread.length + l.pending.length) := by
  rw [h.e, h.w, UInt32.ofNat_add, UInt32.add_assoc]

theorem sub_r : (i.e - i.r).toNat = unread.length + l.pending.length := toNat_sub h.e_eq h.room

theorem w_sub_r : (i.w - i.r).toNat = unread.length :=
  toNat_sub h.w (by have := h.room; omega)

theorem bounded : i.Bounded := by
  refine ⟨UInt32.le_iff_toNat_le.mpr ?_, UInt32.le_iff_toNat_le.mpr ?_⟩
  · rw [h.w_sub_r, h.sub_r]
    exact Nat.le_add_right _ _
  · rw [h.sub_r]
    exact h.room

theorem unread_eq : i.unread = unread := by
  have hw := h.holds
  rw [Ring.window_add] at hw
  unfold Input.unread
  rw [h.w_sub_r]
  exact (append_inj hw (Ring.length_window _ _ _)).1

/-- A character is typed, with room for it. -/
theorem put (hroom : i.e - i.r < UInt32.ofNat INPUT_BUF) (c : UInt8) :
    Rep (i.put c) { l with pending := l.pending ++ [c] } taken unread := by
  have hlt : unread.length + l.pending.length < INPUT_BUF := by
    rw [← h.sub_r]
    exact UInt32.lt_iff_toNat_lt.mp hroom
  have he : i.e.toNat = (i.r.toNat + (unread.length + l.pending.length)) % 2 ^ 32 := by
    rw [← h.sub_r, ← UInt32.toNat_add, UInt32.add_comm, UInt32.sub_add_cancel]
  have hlen : unread.length + (l.pending ++ [c]).length = unread.length + l.pending.length + 1 := by
    rw [length_append, ← Nat.add_assoc]; rfl
  refine ⟨h.committed, h.delivered, h.w, ?_, hlen ▸ hlt, ?_⟩
  · change i.e + 1 = i.w + _
    rw [length_append, UInt32.ofNat_add, ← UInt32.add_assoc, ← h.e]
    rfl
  · rw [hlen]
    simp only [Input.put]
    rw [he, Ring.cell_mod inputBuf_dvd, Ring.window_put hlt, h.holds, append_assoc]

/-- The last character is erased: it is a pending one. -/
theorem erase (hne : i.e ≠ i.w) :
    Rep i.erase { l with pending := l.pending.dropLast } taken unread := by
  obtain ⟨p, c, hp⟩ : ∃ p c, l.pending = p ++ [c] := by
    rcases eq_nil_or_concat l.pending with h0 | ⟨p, c, hp⟩
    · exact absurd (by rw [h.e, h0]; exact UInt32.add_zero _) hne
    · exact ⟨p, c, by rw [hp, concat_eq_append]⟩
  have hd : l.pending.dropLast = p := by rw [hp, dropLast_concat]
  have hlen : unread.length + l.pending.length = unread.length + p.length + 1 := by
    rw [hp, length_append, ← Nat.add_assoc]; rfl
  have hroom := h.room
  have hw := h.holds
  rw [hlen, Ring.window_succ, hp, ← append_assoc] at hw
  simp only [hd]
  refine ⟨h.committed, h.delivered, h.w, ?_, ?_, append_inj_left' hw rfl⟩
  · have he := h.e
    rw [hp, length_append, UInt32.ofNat_add, ← UInt32.add_assoc] at he
    change i.e - 1 = _
    rw [he]
    exact UInt32.add_sub_cancel _ _
  · change unread.length + p.length ≤ _
    omega

/-- The pending characters are committed. -/
theorem commit : Rep i.commit { l with pending := [], committed := l.committed ++ l.pending } taken
      (unread ++ l.pending) := by
  refine ⟨?_, h.delivered, ?_, ?_, ?_, ?_⟩
  · rw [h.committed, append_assoc]
  · rw [length_append]; exact h.e_eq
  · exact (UInt32.add_zero _).symm
  · rw [length_append]; exact h.room
  · rw [length_append, append_nil]; exact h.holds

/-- A character is taken: it is the next one that was committed, and is delivered unless it is a
Ctrl-D. -/
theorem tail (hne : i.r ≠ i.w) {l' : Line}
    (hp : l'.pending = l.pending) (hc : l'.committed = l.committed)
    (hd : l'.delivered = l.delivered ++ [i.head].filter (· ≠ C 'D')) :
    ∃ unread', Rep i.tail l' (taken ++ [i.head]) unread' := by
  cases hu : unread with
  | nil => exact absurd (by rw [h.w, hu]; exact (UInt32.add_zero _).symm) hne
  | cons c rest =>
    subst hu
    have hw := h.holds
    have hlen : (c :: rest).length + l.pending.length = rest.length + l.pending.length + 1 := by
      rw [length_cons]; omega
    have hroom := h.room
    rw [hlen] at hw
    obtain ⟨hcell, hrest⟩ := cons.inj hw
    have hhead : i.head = c := hcell
    have hr : i.tail.r.toNat = (i.r.toNat + 1) % 2 ^ 32 := UInt32.toNat_add _ _
    refine ⟨rest, ?_, ?_, ?_, ?_, ?_, ?_⟩
    · rw [hc, h.committed, hhead, append_assoc]; rfl
    · rw [hd, h.delivered, filter_append]
    · have := h.w
      rw [length_cons, Nat.add_comm, UInt32.ofNat_add, ← UInt32.add_assoc] at this
      exact this
    · rw [hp]; exact h.e
    · rw [hp]; omega
    · rw [hp, hr, Ring.window_mod inputBuf_dvd]
      exact hrest

end

end Rep

/-! ### All the consoles -/

/-- What the code keeps. -/
structure Inv (s : World) : Prop where
  lines : ∀ k, ∃ taken unread, Rep (s.cons.ring k) (s.line k) taken unread
  /-- the entry of the active console is an old copy -/
  saved : ∀ k, (s.cons.inputs k).Bounded

namespace Inv

variable {s : World}

/-- The active ring. -/
theorem active (h : Inv s) :
    ∃ taken unread, Rep s.cons.input (s.line s.cons.active) taken unread := by
  have hk := h.lines s.cons.active
  rwa [Cons.ring, if_pos rfl] at hk

/-- A change of the active ring and its record. -/
theorem edit (h : Inv s) {f : Input → Input} {g : Line → Line}
    (ha : ∃ taken unread, Rep (f s.cons.input) (g (s.line s.cons.active)) taken unread) :
    Inv (s.edit f g) := by
  refine ⟨fun k => ?_, h.saved⟩
  by_cases e : k = s.cons.active
  · subst e
    simpa [World.edit, Cons.ring] using ha
  · have hk := h.lines k
    simpa [World.edit, Cons.ring, e] using hk

theorem type (h : Inv s) (hroom : s.cons.input.e - s.cons.input.r < UInt32.ofNat INPUT_BUF)
    (c : UInt8) : Inv (s.type c) := by
  obtain ⟨taken, unread, hr⟩ := h.active
  exact h.edit ⟨taken, unread, hr.put hroom c⟩

theorem erase (h : Inv s) (hne : s.cons.input.e ≠ s.cons.input.w) : Inv s.erase := by
  obtain ⟨taken, unread, hr⟩ := h.active
  exact h.edit ⟨taken, unread, hr.erase hne⟩

theorem commit (h : Inv s) : Inv s.commit := by
  obtain ⟨taken, unread, hr⟩ := h.active
  exact h.edit ⟨taken, _, hr.commit⟩

theorem ring_eq_update (s : Cons) : s.ring = update s.inputs s.active s.input := by
  funext k
  by_cases e : k = s.active
  · subst e; simp [Cons.ring]
  · simp [Cons.ring, e]

/-- Ctrl-T: every console has the ring that it had. -/
theorem ring_switch (s : Cons) : s.switch.ring = s.ring := by
  rw [ring_eq_update s, ring_eq_update s.switch]
  exact update_eq_self _ _

theorem switch (h : Inv s) : Inv s.switch := by
  have hsaved : ∀ k, (update s.cons.inputs s.cons.active s.cons.input k).Bounded := by
    intro k
    by_cases e : k = s.cons.active
    · subst e
      obtain ⟨taken, unread, hr⟩ := h.active
      rw [update_self]
      exact hr.bounded
    · rw [update_of_ne e]
      exact h.saved k
  refine ⟨fun k => ?_, hsaved⟩
  have hk := h.lines k
  rwa [← ring_switch] at hk

/-- A Ctrl-D is consumed. -/
theorem consume (h : Inv s) (hne : s.cons.input.r ≠ s.cons.input.w)
    (hc : s.cons.input.head = C 'D') : Inv s.consume := by
  obtain ⟨taken, unread, hr⟩ := h.active
  exact h.edit ⟨_, hr.tail hne rfl rfl (by simp [hc])⟩

/-- Another character is consumed and delivered. -/
theorem deliver (h : Inv s) (hne : s.cons.input.r ≠ s.cons.input.w)
    (hc : s.cons.input.head ≠ C 'D') : Inv (s.consume.deliver s.cons.input.head) := by
  obtain ⟨taken, unread, hr⟩ := h.active
  have he : s.consume.deliver s.cons.input.head = s.edit (·.tail) fun l =>
      { l with delivered := l.delivered ++ [s.cons.input.head] } := by
    simp [World.consume, World.deliver, World.edit]
  rw [he]
  exact h.edit ⟨_, hr.tail hne rfl rfl (by simp [hc])⟩

/-- `r++` and then `r--`. -/
theorem pushBack_consume (s : World) : s.consume.pushBack = s := by
  simp [World.consume, World.pushBack, World.edit, Input.tail, Input.pushBack]

/-! ### The code -/

theorem key (h : Inv s) (c : UInt8) (cs : List UInt8) : Inv (key s c cs).1 := by
  unfold Console.key
  split
  · exact h
  split
  · exact h.switch
  split
  · exact h
  split
  · split
    · next hne => exact h.erase hne
    · exact h
  split
  · next hroom =>
    have ht := h.type hroom.2 (if c = carriageReturn then newline else c)
    generalize (if c = carriageReturn then newline else c) = c' at ht
    dsimp only
    split
    · exact ht.commit
    · exact ht
  · exact h

theorem killLine (h : Inv s) (cs : List UInt8) : Inv (killLine s cs).1 := by
  unfold Console.killLine
  split
  · next hne => exact h.erase hne.1
  · exact h

theorem take (h : Inv s) (minor target n : Int) : Inv (take s minor target n).1 := by
  unfold Console.take
  split
  · split
    · exact h
    · next hne =>
      have hne : s.cons.input.r ≠ s.cons.input.w := fun e => hne (.inl e)
      dsimp only
      split
      · next hc =>
        dsimp only
        split
        · rw [pushBack_consume]; exact h
        · exact h.consume hne hc
      · next hc => exact h.deliver hne hc
  · exact h

theorem boot : Inv World.boot := by
  have he : Rep ⟨fun _ => 0, 0, 0, 0⟩ ⟨[], [], []⟩ [] [] :=
    ⟨rfl, rfl, rfl, rfl, Nat.zero_le _, rfl⟩
  refine ⟨fun k => ⟨[], [], ?_⟩, fun k => he.bounded⟩
  unfold Cons.ring
  split
  · exact he
  · exact he

end Inv

/-- What the rings are in a state. -/
structure RingsOk (s : World) : Prop where
  active : s.cons.input.Bounded
  saved : ∀ k, (s.cons.inputs k).Bounded
  /-- what was committed on a console has been taken by its readers, who got all of it but the
  Ctrl-D marks, or is unread -/
  stream : ∀ k, ∃ taken, (s.line k).committed = taken ++ (s.cons.ring k).unread ∧
    (s.line k).delivered = taken.filter (· ≠ C 'D')

theorem Inv.ringsOk {s : World} (h : Inv s) : RingsOk s := by
  obtain ⟨taken, unread, ha⟩ := h.active
  refine ⟨ha.bounded, h.saved, fun k => ?_⟩
  obtain ⟨taken, unread, hr⟩ := h.lines k
  exact ⟨taken, by rw [hr.unread_eq]; exact hr.committed, hr.delivered⟩

variable [DecidableEq τ]

instance decidableMay (s : World) (pt : τ → Point) (t : τ) (l : Point) : Decidable (may s pt t l) := by
  cases l <;> dsimp only [may] <;> infer_instance

/-- A reader waits on the second console.  "hi" is typed on the first one, and "b" and a newline on
the second. -/
def switchOps : List (Monitor.Op Bool Point) :=
  [.call false (.read 2 5)] ++ List.replicate 6 (.next false) ++
    [.call true (.intr [104, 105, C 'T', 98, newline])] ++ List.replicate 8 (.next true) ++
    List.replicate 5 (.next false)

end Xv6.Console
