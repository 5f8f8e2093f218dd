import Xv6.Kernel.Pages
import Xv6.Kernel.System

/-!
# Kernel — Stops

The functions of the scheduler, of the mutexes and of the containers free no page: where they do
not return, they fault.
-/

namespace Xv6

/-- `r` does not stop at a double free. -/
def Quiet {α : Type} (r : Res α) : Prop := Safe r fun _ => True

theorem Quiet.safe {α : Type} {r : Res α} {Q : α → Prop} (h : Quiet r) (hq : ∀ a, r = .ok a → Q a) :
    Safe r Q :=
  ⟨hq, h.noFree⟩

theorem Quiet.ok {α : Type} {a : α} : Quiet (.ok a : Res α) := Safe.ok trivial

theorem Quiet.bind {α β : Type} {r : Res α} {f : α → Res β} (h : Quiet r) (hf : ∀ a, Quiet (f a)) :
    Quiet (r >>= f) :=
  Safe.bind h fun a _ => hf a

/-- Where `r` stops, it faults. -/
structure Faults {α : Type} (r : Res α) : Prop where
  stop : ∀ e, r = .error e → ∃ msg, e = .fault msg

namespace Faults

variable {α β : Type} {r : Res α}

theorem ok {a : α} : Faults (.ok a : Res α) := ⟨fun _ h => (by cases h)⟩

theorem fault {msg : String} : Faults (.error (.fault msg) : Res α) :=
  ⟨fun _ h => ⟨msg, (Except.error.inj h).symm⟩⟩

theorem bind {f : α → Res β} (h : Faults r) (hf : ∀ a, Faults (f a)) : Faults (r >>= f) := by
  refine ⟨fun e he => ?_⟩
  rcases Res.bind_eq_error.mp he with he | ⟨a, -, he⟩
  · exact h.stop e he
  · exact (hf a).stop e he

/-- A fault is no double free. -/
theorem quiet (h : Faults r) : Quiet r := by
  refine ⟨fun _ _ => trivial, fun pg he => ?_⟩
  obtain ⟨msg, hmsg⟩ := h.stop _ he
  cases hmsg

end Faults

namespace Sched

variable {s : Sched} {p i : Slot}

theorem faults_bucket (priority : Int) : Faults (bucket priority) := by
  unfold bucket
  split
  · exact .ok
  · exact .fault

theorem faults_enqueue (s : Sched) (p : Slot) (priority : Int) : Faults (s.pq1Enqueue p priority) :=
  (faults_bucket _).bind fun b => by
    split
    · exact .ok
    · exact .ok

theorem faults_removeLoop (s : Sched) (b : Fin PRIO_MAX) (pid : Int) (n : Nat) :
    ∀ prev cur, Faults (removeLoop s b pid n prev cur) := by
  induction n with
  | zero =>
    intro prev cur
    cases cur with
    | none => exact .ok
    | some cur => exact .fault
  | succ n ih =>
    intro prev cur
    cases cur with
    | none => exact .ok
    | some cur =>
      unfold removeLoop
      split
      · exact .ok
      · exact ih _ _

theorem faults_removeNode (s : Sched) (p : Slot) : Faults (s.removeNode p) :=
  (faults_bucket _).bind fun _ => faults_removeLoop ..

theorem faults_skipLoop (s : Sched) (n : Nat) : ∀ cur, Faults (skipLoop s n cur) := by
  induction n with
  | zero =>
    intro cur
    cases cur with
    | none => exact .ok
    | some cur =>
      rw [skipLoop]
      split
      · exact .ok
      · exact .fault
  | succ n ih =>
    intro cur
    cases cur with
    | none => exact .ok
    | some cur =>
      rw [skipLoop]
      split
      · exact .ok
      · exact ih _

theorem faults_firstRunnable (s : Sched) (bs : List (Fin PRIO_MAX)) :
    Faults (firstRunnable s bs) := by
  induction bs with
  | nil => exact .ok
  | cons b bs ih =>
    refine (faults_skipLoop s _ _).bind fun o => ?_
    cases o with
    | none => exact ih
    | some cur => exact .ok

theorem faults_prevLoop (s : Sched) (cur : Slot) (n : Nat) : ∀ c, Faults (prevLoop s cur n c) := by
  induction n with
  | zero =>
    intro c
    rw [prevLoop]
    split
    · exact .ok
    · split
      · exact .ok
      · exact .fault
  | succ n ih =>
    intro c
    rw [prevLoop]
    split
    · exact .ok
    · split
      · exact .ok
      · exact ih _

theorem faults_endLoop (s : Sched) (n : Nat) : ∀ c, Faults (endLoop s n c) := by
  induction n with
  | zero =>
    intro c
    rw [endLoop]
    split
    · exact .ok
    · exact .fault
  | succ n ih =>
    intro c
    rw [endLoop]
    split
    · exact .ok
    · exact ih _

theorem faults_dequeue (s : Sched) : Faults s.pq1Dequeue := by
  refine (faults_firstRunnable s _).bind fun o => ?_
  cases o with
  | none => exact .ok
  | some cur =>
    refine (faults_bucket _).bind fun b => Faults.bind ?_ fun s₁ => ?_
    · unfold takeOut
      split
      · exact .ok
      refine (faults_prevLoop s cur _ _).bind fun c => ?_
      split
      · exact .ok
      · exact .ok
    · exact ((faults_endLoop s₁ _ _).bind fun _ => .ok).bind fun _ => .ok

theorem faults_scheduler (s : Sched) : Faults s.scheduler :=
  (faults_dequeue s).bind fun x => by
    split
    · exact .ok
    · exact .ok

theorem faults_ancestorLoop (s : Sched) (pid : Int) (n : Nat) :
    ∀ a, Faults (ancestorLoop s pid n a) := by
  induction n with
  | zero =>
    intro a
    cases a with
    | none => exact .ok
    | some a =>
      rw [ancestorLoop]
      split
      · exact .ok
      · exact .fault
  | succ n ih =>
    intro a
    cases a with
    | none => exact .ok
    | some a =>
      rw [ancestorLoop]
      split
      · exact .ok
      · exact ih _

theorem faults_prioSet (s : Sched) (p : Slot) (pid priority : Int) :
    Faults (s.prioSet p pid priority) := by
  unfold prioSet
  split
  · exact .ok
  split
  · exact .ok
  refine (faults_ancestorLoop s _ _ _).bind fun b => ?_
  split
  · exact .ok
  dsimp only
  split
  · exact .ok
  · refine (faults_removeNode s _).bind fun s₁ => ?_
    exact (faults_enqueue _ _ _).bind fun _ => .ok

theorem faults_embryo (s : Sched) (i : Slot) : Faults (s.embryo i) := by
  unfold embryo
  dsimp only
  split
  · exact .fault
  split
  · exact faults_enqueue _ _ _
  · exact .ok

theorem faults_child (s : Sched) (p np : Slot) (cid : Int) : Faults (s.child p np cid) :=
  (faults_enqueue _ _ _).bind fun _ => .ok

end Sched

namespace Mux

theorem faults_mutexCreate (m : Mux) (p : Slot) (name : CStr) : Faults (m.mutexCreate p name) := by
  unfold mutexCreate
  split
  · exact .ok
  refine Faults.bind ?_ fun n => ?_
  · unfold copyName
    split
    · exact .ok
    · exact .fault
  · dsimp only
    split
    · exact .ok
    · exact .ok

theorem faults_initLocks (m : Mux) (cur : Option Slot) (np : Slot) (pid : Int) :
    Faults (m.initLocks cur np pid) := by
  unfold initLocks
  split
  · exact .ok
  · split
    · exact .fault
    · exact .ok

end Mux

namespace Kernel

theorem faults_conIndex (cid : Int) : Faults (conIndex cid) := by
  unfold conIndex
  split
  · exact .ok
  · exact .fault

theorem faults_setnextproc (con : Containers) (index : Int) (val : Nat) :
    Faults (setnextproc con index val) := by
  unfold setnextproc
  split
  · refine (faults_conIndex _).bind fun c => ?_
    split
    · exact .ok
    · exact .ok
  · exact .ok

theorem faults_leaveContainer (con : Containers) (cid : Int) : Faults (leaveContainer con cid) := by
  unfold leaveContainer
  split
  · exact (faults_conIndex _).bind fun c => .ok
  · exact .ok

theorem faults_allocproc (k : Kernel) (cur : Option Slot) (cid : Int) :
    Faults (k.allocproc cur cid) := by
  unfold allocproc
  split
  · exact .ok
  next i hi =>
  refine (faults_setnextproc _ _ _).bind fun x => ?_
  dsimp only
  split
  · exact .ok
  refine (Sched.faults_embryo _ _).bind fun s => ?_
  split
  · exact .ok
  · exact (Mux.faults_initLocks ..).bind fun _ => .ok

end Kernel

end Xv6
