import Mathlib.Data.List.Chain
import Mathlib.Data.List.Nodup
import Mathlib.Logic.Function.Basic

/-!
# Lib — Circular

Circular doubly linked lists through a head: `Circular p h l` says that following `next` from `h`
visits exactly `l` and then reaches `h` again, and that following `prev` visits it backwards.

* `Circular.insertFront`, `Circular.unlink`: a node is put behind the head, or taken out.
* `Circular.scan_next`, `Circular.scan_prev`: a loop that follows the links to the head finds the first
  node of `l`, or the last one, that it looks for.
-/

namespace Xv6.Lib

open Function List

variable {ν : Type*}

/-- The two links of every node. -/
structure Links (ν : Type*) where
  next : ν → ν
  prev : ν → ν

namespace Links

variable [DecidableEq ν]

/-- `b->next = h->next; b->prev = h; h->next->prev = b; h->next = b`. -/
def insertFront (p : Links ν) (h b : ν) : Links ν :=
  let p := { p with next := update p.next b (p.next h) }
  let p := { p with prev := update p.prev b h }
  let p := { p with prev := update p.prev (p.next h) b }
  { p with next := update p.next h b }

/-- `b->next->prev = b->prev; b->prev->next = b->next`. -/
def unlink (p : Links ν) (b : ν) : Links ν :=
  let p := { p with prev := update p.prev (p.next b) (p.prev b) }
  { p with next := update p.next (p.prev b) (p.next b) }

/-- `for (b = n; b != h; b = link(b)) if (q(b)) ...`; `fuel` bounds the number of nodes. -/
def scan (link : ν → ν) (h : ν) (q : ν → Bool) : (fuel : Nat) → ν → Option ν
  | 0, _ => none
  | fuel + 1, n => if n = h then none else if q n then some n else scan link h q fuel (link n)

end Links

/-- The nodes of `l` are linked one to the next. -/
def Linked (p : Links ν) (l : List ν) : Prop := l.IsChain fun a b => p.next a = b ∧ p.prev b = a

structure Circular (p : Links ν) (h : ν) (l : List ν) : Prop where
  nodup : (h :: l).Nodup
  linked : Linked p (h :: (l ++ [h]))

variable {p p' : Links ν} {h b : ν} {l l₁ l₂ : List ν}

/-- Links that are not between two nodes of `l` do not matter. -/
theorem Linked.congr (hl : Linked p l) (hn : ∀ x ∈ l.dropLast, p'.next x = p.next x)
    (hp : ∀ x ∈ l.tail, p'.prev x = p.prev x) : Linked p' l := by
  induction l with
  | nil => exact .nil
  | cons a l ih =>
    cases l with
    | nil => exact .singleton a
    | cons c l =>
      obtain ⟨⟨h₁, h₂⟩, hr⟩ := isChain_cons_cons.mp hl
      refine isChain_cons_cons.mpr ⟨⟨?_, ?_⟩, ih hr (fun x hx => hn x ?_) fun x hx => hp x ?_⟩
      · rw [hn a (by simp), h₁]
      · rw [hp c (by simp), h₂]
      · rw [dropLast_cons_cons]; exact mem_cons_of_mem _ hx
      · exact mem_of_mem_tail hx

theorem Linked.split {c : ν} : Linked p (l₁ ++ c :: l₂) ↔ Linked p (l₁ ++ [c]) ∧ Linked p (c :: l₂) :=
  isChain_split

namespace Circular

/-- A circle in the other direction. -/
theorem reverse (hc : Circular p h l) : Circular ⟨p.prev, p.next⟩ h l.reverse := by
  refine ⟨?_, ?_⟩
  · rw [nodup_cons, mem_reverse, nodup_reverse]
    exact nodup_cons.mp hc.nodup
  · have hl : h :: (l.reverse ++ [h]) = (h :: (l ++ [h])).reverse := by simp
    rw [hl]
    refine isChain_reverse.mpr (hc.linked.imp fun a b hab => ⟨hab.2, hab.1⟩)

section Update

variable [DecidableEq ν]

/-- **A node is put behind the head.** -/
theorem insertFront (hc : Circular p h l) (hb : b ∉ h :: l) :
    Circular (p.insertFront h b) h (b :: l) := by
  obtain ⟨hbh, hbl⟩ := not_or.mp (mem_cons.not.mp hb)
  obtain ⟨hhl, hnd⟩ := nodup_cons.mp hc.nodup
  refine ⟨?_, ?_⟩
  · refine nodup_cons.mpr ⟨fun e => ?_, nodup_cons.mpr ⟨hbl, hnd⟩⟩
    rcases mem_cons.mp e with e | e
    · exact hbh e.symm
    · exact hhl e
  · -- the node that was behind the head
    obtain ⟨c, v, hv⟩ : ∃ c v, l ++ [h] = c :: v := by
      cases l with
      | nil => exact ⟨h, [], rfl⟩
      | cons c v => exact ⟨c, v ++ [h], rfl⟩
    have hold := hc.linked
    rw [hv] at hold
    obtain ⟨⟨hnext, -⟩, hrest⟩ := isChain_cons_cons.mp hold
    have hdl : (c :: v).dropLast = l := by rw [← hv, dropLast_concat]
    have hcv : (c :: v).Nodup := by
      rw [← hv]
      exact nodup_append_comm.mp (by simpa using ⟨hhl, hnd⟩)
    have hcb : c ≠ b := fun e => by
      have : b ∈ l ++ [h] := by rw [hv, e]; exact mem_cons_self
      rcases mem_append.mp this with hm | hm
      · exact hbl hm
      · exact hbh (mem_singleton.mp hm)
    rw [cons_append, hv]
    refine isChain_cons_cons.mpr ⟨⟨?_, ?_⟩, isChain_cons_cons.mpr ⟨⟨?_, ?_⟩, ?_⟩⟩
    · simp [Links.insertFront]
    · simp [Links.insertFront, hnext, Ne.symm hbh, hcb.symm]
    · simp [Links.insertFront, hnext, hbh]
    · simp [Links.insertFront, hnext, Ne.symm hbh]
    · refine Linked.congr hrest (fun x hx => ?_) fun x hx => ?_
      · rw [hdl] at hx
        have hxb : x ≠ b := fun e => hbl (e ▸ hx)
        have hxh : x ≠ h := fun e => hhl (e ▸ hx)
        simp [Links.insertFront, hxb, hxh]
      · have hxc : x ≠ c := fun e => (nodup_cons.mp hcv).1 (e ▸ hx)
        have hxb : x ≠ b := fun e => by
          have : b ∈ l ++ [h] := by rw [hv, ← e]; exact mem_cons_of_mem _ hx
          rcases mem_append.mp this with hm | hm
          · exact hbl hm
          · exact hbh (mem_singleton.mp hm)
        simp [Links.insertFront, hnext, Ne.symm hbh, hxc, hxb]

/-- **A node is taken out.** -/
theorem unlink (hc : Circular p h (l₁ ++ b :: l₂)) : Circular (p.unlink b) h (l₁ ++ l₂) := by
  have hnd := hc.nodup
  have hsub : (l₁ ++ l₂).Sublist (l₁ ++ b :: l₂) :=
    (List.Sublist.refl l₁).append (sublist_cons_self b l₂)
  refine ⟨hnd.sublist (hsub.cons_cons h), ?_⟩
  -- the nodes before and behind `b`
  obtain ⟨u, a, hu⟩ : ∃ u a, h :: l₁ = u ++ [a] := by
    rcases eq_nil_or_concat (h :: l₁) with e | ⟨u, a, e⟩
    · cases e
    · exact ⟨u, a, by rw [e, concat_eq_append]⟩
  obtain ⟨c, v, hv⟩ : ∃ c v, l₂ ++ [h] = c :: v := by
    cases l₂ with
    | nil => exact ⟨h, [], rfl⟩
    | cons c v => exact ⟨c, v ++ [h], rfl⟩
  have hold : Linked p (u ++ a :: b :: c :: v) := by
    have := hc.linked
    rwa [append_assoc, cons_append, hv, ← cons_append, hu, append_assoc] at this
  obtain ⟨hleft, hr⟩ := Linked.split.mp hold
  obtain ⟨⟨hab, hba⟩, hr⟩ := isChain_cons_cons.mp hr
  obtain ⟨⟨hbc, hcb⟩, hright⟩ := isChain_cons_cons.mp hr
  have hgoal : h :: (l₁ ++ l₂ ++ [h]) = u ++ a :: c :: v := by
    rw [append_assoc, hv, ← cons_append, hu, append_assoc]
    rfl
  -- no node occurs twice
  have hdis : ∀ x ∈ h :: l₁, x ∉ b :: l₂ := by
    rw [← cons_append] at hnd
    exact fun x hx hx' => (nodup_append.mp hnd).2.2 x hx x hx' rfl
  have hnd₁ : (u ++ [a]).Nodup := by
    rw [← hu]
    rw [← cons_append] at hnd
    exact (nodup_append.mp hnd).1
  have hnd₂ : (c :: v).Nodup := by
    rw [← hv]
    have h₂ : (b :: l₂).Nodup := by
      rw [← cons_append] at hnd
      exact (nodup_append.mp hnd).2.1
    refine nodup_append_comm.mp (nodup_cons.mpr ⟨fun e => ?_, (nodup_cons.mp h₂).2⟩)
    exact hdis h mem_cons_self (mem_cons_of_mem _ e)
  have hau : a ∈ h :: l₁ := by rw [hu]; simp
  have hac : c = h ∨ c ∈ l₂ := by
    have : c ∈ l₂ ++ [h] := by rw [hv]; exact mem_cons_self
    rcases mem_append.mp this with hm | hm
    · exact .inr hm
    · exact .inl (mem_singleton.mp hm)
  have hbc' : b ≠ c := fun e => by
    rcases hac with hm | hm
    · exact hdis h mem_cons_self (by rw [← hm, ← e]; exact mem_cons_self)
    have h₂ : (b :: l₂).Nodup := by
      rw [← cons_append] at hnd
      exact (nodup_append.mp hnd).2.1
    exact (nodup_cons.mp h₂).1 (e ▸ hm)
  have hnext : (p.unlink b).next = update p.next a c := by
    simp [Links.unlink, hbc, hba, hbc']
  have hprev : (p.unlink b).prev = update p.prev c a := by
    simp [Links.unlink, hbc, hba]
  rw [hgoal]
  refine Linked.split.mpr ⟨hleft.congr (fun x hx => ?_) fun x hx => ?_,
    isChain_cons_cons.mpr ⟨⟨by rw [hnext]; simp, by rw [hprev]; simp⟩,
      Linked.congr hright (fun x hx => ?_) fun x hx => ?_⟩⟩
  · rw [dropLast_concat] at hx
    have hxa : x ≠ a := fun e => (nodup_append.mp hnd₁).2.2 x hx a (by simp) e
    rw [hnext, update_of_ne hxa]
  · rw [← hu] at hx
    have hxc : x ≠ c := fun e => by
      rcases hac with hm | hm
      · exact (nodup_cons.mp (hu ▸ hnd₁ : (h :: l₁).Nodup)).1 (hm ▸ e ▸ hx)
      · exact hdis x (mem_cons_of_mem _ hx) (mem_cons_of_mem _ (e ▸ hm))
    rw [hprev, update_of_ne hxc]
  · have hx : x ∈ l₂ := by
      rw [← hv, dropLast_concat] at hx
      exact hx
    have hxa : x ≠ a := fun e => hdis a hau (e ▸ mem_cons_of_mem _ hx)
    rw [hnext, update_of_ne hxa]
  · have hxc : x ≠ c := fun e => (nodup_cons.mp hnd₂).1 (e ▸ hx)
    rw [hprev, update_of_ne hxc]

/-! ### Loops -/

theorem scan_of_linked {q : ν → Bool} {x : ν} {fuel : Nat} (hl : Linked p (x :: (l ++ [h])))
    (hh : h ∉ l) (hf : l.length < fuel) : Links.scan p.next h q fuel (p.next x) = l.find? q := by
  induction l generalizing x fuel with
  | nil =>
    obtain ⟨⟨hn, -⟩, -⟩ := isChain_cons_cons.mp hl
    obtain ⟨n, rfl⟩ : ∃ n, fuel = n + 1 := ⟨fuel - 1, by simp at hf; omega⟩
    rw [hn, Links.scan, if_pos rfl]
    rfl
  | cons a l ih =>
    obtain ⟨⟨hn, -⟩, hr⟩ := isChain_cons_cons.mp hl
    obtain ⟨hah, hhl⟩ := not_or.mp (mem_cons.not.mp hh)
    obtain ⟨n, rfl⟩ : ∃ n, fuel = n + 1 := ⟨fuel - 1, by simp at hf; omega⟩
    rw [hn, Links.scan, if_neg (Ne.symm hah), find?_cons]
    cases hq : q a with
    | true => rfl
    | false => exact ih hr hhl (by simp at hf; omega)

/-- The loop from the head along `next`. -/
theorem scan_next (hc : Circular p h l) (q : ν → Bool) {fuel : Nat} (hf : l.length < fuel) :
    Links.scan p.next h q fuel (p.next h) = l.find? q :=
  scan_of_linked hc.linked (nodup_cons.mp hc.nodup).1 hf

/-- The loop from the head along `prev`. -/
theorem scan_prev (hc : Circular p h l) (q : ν → Bool) {fuel : Nat} (hf : l.length < fuel) :
    Links.scan p.prev h q fuel (p.prev h) = l.reverse.find? q :=
  hc.reverse.scan_next q (by rwa [length_reverse])

end Update

end Circular

end Xv6.Lib
