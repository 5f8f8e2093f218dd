import Mathlib.Logic.Function.Basic
import Mathlib.Data.List.Nodup

/-!
# Lib — Chain

Null-terminated singly linked lists threaded through a table: `next i` is the link of entry `i`,
and `Chain next h l` says that following links from `h` visits exactly `l` and then reaches null.
A chain is determined by its head (`Chain.unique`) and repeats no entry (`Chain.nodup`).
-/

namespace Xv6.Lib

open Function List

variable {ι : Type*} {next : ι → Option ι} {h : Option ι} {l l₁ l₂ : List ι} {a : ι}

/-- Following `next` from `h` visits exactly `l` and then reaches null. -/
def Chain (next : ι → Option ι) : Option ι → List ι → Prop
  | h, [] => h = none
  | h, a :: l => h = some a ∧ Chain next (next a) l

@[simp] theorem chain_nil : Chain next h [] ↔ h = none := Iff.rfl

@[simp] theorem chain_cons : Chain next h (a :: l) ↔ h = some a ∧ Chain next (next a) l := Iff.rfl

namespace Chain

variable {next' : ι → Option ι} {v : Option ι} {b : ι}

theorem unique : ∀ {h : Option ι} {l l' : List ι}, Chain next h l → Chain next h l' → l = l'
  | _, [], [], _, _ => rfl
  | _, [], _ :: _, h₁, ⟨h₂, _⟩ => by rw [chain_nil.mp h₁] at h₂; cases h₂
  | _, _ :: _, [], ⟨h₁, _⟩, h₂ => by rw [chain_nil.mp h₂] at h₁; cases h₁
  | _, _ :: _, _ :: _, ⟨h₁, t₁⟩, ⟨h₂, t₂⟩ => by
    cases Option.some.inj (h₁.symm.trans h₂)
    rw [unique t₁ t₂]

/-- A chain that meets `a` has, from `a` on, the chain that starts at `a`. -/
theorem suffix : ∀ {h : Option ι} {l₁ l₂ : List ι}, Chain next h (l₁ ++ a :: l₂) →
    Chain next (some a) (a :: l₂)
  | _, [], _, ⟨_, t⟩ => ⟨rfl, t⟩
  | _, _ :: _, _, ⟨_, t⟩ => suffix t

/-- A chain that reaches null repeats no entry: an entry met twice would start two chains of
different lengths. -/
theorem nodup : ∀ {h : Option ι} {l : List ι}, Chain next h l → l.Nodup
  | _, [], _ => nodup_nil
  | _, a :: l, hc => by
    refine nodup_cons.mpr ⟨fun ha => ?_, nodup hc.2⟩
    obtain ⟨l₁, l₂, rfl⟩ := append_of_mem ha
    have h₂ : Chain next (some a) (a :: l₂) := suffix hc.2
    have h₁ : Chain next (some a) (a :: (l₁ ++ a :: l₂)) := ⟨rfl, hc.2⟩
    have e := congrArg length (h₁.unique h₂)
    simp only [length_cons, length_append] at e
    omega

/-- Links outside a chain do not matter to it. -/
theorem congr : ∀ {h : Option ι} {l : List ι},
    (∀ i ∈ l, next' i = next i) → Chain next h l → Chain next' h l
  | _, [], _, hc => hc
  | _, a :: l, he, ⟨h₁, t⟩ => by
    refine ⟨h₁, ?_⟩
    rw [he a mem_cons_self]
    exact congr (fun i hi => he i (mem_cons_of_mem _ hi)) t

/-- A chain through links that agree up to an entry of another chain meets that entry too. -/
theorem mem_of_agree : ∀ {h : Option ι} {l₁ l' : List ι},
    (∀ i ∈ l₁, next' i = next i) → Chain next h (l₁ ++ a :: l₂) → Chain next' h l' → a ∈ l'
  | _, _, [], _, hc, hc' => by
    rw [chain_nil.mp hc'] at hc
    exact absurd hc (by cases ‹List ι› <;> simp)
  | _, [], i :: _, _, ⟨ha, _⟩, ⟨hi, _⟩ => by
    obtain rfl := Option.some.inj (ha.symm.trans hi)
    exact mem_cons_self
  | _, k :: l₁, i :: l', he, ⟨hk, ht⟩, ⟨hi, ht'⟩ => by
    obtain rfl := Option.some.inj (hk.symm.trans hi)
    rw [he k mem_cons_self] at ht'
    exact mem_cons_of_mem _ (mem_of_agree (fun j hj => he j (mem_cons_of_mem _ hj)) ht ht')

variable [DecidableEq ι]

theorem update_of_notMem (ha : a ∉ l) (hc : Chain next h l) : Chain (update next a v) h l :=
  hc.congr fun _ hi => update_of_ne (ne_of_mem_of_not_mem hi ha) _ _

/-- Linking `a` in front of a chain. -/
theorem push (ha : a ∉ l) (hc : Chain next h l) : Chain (update next a h) (some a) (a :: l) :=
  ⟨rfl, by rw [update_self]; exact hc.update_of_notMem ha⟩

/-- Unlinking `a`, the successor of `b`, with the link of `a` redirected anywhere. -/
theorem unlink : ∀ {h : Option ι} {l₁ l₂ : List ι}, Chain next h (l₁ ++ b :: a :: l₂) →
      Chain (update (update next b (next a)) a v) h (l₁ ++ b :: l₂)
  | _, [], l₂, hc => by
    have nd := hc.nodup
    simp only [nil_append, nodup_cons, mem_cons, not_or] at nd
    obtain ⟨hb, -, t⟩ := hc
    refine ⟨hb, ?_⟩
    rw [update_of_ne nd.1.1, update_self]
    exact (t.update_of_notMem nd.1.2).update_of_notMem nd.2.1
  | _, c :: l₁, l₂, hc => by
    have nd := hc.nodup
    simp only [cons_append, nodup_cons, mem_append, mem_cons, not_or] at nd
    obtain ⟨hc₁, t⟩ := hc
    refine ⟨hc₁, ?_⟩
    rw [update_of_ne nd.1.2.2.1, update_of_ne nd.1.2.1]
    exact unlink t

/-- Linking `a` after the last entry `b` of a chain. -/
theorem snoc : ∀ {h : Option ι} {l₁ : List ι}, a ∉ l₁ ++ [b] → Chain next h (l₁ ++ [b]) →
      Chain (update (update next b (some a)) a none) h (l₁ ++ [b, a])
  | _, [], ha, ⟨hb, _⟩ => by
    have hne : b ≠ a := fun e => ha (by simp [e])
    refine ⟨hb, ?_, ?_⟩
    · rw [update_of_ne hne, update_self]
    · simp
  | _, c :: l₁, ha, hc => by
    have nd := hc.nodup
    simp only [cons_append, nodup_cons, mem_append, mem_singleton, not_or] at nd
    have hca : c ≠ a := fun e => ha (by simp [e])
    obtain ⟨hc₁, t⟩ := hc
    refine ⟨hc₁, ?_⟩
    rw [update_of_ne hca, update_of_ne nd.1.2]
    exact snoc (fun hm => ha (mem_cons_of_mem _ hm)) t

end Chain

end Xv6.Lib
