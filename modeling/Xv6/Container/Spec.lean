import Xv6.Container.CString
import Mathlib.Data.Nat.Digits.Lemmas

/-!
# Container — Spec

`parse_spec` of `helpers.h`, which reads the values of a container out of the text of a JSON object.
`jsmn` gives the tokens in the order of the text, without the nesting.  `parse_spec` goes over all of
them, takes each string that reads like one of its keys for that key, and copies the next token.

If no string inside the value of another key reads like one of the keys, `parse_spec` reads what the
object binds if and only if the two strings have at most 127 characters and the number at most 4
digits (`parseSpec_reads_iff`); a number of 5 digits overruns `nproc_str` (`parseSpec_overruns`).
-/

namespace Xv6

open List

/-- The string with the given bytes. -/
def chars (l : List UInt8) : Str := l.filterMap fun c => if h : c ≠ 0 then some ⟨c, h⟩ else none

/-- `jsmntype_t`. -/
inductive JsmnType where
  | object
  | array
  | string
  | primitive
  deriving DecidableEq

/-- `jsmntok_t` without `size`: a token with its text, from `start` up to `stop`. -/
structure JsmnTok where
  type : JsmnType
  start : Nat
  stop : Nat
  deriving DecidableEq

/-- `strncmp_const`. -/
def strncmpConst : Str → Str → Nat → Int
  | _, _, 0 => 0
  | a :: p, b :: q, n + 1 => if a = b then strncmpConst p q n else a.1.toNat - b.1.toNat
  | a :: _, [], _ + 1 => a.1.toNat - 0
  | [], b :: _, _ + 1 => 0 - b.1.toNat
  | [], [], _ + 1 => 0 - 0

/-- `jsoneq`. -/
def jsoneq (json : Str) (tok : JsmnTok) (s : Str) : Int :=
  if tok.type = .string ∧ s.length = tok.stop - tok.start ∧
      strncmpConst (json.drop tok.start) s (tok.stop - tok.start) = 0 then 0 else -1

/-- `substring(target, source, 0, len)`, which writes `len + 1` bytes, with a target of `size`. -/
def substring (size : Nat) (source : Str) (len : Nat) : Res Str :=
  if len < size then .ok (source.take len) else .error (.fault "a string overruns its buffer")

/-- The loop of `atoi`. -/
def atoiLoop (n : Int) : Str → Int
  | [] => n
  | c :: s => if 48 ≤ c.1.toNat ∧ c.1.toNat ≤ 57 then atoiLoop (n * 10 + c.1.toNat - 48) s else n

/-- `atoi`. -/
def atoi (s : Str) : Int := atoiLoop 0 s

/-- The keys that `parse_spec` looks for. -/
inductive SpecKey where
  | init
  | fs
  | nproc
  deriving DecidableEq

instance : Fintype SpecKey := ⟨{.init, .fs, .nproc}, fun k => by cases k <;> simp⟩

/-- `"init"`, `"fs"` and `"nproc"`. -/
def SpecKey.name : SpecKey → Str
  | .init => chars [105, 110, 105, 116]
  | .fs => chars [102, 115]
  | .nproc => chars [110, 112, 114, 111, 99]

/-- The size of the buffer that the value is copied to: `init`, `fs` and `nproc_str`. -/
def SpecKey.size : SpecKey → Nat
  | .init | .fs => 128
  | .nproc => 5

/-- What `parse_spec` writes. -/
structure SpecVals where
  init : Str
  fs : Str
  nproc : Int

/-- The value of a key is written. -/
def SpecVals.set (v : SpecVals) : SpecKey → Str → SpecVals
  | .init, s => { v with init := s }
  | .fs, s => { v with fs := s }
  | .nproc, s => { v with nproc := atoi s }

/-- The key that the token reads like. -/
def specKey (json : Str) (t : JsmnTok) : Option SpecKey :=
  [.init, .fs, .nproc].find? fun k => jsoneq json t k.name = 0

/-- The loop of `parse_spec`.  There is no token to read after the last one. -/
def specLoop (json : Str) : List JsmnTok → SpecVals → Res SpecVals
  | [], v => .ok v
  | [t], v => if specKey json t = none then .ok v else .error (.fault "read of an unset token")
  | t :: x :: ts, v =>
    match specKey json t with
    | some k => do
      let s ← substring k.size (json.drop x.start) (x.stop - x.start)
      specLoop json ts (v.set k s)
    | none => specLoop json (x :: ts) v

/-- `parse_spec` on the text of the file.  `jsmnParse` gives the tokens, or a negative number. -/
def parseSpec (jsmnParse : Str → Except Int (List JsmnTok)) (json : Str) (v : SpecVals) :
    Res (Int × SpecVals) :=
  match jsmnParse json with
  | .error _ => .ok (-1, v)
  | .ok [] => .ok (1, v)
  | .ok (t :: ts) =>
    if t.type ≠ .object then .ok (1, v)
    else do
      let v ← specLoop json ts v
      return (0, v)

/-! ### What the object binds -/

/-- The text of a token. -/
def JsmnTok.text (json : Str) (t : JsmnTok) : Str := (json.drop t.start).take (t.stop - t.start)

/-- A member of the object: the tokens of its key, of its value and of what is in the value. -/
structure Member where
  key : JsmnTok
  value : JsmnTok
  inner : List JsmnTok
  deriving DecidableEq

/-- The tokens of a member, in the order of the text. -/
def Member.tokens (m : Member) : List JsmnTok := m.key :: m.value :: m.inner

/-- The tokens of an object in the text `json`. -/
structure SpecDoc (json : Str) (ms : List Member) : Prop where
  inside : ∀ m ∈ ms, ∀ t ∈ m.tokens, t.start ≤ t.stop ∧ t.stop ≤ json.length
  key : ∀ m ∈ ms, m.key.type = .string
  scalar : ∀ m ∈ ms, m.value.type = .string ∨ m.value.type = .primitive → m.inner = []

/-- A decimal number. -/
def number (s : Str) : Nat := Nat.ofDigits 10 (s.reverse.map fun c => c.1.toNat - 48)

/-- `b k` is the one member with key `k`; two of the values are strings, one a number. -/
structure SpecBinds (json : Str) (ms : List Member) (b : SpecKey → Member) : Prop where
  once : ∀ k, ms.filter (fun m => m.key.text json = k.name) = [b k]
  init : (b .init).value.type = .string
  fs : (b .fs).value.type = .string
  nproc : (b .nproc).value.type = .primitive
  digits : ∀ c ∈ (b .nproc).value.text json, 48 ≤ c.1.toNat ∧ c.1.toNat ≤ 57
  length : ((b .nproc).value.text json).length ∈ Finset.Icc 1 9

/-- No string inside the value of another key reads like one of the keys. -/
def Plain (json : Str) (ms : List Member) : Prop :=
  ∀ m ∈ ms, (∀ k : SpecKey, m.key.text json ≠ k.name) →
    ∀ t ∈ m.value :: m.inner, t.type = .string → ∀ k : SpecKey, t.text json ≠ k.name

/-- `parse_spec` returns 0 with what the object binds, and overruns no buffer. -/
def SpecRead (jsmnParse : Str → Except Int (List JsmnTok)) (json : Str) (b : SpecKey → Member)
    (v : SpecVals) : Prop :=
  parseSpec jsmnParse json v = .ok (0, ⟨(b .init).value.text json, (b .fs).value.text json,
    number ((b .nproc).value.text json)⟩)

/-! ### The keys -/

variable {json : Str} {t : JsmnTok} {ms : List Member} {m : Member} {k : SpecKey} {v v' : SpecVals}

theorem strncmpConst_eq_zero (p q : Str) : strncmpConst p q q.length = 0 ↔ p.take q.length = q := by
  induction q generalizing p with
  | nil => simp [strncmpConst]
  | cons b q ih =>
    have hb : b.1.toNat ≠ 0 := fun h => b.2 (UInt8.toNat_inj.mp h)
    cases p with
    | nil => simpa [strncmpConst] using hb
    | cons a p =>
      rw [length_cons, strncmpConst]
      split
      · next e => simp [e, ih]
      next e =>
      have hne : a.1.toNat ≠ b.1.toNat := fun h => e (Subtype.ext (UInt8.toNat_inj.mp h))
      simp only [take_succ_cons, cons.injEq, e, false_and, iff_false]
      omega

theorem text_length (h : t.start ≤ t.stop ∧ t.stop ≤ json.length) :
    (t.text json).length = t.stop - t.start := by
  simp only [JsmnTok.text, length_take, length_drop]
  omega

/-- `jsoneq` compares the text of a string. -/
theorem jsoneq_eq_zero (h : t.start ≤ t.stop ∧ t.stop ≤ json.length) (s : Str) :
    jsoneq json t s = 0 ↔ t.type = .string ∧ t.text json = s := by
  have hcmp : (s.length = t.stop - t.start ∧
      strncmpConst (json.drop t.start) s (t.stop - t.start) = 0) ↔ t.text json = s := by
    constructor
    · rintro ⟨hl, hc⟩
      rw [← hl, strncmpConst_eq_zero, hl] at hc
      exact hc
    · rintro rfl
      have hl := text_length h
      refine ⟨hl, ?_⟩
      rw [← hl, strncmpConst_eq_zero, hl]
      rfl
  unfold jsoneq
  simp only [hcmp]
  split
  · next e => simp [e]
  · next e => simp [e]

theorem SpecKey.name_inj (k k' : SpecKey) (h : k.name = k'.name) : k = k' := by
  revert h
  cases k <;> cases k' <;> decide

theorem specKey_eq_some (h : t.start ≤ t.stop ∧ t.stop ≤ json.length) :
    specKey json t = some k ↔ t.type = .string ∧ t.text json = k.name := by
  constructor
  · intro hk
    exact (jsoneq_eq_zero h _).mp (by simpa using find?_some hk)
  · intro hk
    cases hf : specKey json t with
    | none =>
      have := find?_eq_none.mp hf k (by cases k <;> simp)
      exact absurd ((jsoneq_eq_zero h _).mpr hk) (by simpa using this)
    | some k' =>
      have hk' := (jsoneq_eq_zero h _).mp (by simpa using find?_some hf)
      rw [SpecKey.name_inj k' k (hk'.2.symm.trans hk.2)]

/-! ### The loop -/

theorem specLoop_none (h : specKey json t = none) (ts : List JsmnTok) :
    specLoop json (t :: ts) v = specLoop json ts v := by
  cases ts <;> simp [specLoop, h]

theorem specLoop_plain {l : List JsmnTok} (h : ∀ t ∈ l, specKey json t = none)
    (ts : List JsmnTok) : specLoop json (l ++ ts) v = specLoop json ts v := by
  induction l with
  | nil => rfl
  | cons t l ih =>
    rw [cons_append, specLoop_none (h t (by simp)), ih fun t ht => h t (by simp [ht])]

/-- What the member leaves. -/
def Member.store (json : Str) (v : SpecVals) (m : Member) : SpecVals :=
  match specKey json m.key with
  | some k => v.set k (m.value.text json)
  | none => v

/-- **The loop** goes from member to member. -/
theorem specLoop_members (hdoc : SpecDoc json ms)
    (hkey : ∀ m ∈ ms, ∀ k, specKey json m.key = some k → m.inner = [])
    (hplain : ∀ m ∈ ms, specKey json m.key = none →
      ∀ t ∈ m.value :: m.inner, specKey json t = none) :
    specLoop json (ms.flatMap Member.tokens) v = .ok v' ↔
      (∀ m ∈ ms, ∀ k, specKey json m.key = some k → (m.value.text json).length < k.size) ∧
        ms.foldl (Member.store json) v = v' := by
  induction ms generalizing v with
  | nil => simp [specLoop]
  | cons m ms ih =>
    have ih := fun v => ih (v := v)
      ⟨fun m hm => hdoc.inside m (by simp [hm]), fun m hm => hdoc.key m (by simp [hm]),
        fun m hm => hdoc.scalar m (by simp [hm])⟩
      (fun m hm => hkey m (by simp [hm])) fun m hm => hplain m (by simp [hm])
    rw [flatMap_cons, foldl_cons, forall_mem_cons]
    cases hk : specKey json m.key with
    | none =>
      rw [Member.tokens, cons_append, specLoop_none hk,
        specLoop_plain (hplain m (by simp) hk), ih, Member.store, hk]
      simp
    | some k =>
      have hl := text_length (hdoc.inside m (by simp) m.value (by simp [Member.tokens]))
      rw [Member.tokens, hkey m (by simp) k hk, Member.store, hk]
      simp only [cons_append, nil_append, specLoop, hk, substring]
      rw [hl]
      split
      · next hlt =>
        refine (ih _).trans ?_
        simp [hlt, JsmnTok.text]
      · next hlt => simp [hlt, bind, Except.bind]

/-! ### The values -/

/-- The value of key `k` is the text `s`. -/
def SpecVals.Has (v : SpecVals) (s : Str) : SpecKey → Prop
  | .init => v.init = s
  | .fs => v.fs = s
  | .nproc => v.nproc = atoi s

theorem SpecVals.has_set (v : SpecVals) (k : SpecKey) (s : Str) : (v.set k s).Has s k := by
  cases k <;> rfl

theorem SpecVals.Has.set {s : Str} (h : v.Has s k) {k' : SpecKey} (hne : k' ≠ k) (s' : Str) :
    (v.set k' s').Has s k := by
  cases k <;> cases k' <;> first | exact h | exact absurd rfl hne

/-- Members with other keys leave the value. -/
theorem has_foldl {s : Str} {l : List Member} (h : v.Has s k)
    (hl : ∀ m ∈ l, specKey json m.key ≠ some k) : (l.foldl (Member.store json) v).Has s k := by
  induction l generalizing v with
  | nil => exact h
  | cons m l ih =>
    refine ih ?_ fun m hm => hl m (by simp [hm])
    unfold Member.store
    split
    · next k' hk => exact h.set (fun e => hl m (by simp) (e ▸ hk)) _
    · exact h

/-- The one member with key `k` decides the value. -/
theorem has_once (h : ms.filter (fun m => specKey json m.key = some k) = [m]) :
    (ms.foldl (Member.store json) v).Has (m.value.text json) k := by
  obtain ⟨l₁, l₂, rfl, -, hm, h₂⟩ := filter_eq_cons_iff.mp h
  rw [foldl_append, foldl_cons]
  refine has_foldl ?_ fun m hm => by simpa using filter_eq_nil_iff.mp h₂ m hm
  rw [Member.store, of_decide_eq_true hm]
  exact SpecVals.has_set _ k _

theorem atoiLoop_digits {s : Str} (h : ∀ c ∈ s, 48 ≤ c.1.toNat ∧ c.1.toNat ≤ 57) (n : Int) :
    atoiLoop n s = n * 10 ^ s.length + number s := by
  induction s generalizing n with
  | nil => simp [atoiLoop, number]
  | cons c s ih =>
    have hc := h c (by simp)
    have hn : number (c :: s) = number s + 10 ^ s.length * (c.1.toNat - 48) := by
      simp [number, Nat.ofDigits_append]
    rw [atoiLoop, if_pos hc, ih fun c hc => h c (by simp [hc]), hn, length_cons]
    push_cast [Nat.cast_sub hc.1]
    ring

/-- **The values are read**, in a text without strings inside other values that read like a key, if
and only if they fit their buffers: two strings of at most 127 characters and a number of at most 4
digits.  `hj`: `jsmn` gives the tokens of the object in the order of the text. -/
theorem parseSpec_reads_iff {jsmnParse : Str → Except Int (List JsmnTok)} {top : JsmnTok}
    {b : SpecKey → Member} (htop : top.type = .object)
    (hj : jsmnParse json = .ok (top :: ms.flatMap Member.tokens)) (hdoc : SpecDoc json ms)
    (hb : SpecBinds json ms b) (hplain : Plain json ms) :
    SpecRead jsmnParse json b v ↔ ∀ k, ((b k).value.text json).length < k.size := by
  have hspec : ∀ m ∈ ms, ∀ k, specKey json m.key = some k ↔ m.key.text json = k.name :=
    fun m hm k => (specKey_eq_some (hdoc.inside m hm _ (by simp [Member.tokens]))).trans
      (and_iff_right (hdoc.key m hm))
  have honce : ∀ k, ms.filter (fun m => specKey json m.key = some k) = [b k] := fun k => by
    rw [← hb.once k]
    exact filter_congr fun m hm => by simp only [hspec m hm k]
  have hmem : ∀ m ∈ ms, ∀ k, specKey json m.key = some k → m = b k := fun m hm k hk => by
    have : m ∈ ms.filter (fun m => specKey json m.key = some k) := by simp [hm, hk]
    simpa [honce k] using this
  have hin : ∀ k, b k ∈ ms ∧ specKey json (b k).key = some k := fun k => by
    have : b k ∈ ms.filter (fun m => specKey json m.key = some k) := by simp [honce k]
    simpa using this
  have hread : SpecRead jsmnParse json b v ↔ specLoop json (ms.flatMap Member.tokens) v =
      .ok ⟨(b .init).value.text json, (b .fs).value.text json,
        number ((b .nproc).value.text json)⟩ := by
    simp only [SpecRead, parseSpec, hj, htop, ne_eq, not_true_eq_false, if_false, Res.bind_eq_ok]
    simp [pure, Except.pure]
  refine hread.trans ((specLoop_members hdoc (fun m hm k hk => ?_) fun m hm hk t ht => ?_).trans ?_)
  · -- the values of the three keys have nothing inside
    rw [hmem m hm k hk]
    refine hdoc.scalar _ (hin k).1 ?_
    cases k with
    | init => exact .inl hb.init
    | fs => exact .inl hb.fs
    | nproc => exact .inr hb.nproc
  · by_contra hne
    obtain ⟨k, hk'⟩ := Option.ne_none_iff_exists'.mp hne
    have hkt := (specKey_eq_some (hdoc.inside m hm t (by
      simpa [Member.tokens] using Or.inr (mem_cons.mp ht)))).mp hk'
    refine hplain m hm (fun k e => ?_) t ht hkt.1 k hkt.2
    rw [(hspec m hm k).mpr e] at hk
    cases hk
  · rw [and_iff_left]
    · constructor
      · intro h k
        exact h _ (hin k).1 k (hin k).2
      · intro h m hm k hk
        rw [hmem m hm k hk]
        exact h k
    · have hnum : atoi ((b .nproc).value.text json) = number ((b .nproc).value.text json) := by
        rw [atoi, atoiLoop_digits hb.digits]
        simp
      have hi := has_once (v := v) (honce .init)
      have hf := has_once (v := v) (honce .fs)
      have hn := (has_once (v := v) (honce .nproc)).trans hnum
      cases hv : ms.foldl (Member.store json) v with
      | mk i f n =>
        rw [hv] at hi hf hn
        cases hi; cases hf; cases hn
        rfl

/-- The text `{"init":"i","fs":"f","nproc":`, the digits `num`, and `}`. -/
def sampleText (num : List UInt8) : Str :=
  chars ([123, 34, 105, 110, 105, 116, 34, 58, 34, 105, 34, 44, 34, 102, 115, 34, 58, 34, 102, 34,
    44, 34, 110, 112, 114, 111, 99, 34, 58] ++ num ++ [125])

/-- Its member with key `k`; the number has `n` digits. -/
def sampleMember (n : Nat) : SpecKey → Member
  | .init => ⟨⟨.string, 2, 6⟩, ⟨.string, 9, 10⟩, []⟩
  | .fs => ⟨⟨.string, 13, 15⟩, ⟨.string, 18, 19⟩, []⟩
  | .nproc => ⟨⟨.string, 22, 27⟩, ⟨.primitive, 29, 29 + n⟩, []⟩

/-- Its members. -/
def sampleMembers (n : Nat) : List Member := [.init, .fs, .nproc].map (sampleMember n)

/-- The tokens that `jsmn` gives for it. -/
def sampleParse (n : Nat) (_ : Str) : Except Int (List JsmnTok) :=
  .ok (⟨.object, 0, 30 + n⟩ :: (sampleMembers n).flatMap Member.tokens)

/-- The number 12 is read. -/
theorem parseSpec_reads_twelve :
    SpecRead (sampleParse 2) (sampleText [49, 50]) (sampleMember 2) ⟨[], [], 0⟩ := by
  have hj : sampleParse 2 (sampleText [49, 50]) =
      .ok (⟨.object, 0, 32⟩ :: (sampleMembers 2).flatMap Member.tokens) := rfl
  refine (parseSpec_reads_iff rfl hj ⟨by decide, by decide, by decide⟩
    ⟨by decide, rfl, rfl, rfl, forall_iff_forall_mem.mp (by decide), by decide⟩
    (by unfold Plain; decide)).mpr ?_
  decide

/-- **`nproc_str` is overrun** by the number 12345 of 5 digits. -/
theorem parseSpec_overruns : SpecDoc (sampleText [49, 50, 51, 52, 53]) (sampleMembers 5) ∧
    SpecBinds (sampleText [49, 50, 51, 52, 53]) (sampleMembers 5) (sampleMember 5) ∧
    parseSpec (sampleParse 5) (sampleText [49, 50, 51, 52, 53]) ⟨[], [], 0⟩ =
      .error (.fault "a string overruns its buffer") :=
  ⟨⟨by decide, by decide, by decide⟩,
    ⟨by decide, rfl, rfl, rfl, forall_iff_forall_mem.mp (by decide), by decide⟩, rfl⟩

end Xv6
