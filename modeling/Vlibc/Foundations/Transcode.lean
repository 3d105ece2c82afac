import Mathlib.Data.List.Basic

/-!
# Codes, and conversion from one to another

A code gives some symbols a word, such that the first symbol of a text can be told from the text
(`Code`). A text is converted from one code to another symbol by symbol (`Transcodes`): the relation
is symmetric in the codes, and there is at most one result. A converter that runs out of room, or
that comes to a place where no symbol is, stops there (`Converted`).
-/

namespace Vlibc

open List Option

variable {α β γ : Type*}

/-- Words for some symbols. No word is empty, and what a text begins with is one symbol's word. -/
structure Code (α β : Type*) where
  word : α → Option (List β)
  ne_nil : ∀ {a w}, word a = some w → w ≠ []
  unique : ∀ {a b w w' r r'}, word a = some w → word b = some w' → w ++ r = w' ++ r' → a = b

namespace Code

/-- Fewer symbols have a word. -/
def restrict (C : Code α β) (p : α → Prop) [DecidablePred p] : Code α β where
  word a := if p a then C.word a else none
  ne_nil h := by
    split at h
    · exact C.ne_nil h
    · cases h
  unique h h' := by
    split at h
    · split at h'
      · exact C.unique h h'
      · cases h'
    · cases h

theorem restrict_word_eq_some {C : Code α β} {p : α → Prop} [DecidablePred p] {a : α}
    {w : List β} : (C.restrict p).word a = some w ↔ p a ∧ C.word a = some w := by
  change (if p a then C.word a else none) = some w ↔ _
  split <;> simp [*]

theorem word_unique (C : Code α β) {a b : α} {w w' r r' : List β} (h : C.word a = some w)
    (h' : C.word b = some w') (e : w ++ r = w' ++ r') : a = b ∧ w = w' ∧ r = r' := by
  obtain rfl := C.unique h h' e
  obtain rfl : w = w' := some.inj (h.symm.trans h')
  exact ⟨rfl, rfl, append_cancel_left e⟩

end Code

/-- `t` is the text `s` in the other code: the same symbols, one after the other. -/
inductive Transcodes (C : Code α β) (D : Code α γ) : List β → List γ → Prop
  | nil : Transcodes C D [] []
  | cons {a w v s t} (hw : C.word a = some w) (hv : D.word a = some v) (h : Transcodes C D s t) :
    Transcodes C D (w ++ s) (v ++ t)

variable {C : Code α β} {D : Code α γ} {s w r : List β} {t v : List γ} {k : ℕ}

namespace Transcodes

theorem symm (h : Transcodes C D s t) : Transcodes D C t s := by
  induction h with
  | nil => exact .nil
  | cons hw hv _ ih => exact .cons hv hw ih

theorem append (h : Transcodes C D w v) (h' : Transcodes C D s t) :
    Transcodes C D (w ++ s) (v ++ t) := by
  induction h with
  | nil => exact h'
  | cons hw hv _ ih =>
    rw [append_assoc, append_assoc]
    exact .cons hw hv ih

theorem head {a : α} {u : List γ} (h : Transcodes C D (w ++ s) t) (hw : C.word a = some w)
    (hv : D.word a = some u) : ∃ t', t = u ++ t' ∧ Transcodes C D s t' := by
  generalize e : w ++ s = text at h
  cases h with
  | nil => exact absurd (append_eq_nil_iff.1 e).1 (C.ne_nil hw)
  | cons hw' hv' h =>
    obtain ⟨rfl, rfl, rfl⟩ := C.word_unique hw hw' e
    obtain rfl := some.inj (hv.symm.trans hv')
    exact ⟨_, rfl, h⟩

theorem cancel (hp : Transcodes C D w v) (h : Transcodes C D (w ++ s) t) :
    ∃ t', t = v ++ t' ∧ Transcodes C D s t' := by
  induction hp generalizing t with
  | nil => exact ⟨t, rfl, h⟩
  | cons hw hv _ ih =>
    rw [append_assoc] at h
    obtain ⟨t₁, rfl, h₁⟩ := h.head hw hv
    obtain ⟨t₂, rfl, h₂⟩ := ih h₁
    exact ⟨t₂, (append_assoc ..).symm, h₂⟩

theorem eq_nil (h : Transcodes C D [] t) : t = [] := by
  generalize e : ([] : List β) = text at h
  cases h with
  | nil => rfl
  | cons hw _ _ => exact absurd (append_eq_nil_iff.1 e.symm).1 (C.ne_nil hw)

theorem length_le {m : ℕ} (hm : ∀ {a v}, D.word a = some v → v.length ≤ m)
    (h : Transcodes C D s t) : t.length ≤ m * s.length := by
  induction h with
  | nil => exact Nat.zero_le _
  | @cons a w v s t hw hv _ ih =>
    have hone : m * 1 ≤ m * w.length := Nat.mul_le_mul_left m (length_pos_iff.2 (C.ne_nil hw))
    have := hm hv
    rw [length_append, length_append, Nat.mul_add]
    omega

/-- **Conversion through a third code**, which has words for all symbols that the two have in
common. -/
theorem trans_iff {δ : Type*} {E : Code α δ} {u : List δ}
    (hD : ∀ {a w v}, C.word a = some w → E.word a = some v → ∃ x, D.word a = some x) :
    Transcodes C E s u ↔ ∃ t, Transcodes C D s t ∧ Transcodes D E t u := by
  constructor
  · intro h
    induction h with
    | nil => exact ⟨[], .nil, .nil⟩
    | cons hw hv _ ih =>
      obtain ⟨t, ht, ht'⟩ := ih
      obtain ⟨x, hx⟩ := hD hw hv
      exact ⟨x ++ t, .cons hw hx ht, .cons hx hv ht'⟩
  · rintro ⟨t, h, h'⟩
    induction h generalizing u with
    | nil => exact h'.eq_nil ▸ .nil
    | @cons a w v s t hw hv _ ih =>
      generalize e : v ++ t = text at h'
      cases h' with
      | nil => exact absurd (append_eq_nil_iff.1 e).1 (D.ne_nil hv)
      | cons hv' hx h' =>
        obtain ⟨rfl, rfl, rfl⟩ := D.word_unique hv hv' e
        exact .cons hw hx (ih h')

theorem exists_of_letters {m : ℕ}
    (h : ∀ c, ∃ a v, C.word a = some [c] ∧ D.word a = some v ∧ v.length ≤ m) (s : List β) :
    ∃ t, Transcodes C D s t ∧ t.length ≤ m * s.length := by
  induction s with
  | nil => exact ⟨[], .nil, Nat.zero_le _⟩
  | cons c s ih =>
    obtain ⟨t, ht, hlen⟩ := ih
    obtain ⟨a, v, hw, hv, hm⟩ := h c
    refine ⟨v ++ t, .cons hw hv ht, ?_⟩
    rw [length_append, length_cons, Nat.mul_succ]
    omega

end Transcodes

/-! ## Conversion with limited room -/

/-- The text does not begin with a symbol of both codes whose other word has room in `k` letters. -/
def Blocked (C : Code α β) (D : Code α γ) (s : List β) (k : ℕ) : Prop :=
  ∀ a w v r, C.word a = some w → D.word a = some v → s = w ++ r → k < v.length

theorem blocked_nil : Blocked C D [] k := fun _ _ _ _ hw _ e =>
  absurd (append_eq_nil_iff.1 e.symm).1 (C.ne_nil hw)

/-- With room for `k` letters the part `w` of `s` is converted, to `v`, and `r` is left. -/
structure Converted (C : Code α β) (D : Code α γ) (s : List β) (k : ℕ) (w : List β) (v : List γ)
    (r : List β) : Prop where
  eq : s = w ++ r
  transcodes : Transcodes C D w v
  room : v.length ≤ k
  stop : Blocked C D r (k - v.length)

namespace Converted

theorem of_blocked (h : Blocked C D s k) : Converted C D s k [] [] s :=
  ⟨rfl, .nil, Nat.zero_le _, h⟩

theorem cons {a : α} {u : List β} {x : List γ} (hu : C.word a = some u) (hx : D.word a = some x)
    (hk : x.length ≤ k) (h : Converted C D s (k - x.length) w v r) :
    Converted C D (u ++ s) k (u ++ w) (x ++ v) r := by
  have hroom := h.room
  have hlen : (x ++ v).length = x.length + v.length := length_append
  refine ⟨by rw [h.eq, append_assoc], .cons hu hx h.transcodes, by omega, ?_⟩
  rw [hlen, ← Nat.sub_sub]
  exact h.stop

theorem unique {w' r' : List β} {v' : List γ} (h : Converted C D s k w v r)
    (h' : Converted C D s k w' v' r') : w' = w ∧ v' = v ∧ r' = r := by
  obtain ⟨e, ht, hk, hs⟩ := h
  induction ht generalizing s k w' v' with
  | nil =>
    obtain ⟨e', ht', hk', -⟩ := h'
    cases ht' with
    | nil => exact ⟨rfl, rfl, e'.symm.trans e⟩
    | cons hw hv _ =>
      have hlt := hs _ _ _ _ hw hv ((e.symm.trans e').trans (append_assoc ..))
      simp only [length_nil, Nat.sub_zero, length_append] at hlt hk'
      omega
  | @cons a u x w v hu hx ht ih =>
    obtain ⟨e', ht', hk', hs'⟩ := h'
    simp only [length_append] at hk hs
    rw [append_assoc] at e
    cases ht' with
    | nil =>
      have hlt := hs' _ _ _ _ hu hx (e'.symm.trans e)
      simp only [length_nil, Nat.sub_zero] at hlt
      omega
    | @cons b u' x' w' v' hu' hx' ht' =>
      simp only [length_append] at hk' hs'
      rw [append_assoc] at e'
      obtain ⟨rfl, rfl, e₁⟩ := C.word_unique hu hu' (e.symm.trans e')
      obtain rfl := some.inj (hx.symm.trans hx')
      rw [← Nat.sub_sub] at hs hs'
      obtain ⟨rfl, rfl, rfl⟩ := ih (s := w ++ r) (k := k - x.length)
        ⟨e₁, ht', by omega, hs'⟩ rfl (by omega) hs
      exact ⟨rfl, rfl, rfl⟩

theorem whole (h : Transcodes C D s t) (hk : t.length ≤ k) : Converted C D s k s t [] :=
  ⟨(append_nil s).symm, h, hk, blocked_nil⟩

end Converted

end Vlibc
