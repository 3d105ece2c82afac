import Mathlib.Data.List.Nodup

/-!
# Lists that are searched by a key

Some elements of a list have a key, and the list stands for a map: for a key, its first element
counts (`firstWith`). The list is split where that element is (`FirstAt`), which says what becomes
of the map when the element is replaced or removed, and when one with a new key is added.
-/

namespace Vlibc

open List Option

variable {α κ : Type*} {key key' : α → Option κ} {k k' : κ} {a b : α} {l l₁ l₂ pre post : List α}

/-- `a` is the first element with the key `k`; `pre` stands before it and `post` behind it. -/
structure FirstAt (key : α → Option κ) (k : κ) (l pre : List α) (a : α) (post : List α) : Prop where
  eq : l = pre ++ a :: post
  has : key a = some k
  before : ∀ b ∈ pre, key b ≠ some k

theorem FirstAt.mem (h : FirstAt key k l pre a post) : a ∈ l := by
  rw [h.eq]
  exact mem_append_right _ mem_cons_self

theorem FirstAt.mem_of_mem (h : FirstAt key k l pre a post) (hb : b ∈ pre ++ post) : b ∈ l := by
  rw [h.eq]
  simp only [mem_append, mem_cons] at hb ⊢
  tauto

theorem FirstAt.replace (h : FirstAt key k l pre a post) (hb : key b = some k) :
    FirstAt key k (pre ++ b :: post) pre b post := ⟨rfl, hb, h.before⟩

theorem FirstAt.length_unique {pre' post' : List α} {a' : α} (h : FirstAt key k l pre a post)
    (h' : FirstAt key k l pre' a' post') : pre.length = pre'.length := by
  have hle : ∀ {p₁ p₂ q₁ q₂ : List α} {x₁ x₂ : α}, FirstAt key k l p₁ x₁ q₁ →
      FirstAt key k l p₂ x₂ q₂ → ¬ p₁.length < p₂.length := by
    intro p₁ p₂ q₁ q₂ x₁ x₂ h₁ h₂ hlt
    have heq : l[p₁.length]? = some x₁ := by simp [h₁.eq]
    rw [h₂.eq, getElem?_append_left hlt] at heq
    exact h₂.before x₁ (mem_of_getElem? heq) h₁.has
  exact Nat.le_antisymm (Nat.not_lt.1 (hle h' h)) (Nat.not_lt.1 (hle h h'))

/-! ## The map -/

section Map

variable [DecidableEq κ]

/-- The first element with a key. -/
def firstWith (key : α → Option κ) (k : κ) (l : List α) : Option α := l.find? fun a => key a = some k

theorem firstWith_eq_none_iff : firstWith key k l = none ↔ ∀ b ∈ l, key b ≠ some k := by
  simp [firstWith, find?_eq_none]

theorem firstWith_append :
    firstWith key k (l₁ ++ l₂) = (firstWith key k l₁).or (firstWith key k l₂) :=
  find?_append

theorem firstWith_append_left (h : ∀ b ∈ l₁, key b ≠ some k) :
    firstWith key k (l₁ ++ l₂) = firstWith key k l₂ := by
  rw [firstWith_append, firstWith_eq_none_iff.2 h, none_or]

theorem firstWith_append_right (h : ∀ b ∈ l₂, key b ≠ some k) :
    firstWith key k (l₁ ++ l₂) = firstWith key k l₁ := by
  rw [firstWith_append, firstWith_eq_none_iff.2 h, or_none]

theorem firstWith_cons_self (h : key a = some k) : firstWith key k (a :: l) = some a := by
  simp [firstWith, h]

theorem firstWith_cons_ne (h : key a ≠ some k) : firstWith key k (a :: l) = firstWith key k l := by
  simp [firstWith, h]

theorem mem_of_firstWith (h : firstWith key k l = some a) : a ∈ l := mem_of_find?_eq_some h

theorem firstWith_congr (h : ∀ b ∈ l, key b = key' b) : firstWith key k l = firstWith key' k l := by
  induction l with
  | nil => rfl
  | cons a l ih =>
    have ha := h a mem_cons_self
    have ih := ih fun b hb => h b (mem_cons_of_mem a hb)
    by_cases hk : key a = some k
    · rw [firstWith_cons_self hk, firstWith_cons_self (ha ▸ hk)]
    · rw [firstWith_cons_ne hk, firstWith_cons_ne (ha ▸ hk), ih]

theorem firstWith_cases (key : α → Option κ) (k : κ) (l : List α) :
    (∀ b ∈ l, key b ≠ some k) ∨ ∃ pre a post, FirstAt key k l pre a post := by
  induction l with
  | nil => exact .inl fun b hb => absurd hb not_mem_nil
  | cons a l ih =>
    by_cases ha : key a = some k
    · exact .inr ⟨[], a, l, rfl, ha, fun b hb => absurd hb not_mem_nil⟩
    · obtain h | ⟨pre, a', post, h⟩ := ih
      · exact .inl (forall_mem_cons.2 ⟨ha, h⟩)
      · exact .inr ⟨a :: pre, a', post, by rw [h.eq]; rfl, h.has, forall_mem_cons.2 ⟨ha, h.before⟩⟩

namespace FirstAt

theorem firstWith_eq (h : FirstAt key k l pre a post) : firstWith key k l = some a := by
  rw [h.eq, firstWith_append_left h.before, firstWith_cons_self h.has]

theorem firstWith_replace_ne (h : FirstAt key k l pre a post) (hb : key b = some k) (hne : k' ≠ k) :
    firstWith key k' (pre ++ b :: post) = firstWith key k' l := by
  have hkey : ∀ c, key c = some k → key c ≠ some k' := fun c hc hc' =>
    hne (some.inj (hc'.symm.trans hc))
  rw [h.eq, firstWith_append, firstWith_append, firstWith_cons_ne (hkey b hb),
    firstWith_cons_ne (hkey a h.has)]

theorem firstWith_remove_ne (h : FirstAt key k l pre a post) (hne : k' ≠ k) :
    firstWith key k' (pre ++ post) = firstWith key k' l := by
  have ha : key a ≠ some k' := fun ha => hne (some.inj (ha.symm.trans h.has))
  rw [h.eq, firstWith_append, firstWith_append, firstWith_cons_ne ha]

theorem firstWith_remove (h : FirstAt key k l pre a post) :
    firstWith key k (pre ++ post) = firstWith key k post := firstWith_append_left h.before

theorem firstWith_remove_eq_none_iff (h : FirstAt key k l pre a post) :
    firstWith key k (pre ++ post) = none ↔ (l.filter fun b => key b = some k).length ≤ 1 := by
  have hpre : pre.filter (fun b => key b = some k) = [] :=
    filter_eq_nil_iff.2 fun b hb => by simpa using h.before b hb
  rw [h.firstWith_remove, firstWith_eq_none_iff, h.eq, filter_append, hpre, nil_append,
    filter_cons_of_pos (by simp [h.has]), length_cons, Nat.add_one_le_iff, Nat.lt_one_iff,
    length_eq_zero_iff, filter_eq_nil_iff]
  simp

theorem firstWith_remove_of_nodup (h : FirstAt key k l pre a post) (hd : (l.filterMap key).Nodup) :
    firstWith key k (pre ++ post) = none := by
  rw [h.firstWith_remove, firstWith_eq_none_iff]
  intro b hb hbk
  rw [h.eq, filterMap_append, filterMap_cons_some h.has] at hd
  exact (nodup_cons.1 (nodup_append.1 hd).2.1).1 (mem_filterMap.2 ⟨b, hb, hbk⟩)

end FirstAt

end Map

theorem nodup_append_of_absent (h : (l.filterMap key).Nodup) (ha : key a = some k)
    (hk : ∀ b ∈ l, key b ≠ some k) : ((l ++ [a]).filterMap key).Nodup := by
  rw [filterMap_append, filterMap_cons_some ha, filterMap_nil, nodup_append_comm]
  refine nodup_cons.2 ⟨fun hmem => ?_, h⟩
  obtain ⟨b, hb, hbk⟩ := mem_filterMap.1 hmem
  exact hk b hb hbk

theorem FirstAt.filterMap_replace (h : FirstAt key k l pre a post) (hb : key b = some k) :
    (pre ++ b :: post).filterMap key = l.filterMap key := by
  rw [h.eq, filterMap_append, filterMap_append, filterMap_cons_some hb, filterMap_cons_some h.has]

theorem FirstAt.filterMap_remove (h : FirstAt key k l pre a post) :
    ((pre ++ post).filterMap key).Sublist (l.filterMap key) := by
  rw [h.eq]
  exact ((Sublist.refl pre).append (sublist_cons_self a post)).filterMap key

end Vlibc
