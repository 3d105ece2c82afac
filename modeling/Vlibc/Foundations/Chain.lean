import Mathlib.Data.List.Nodup

/-!
# Null-terminated chains

`Chain next nil p l`: following `next` from `p` visits exactly the nodes `l`, in order, and then
ends at `nil`. A chain determines its nodes (`Chain.unique`), and because it ends it never visits a
node twice (`Chain.nodup`).
-/

namespace Vlibc

open List

variable {α : Type*} {next next' : α → α} {nil : α}

/-- The nodes met from `p` on, up to `nil`. -/
def Chain (next : α → α) (nil : α) : α → List α → Prop
  | p, [] => p = nil
  | p, b :: l => p = b ∧ b ≠ nil ∧ Chain next nil (next b) l

namespace Chain

variable {p : α}

@[simp] theorem nil_iff : Chain next nil p [] ↔ p = nil := .rfl

variable {l : List α} {b : α}

theorem cons_iff :
    Chain next nil p (b :: l) ↔ p = b ∧ b ≠ nil ∧ Chain next nil (next b) l := .rfl

theorem unique {l l' : List α} (h : Chain next nil p l) (h' : Chain next nil p l') :
    l = l' := by
  induction l generalizing p l' with
  | nil =>
    obtain rfl := nil_iff.1 h
    rcases l' with _ | ⟨b, l'⟩
    · rfl
    · exact absurd (cons_iff.1 h').1.symm (cons_iff.1 h').2.1
  | cons b l ih =>
    obtain ⟨rfl, hb, ht⟩ := cons_iff.1 h
    rcases l' with _ | ⟨c, l'⟩
    · exact absurd (nil_iff.1 h') hb
    · obtain ⟨rfl, -, ht'⟩ := cons_iff.1 h'
      rw [ih ht ht']

theorem head_mem (h : Chain next nil p l) (hp : p ≠ nil) : p ∈ l := by
  rcases l with _ | ⟨b, l⟩
  · exact absurd (nil_iff.1 h) hp
  · rw [(cons_iff.1 h).1]
    exact mem_cons_self

theorem suffix {s t : List α} (h : Chain next nil p (s ++ b :: t)) :
    Chain next nil b (b :: t) := by
  induction s generalizing p with
  | nil => exact cons_iff.2 ⟨rfl, (cons_iff.1 h).2⟩
  | cons c s ih => exact ih (cons_iff.1 h).2.2

/-- **A chain visits no node twice**: from a repeated node the rest of the chain would be its own
proper part. -/
theorem nodup (h : Chain next nil p l) : l.Nodup := by
  induction l generalizing p with
  | nil => exact nodup_nil
  | cons b l ih =>
    obtain ⟨rfl, hb, ht⟩ := cons_iff.1 h
    refine nodup_cons.2 ⟨fun hmem => ?_, ih ht⟩
    obtain ⟨s, t, rfl⟩ := append_of_mem hmem
    have e := congrArg List.length (unique h (suffix ht))
    simp only [length_cons, length_append] at e
    omega

theorem congr (h : Chain next nil p l) (hn : ∀ b ∈ l, next' b = next b) :
    Chain next' nil p l := by
  induction l generalizing p with
  | nil => exact h
  | cons b l ih =>
    obtain ⟨rfl, hb, ht⟩ := cons_iff.1 h
    refine cons_iff.2 ⟨rfl, hb, ?_⟩
    rw [hn p mem_cons_self]
    exact ih ht fun c hc => hn c (mem_cons_of_mem _ hc)

theorem push (h : Chain next nil p l) (hb : b ≠ nil) (hp : next' b = p)
    (hn : ∀ c ∈ l, next' c = next c) : Chain next' nil b (b :: l) :=
  cons_iff.2 ⟨rfl, hb, hp ▸ h.congr hn⟩

theorem pop (h : Chain next nil p (b :: l)) :
    Chain next nil (next b) l := (cons_iff.1 h).2.2

theorem unlink {p a b : α} {s t : List α} (h : Chain next nil p (s ++ a :: b :: t))
    (ha : next' a = next b) (hn : ∀ c ∈ s ++ a :: b :: t, c ≠ a → next' c = next c) :
    Chain next' nil p (s ++ a :: t) := by
  have hd := h.nodup
  induction s generalizing p with
  | nil =>
    obtain ⟨rfl, hp, hb⟩ := cons_iff.1 h
    refine cons_iff.2 ⟨rfl, hp, ?_⟩
    rw [ha]
    refine (pop hb).congr fun c hc => hn c (by simp [hc]) ?_
    rintro rfl
    simp [hc] at hd
  | cons c s ih =>
    obtain ⟨rfl, hp, ht⟩ := cons_iff.1 h
    have hne : p ≠ a := by
      rintro rfl
      simp at hd
    refine cons_iff.2 ⟨rfl, hp, ?_⟩
    rw [hn p (by simp) hne]
    exact ih ht (fun d hd' => hn d (mem_cons_of_mem _ hd')) (nodup_cons.1 hd).2

end Chain

end Vlibc
