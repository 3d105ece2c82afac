import Mathlib.Computability.Language

/-!
# Sequences of repeated items

A sequence of elements, each a set of characters with a number of repetitions, or an anchor. `Spans`
says which stretches of a text it matches. Without anchors these are the words of the product of the
languages of its items (`spans_itemElems`), and anchors tie them to the ends of the text
(`spans_anchored`).
-/

namespace Vlibc

open List

variable {α : Type*}

/-- How often an item is repeated. -/
inductive Rep
  | one
  | opt
  | star
  | plus
  deriving DecidableEq

/-- The numbers of repetitions. -/
def Rep.Allows : Rep → ℕ → Prop
  | one, n => n = 1
  | opt, n => n ≤ 1
  | star, _ => True
  | plus, n => 1 ≤ n

/-- An element of a sequence: a repeated set of characters, or an anchor to the begin or the end of
the text. -/
inductive Elem (α : Type*)
  | item (p : α → Bool) (r : Rep)
  | bol
  | eol

/-- How many characters at the front of the text are in the set. -/
def run (p : α → Bool) (text : List α) : ℕ := (text.takeWhile p).length

/-- The sequence matches the first `n` characters of `text`, which stands at `pos`. -/
def Spans : List (Elem α) → (pos : ℕ) → (text : List α) → (n : ℕ) → Prop
  | [], _, _, n => n = 0
  | .bol :: es, pos, text, n => pos = 0 ∧ Spans es pos text n
  | .eol :: es, pos, text, n => text = [] ∧ Spans es pos text n
  | .item p r :: es, pos, text, n =>
    ∃ m ≤ run p text, r.Allows m ∧ ∃ n', n = m + n' ∧ Spans es (pos + m) (text.drop m) n'

variable {p : α → Bool} {r : Rep} {es : List (Elem α)} {pos n m : ℕ} {text : List α}

theorem run_le_length (p : α → Bool) (text : List α) : run p text ≤ text.length :=
  (takeWhile_sublist p).length_le

theorem Spans.le_length (h : Spans es pos text n) : n ≤ text.length := by
  induction es generalizing pos text n with
  | nil => exact h.le.trans (Nat.zero_le _)
  | cons e es ih =>
    cases e with
    | bol | eol => exact ih h.2
    | item p r =>
      obtain ⟨m, hm, -, n', rfl, hn'⟩ := h
      have hrest := ih hn'
      have hrun := run_le_length p text
      rw [length_drop] at hrest
      omega

theorem spans_append {es' : List (Elem α)} :
    Spans (es ++ es') pos text n ↔
      ∃ m m', n = m + m' ∧ Spans es pos text m ∧ Spans es' (pos + m) (text.drop m) m' := by
  induction es generalizing pos text n with
  | nil => simp [Spans]
  | cons e es ih =>
    cases e with
    | bol =>
      simp only [cons_append, Spans, ih]
      constructor
      · rintro ⟨hpos, m, m', rfl, h, h'⟩
        exact ⟨m, m', rfl, ⟨hpos, h⟩, h'⟩
      · rintro ⟨m, m', rfl, ⟨hpos, h⟩, h'⟩
        exact ⟨hpos, m, m', rfl, h, h'⟩
    | eol =>
      simp only [cons_append, Spans, ih]
      constructor
      · rintro ⟨htext, m, m', rfl, h, h'⟩
        exact ⟨m, m', rfl, ⟨htext, h⟩, h'⟩
      · rintro ⟨m, m', rfl, ⟨htext, h⟩, h'⟩
        exact ⟨htext, m, m', rfl, h, h'⟩
    | item p r =>
      simp only [cons_append, Spans, ih]
      constructor
      · rintro ⟨m, hm, hr, _, rfl, l, m', rfl, h, h'⟩
        refine ⟨m + l, m', by omega, ⟨m, hm, hr, l, rfl, h⟩, ?_⟩
        rwa [← drop_drop, ← add_assoc]
      · rintro ⟨_, m', rfl, ⟨m, hm, hr, l, rfl, h⟩, h'⟩
        refine ⟨m, hm, hr, l + m', by omega, l, m', rfl, h, ?_⟩
        rwa [drop_drop, add_assoc]

/-! ## Languages -/

open scoped Computability

/-- The words of one character from a set. -/
def charSet (p : α → Bool) : Language α := {w | ∃ c, p c ∧ w = [c]}

/-- The language of an item with its repetition. -/
def Rep.language (l : Language α) : Rep → Language α
  | one => l
  | opt => 1 + l
  | star => l∗
  | plus => l * l∗

/-- The language of a sequence of items. -/
def language (items : List ((α → Bool) × Rep)) : Language α :=
  (items.map fun i => i.2.language (charSet i.1)).prod

/-- The items as elements of a pattern. -/
def itemElems (items : List ((α → Bool) × Rep)) : List (Elem α) :=
  items.map fun i => .item i.1 i.2

variable {w : List α}

theorem mem_charSet : w ∈ charSet p ↔ ∃ c, p c ∧ w = [c] := .rfl

theorem language_append (items items' : List ((α → Bool) × Rep)) :
    language (items ++ items') = language items * language items' := by
  rw [language, map_append, prod_append, language, language]

theorem language_singleton (i : (α → Bool) × Rep) :
    language [i] = i.2.language (charSet i.1) := by
  rw [language, map_singleton, prod_singleton]

theorem mem_pow_charSet : w ∈ charSet p ^ n ↔ (∀ c ∈ w, p c) ∧ w.length = n := by
  induction n generalizing w with
  | zero =>
    rw [pow_zero, Language.mem_one, length_eq_zero_iff]
    exact ⟨by rintro rfl; simp, And.right⟩
  | succ n ih =>
    rw [pow_succ', Language.mem_mul]
    constructor
    · rintro ⟨_, ⟨c, hc, rfl⟩, v, hv, rfl⟩
      obtain ⟨hall, rfl⟩ := ih.1 hv
      exact ⟨forall_mem_cons.2 ⟨hc, hall⟩, rfl⟩
    · rintro ⟨hall, hlength⟩
      obtain ⟨c, v, rfl⟩ := exists_cons_of_length_eq_add_one hlength
      obtain ⟨hc, hall⟩ := forall_mem_cons.1 hall
      exact ⟨[c], ⟨c, hc, rfl⟩, v, ih.2 ⟨hall, Nat.succ.inj hlength⟩, rfl⟩

theorem Rep.mem_language {l : Language α} :
    w ∈ r.language l ↔ ∃ n, r.Allows n ∧ w ∈ l ^ n := by
  cases r with
  | one => simp [Rep.language, Rep.Allows]
  | opt =>
    constructor
    · rintro (h | h)
      · exact ⟨0, Nat.zero_le _, by rwa [pow_zero]⟩
      · exact ⟨1, le_rfl, by rwa [pow_one]⟩
    · rintro ⟨n, hn, h⟩
      rcases Nat.le_one_iff_eq_zero_or_eq_one.1 hn with rfl | rfl
      · exact .inl (by rwa [pow_zero] at h)
      · exact .inr (by rwa [pow_one] at h)
  | star => simp [Rep.language, Rep.Allows, Language.kstar_eq_iSup_pow, Language.mem_iSup]
  | plus =>
    simp only [Rep.language, Rep.Allows, Language.kstar_eq_iSup_pow, Language.mul_iSup, ← pow_succ',
      Language.mem_iSup]
    constructor
    · rintro ⟨n, h⟩
      exact ⟨n + 1, Nat.le_add_left _ _, h⟩
    · rintro ⟨n, hn, h⟩
      exact ⟨n - 1, by rwa [Nat.sub_add_cancel hn]⟩

theorem Rep.mem_language_charSet :
    w ∈ r.language (charSet p) ↔ (∀ c ∈ w, p c) ∧ r.Allows w.length := by
  rw [Rep.mem_language]
  constructor
  · rintro ⟨n, hn, h⟩
    obtain ⟨hall, rfl⟩ := mem_pow_charSet.1 h
    exact ⟨hall, hn⟩
  · rintro ⟨hall, hr⟩
    exact ⟨w.length, hr, mem_pow_charSet.2 ⟨hall, rfl⟩⟩

theorem le_run_iff : m ≤ run p text ↔ m ≤ text.length ∧ ∀ c ∈ text.take m, p c := by
  induction text generalizing m with
  | nil => simp [run]
  | cons c text ih =>
    cases m with
    | zero => simp
    | succ m =>
      cases hc : p c with
      | false => simp [run, hc]
      | true =>
        have hrun : run p (c :: text) = run p text + 1 := by simp [run, hc]
        simp [hrun, ih, hc]

variable {items : List ((α → Bool) × Rep)}

/-- **The stretches that items match are the words of their language.** -/
theorem spans_itemElems :
    Spans (itemElems items) pos text n ↔ n ≤ text.length ∧ text.take n ∈ language items := by
  induction items generalizing pos text n with
  | nil =>
    simp only [itemElems, map_nil, Spans, language, prod_nil, Language.mem_one, take_eq_nil_iff]
    constructor
    · rintro rfl
      exact ⟨Nat.zero_le _, .inl rfl⟩
    · rintro ⟨hn, rfl | rfl⟩
      · rfl
      · exact Nat.le_zero.1 hn
  | cons i items ih =>
    have hlang : language (i :: items) = i.2.language (charSet i.1) * language items := by
      simp [language]
    have hspans : Spans (itemElems (i :: items)) pos text n ↔ ∃ m ≤ run i.1 text, i.2.Allows m ∧
        ∃ n', n = m + n' ∧ Spans (itemElems items) (pos + m) (text.drop m) n' := .rfl
    rw [hlang, hspans, Language.mem_mul]
    constructor
    · rintro ⟨m, hm, hr, n', rfl, h⟩
      obtain ⟨hle, hall⟩ := le_run_iff.1 hm
      obtain ⟨hn', hmem⟩ := ih.1 h
      rw [length_drop] at hn'
      refine ⟨by omega, text.take m, ?_, (text.drop m).take n', hmem, List.take_add.symm⟩
      rw [Rep.mem_language_charSet, length_take_of_le hle]
      exact ⟨hall, hr⟩
    · rintro ⟨hn, u, hu, v, hv, huv⟩
      obtain ⟨hall, hr⟩ := Rep.mem_language_charSet.1 hu
      have hlength : n = u.length + v.length := by
        rw [← length_append, huv, length_take_of_le hn]
      obtain ⟨w, rfl⟩ : ∃ w, text = u ++ (v ++ w) :=
        ⟨text.drop n, by rw [← append_assoc, huv, take_append_drop]⟩
      refine ⟨u.length, le_run_iff.2 ?_, hr, v.length, hlength, ih.2 ?_⟩
      · rw [take_left]
        exact ⟨by simp, hall⟩
      · rw [drop_left, take_left]
        exact ⟨by simp, hv⟩

/-- Items between anchors. -/
def anchored (bol : Bool) (items : List ((α → Bool) × Rep)) (eol : Bool) : List (Elem α) :=
  (if bol then [.bol] else []) ++ itemElems items ++ if eol then [.eol] else []

theorem spans_anchored {bol eol : Bool} :
    Spans (anchored bol items eol) pos text n ↔
      (bol → pos = 0) ∧ (eol → n = text.length) ∧ n ≤ text.length ∧ text.take n ∈ language items := by
  have hend : Spans (itemElems items ++ if eol then [.eol] else []) pos text n ↔
      (eol → n = text.length) ∧ Spans (itemElems items) pos text n := by
    rw [spans_append]
    constructor
    · rintro ⟨m, m', rfl, h, h'⟩
      cases eol with
      | false =>
        obtain rfl : m' = 0 := h'
        exact ⟨(nomatch ·), h⟩
      | true =>
        obtain ⟨hdrop, rfl : m' = 0⟩ := h'
        exact ⟨fun _ => le_antisymm h.le_length (drop_eq_nil_iff.1 hdrop), h⟩
    · rintro ⟨heol, h⟩
      refine ⟨n, 0, rfl, h, ?_⟩
      cases eol with
      | false => exact rfl
      | true => exact ⟨drop_eq_nil_iff.2 (heol rfl).ge, rfl⟩
  have hitems : Spans (itemElems items) pos text n ↔ _ := spans_itemElems
  rw [← hitems, ← hend]
  cases bol with
  | false => simp [anchored]
  | true => simp [anchored, Spans]

end Vlibc
