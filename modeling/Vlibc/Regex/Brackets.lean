import Vlibc.Regex.Translate

/-!
# What a bracket accepts

Brackets of characters, ranges and class names (`SetExpr`). A bracket is meant to accept the union
of its items. `matchclass` skips one byte too many behind a class name, so that the item behind it
is clipped: a character is lost, of a range only its last character is left, and a name is read as
the bytes it is written with (`SetItem.residue`). `matchone_bracket_iff` says for every bracket and
every character when this makes no difference.
-/

namespace Vlibc.Regex

open Ctype List

/-- A byte that may stand in a bracket for itself. -/
def SetByte (x : UInt8) : Prop := x < 128 ∧ x ≠ 0 ∧ x ∉ bytes "[]\\-"

instance : DecidablePred SetByte := fun _ => inferInstanceAs (Decidable (_ ∧ _))

/-- The characters of a class. -/
def PosixClass.holds (c : UInt8) : PosixClass → Bool
  | alnum => isalnum c
  | alpha => isalpha c
  | digit => isdigit c
  | lower => islower c
  | upper => isupper c
  | space => isspace c
  | xdigit => isxdigit c
  | print => isprint c
  | graph => isgraph c
  | cntrl => iscntrl c
  | punct => ispunct c
  | blank => c = ' '.toUInt8 ∨ c = '\t'.toUInt8

/-- An item of a bracket. -/
inductive SetItem
  | char (x : UInt8) (hx : SetByte x)
  | range (a b : UInt8) (ha : SetByte a) (hb : SetByte b) (hle : a ≤ b)
  | named (k : PosixClass)

namespace SetItem

/-- The set that an item is meant to stand for. -/
def Contains (c : UInt8) : SetItem → Prop
  | char x _ => c = x
  | range a b _ _ _ => a ≤ c ∧ c ≤ b
  | named k => k.holds c

/-- How an item is written. -/
def elems : SetItem → List ClassElem
  | char x _ => [.lit x]
  | range a b _ _ _ => [.lit a, .lit '-'.toUInt8, .lit b]
  | named k => [.named k]

/-- What is left of the set if the first byte of the item is skipped. -/
def residue : SetItem → List UInt8
  | char _ _ => []
  | range _ b _ _ _ => [b]
  | named k => ':'.toUInt8 :: (k.name ++ [':'.toUInt8, ']'.toUInt8])

/-- A class name. -/
def isNamed : SetItem → Bool
  | named _ => true
  | _ => false

end SetItem

/-- The items that `matchclass` sees whole. With `clip` the first byte is skipped. -/
def kept : (clip : Bool) → List SetItem → List SetItem
  | _, [] => []
  | true, _ :: items => kept false items
  | false, i :: items => i :: kept i.isNamed items

/-- The items whose first byte it skips. -/
def clipped : (clip : Bool) → List SetItem → List SetItem
  | _, [] => []
  | true, i :: items => i :: clipped false items
  | false, i :: items => clipped i.isNamed items

/-- The text of items. -/
def itemsText (items : List SetItem) : List UInt8 := bodyText (items.flatMap SetItem.elems)

/-- A bracket of such items, or an inverted one. -/
structure SetExpr where
  inv : Bool
  items : List SetItem
  caret : inv = false → (itemsText items).head? ≠ some '^'.toUInt8

/-- The characters that a bracket is meant to accept. -/
def SetExpr.Accepts (e : SetExpr) (c : UInt8) : Prop :=
  if e.inv then ¬∃ i ∈ e.items, i.Contains c else ∃ i ∈ e.items, i.Contains c

theorem SetByte.ne {x : UInt8} (hx : SetByte x) {y : UInt8} (hy : y ∈ bytes "[]\\-") : x ≠ y :=
  fun h => hx.2.2 (h ▸ hy)

theorem bodyOk_items (items : List SetItem) : bodyOk (items.flatMap SetItem.elems) := by
  induction items with
  | nil => rfl
  | cons i items ih =>
    have hbyte {x : UInt8} (hx : SetByte x) {body : List ClassElem} (hbody : bodyOk body) :
        bodyOk (.lit x :: body) := by
      simp [bodyOk, hbody, hx.2.1, hx.ne (show '['.toUInt8 ∈ _ by decide),
        hx.ne (show ']'.toUInt8 ∈ _ by decide), hx.ne (show '\\'.toUInt8 ∈ _ by decide)]
    cases i with
    | char x hx => exact hbyte hx ih
    | range a b ha hb hle =>
      have hdash {body : List ClassElem} (hbody : bodyOk body) :
          bodyOk (.lit '-'.toUInt8 :: body) := by
        simp +decide [bodyOk, hbody]
      exact hbyte ha (hdash (hbyte hb ih))
    | named k => exact ih

/-- The bracket of an expression. -/
def SetExpr.bracket (e : SetExpr) : Bracket :=
  ⟨e.inv, e.items.flatMap SetItem.elems, bodyOk_items e.items, e.caret⟩

/-! ## `matchclass` -/

theorem matchPosixClass_name (c : UInt8) (k : PosixClass) : matchPosixClass c k.name = k.holds c := by
  cases k <;> simp +decide [matchPosixClass, PosixClass.holds]

section Matchclass

variable {c x : UInt8} {s : List UInt8} (before : UInt8)

theorem matchrange_of_head (hs : s.head? ≠ some '-'.toUInt8) : matchrange c x s = false := by
  simp [matchrange, hs]

theorem matchclass_byte (hc : c ≠ '-'.toUInt8) (hx : x ≠ '['.toUInt8) (hx' : x ≠ '\\'.toUInt8)
    (hs : s.head? ≠ some '-'.toUInt8) :
    matchclass c 0 before (x :: s) = (c = x || matchclass c 0 0 s) := by
  rw [matchclass, className, if_neg fun h => hx h.1]
  simp only [matchrange_of_head hs, Bool.false_eq_true, if_false, hx', hc]
  by_cases hcx : c = x
  · simp [hcx]
  · simp [hcx, matchclass_before hs x 0]

theorem matchclass_bytes {u : List UInt8} (hc : c ≠ '-'.toUInt8)
    (hu : ∀ x ∈ u, x ∉ bytes "[\\-") (hs : s.head? ≠ some '-'.toUInt8) :
    matchclass c 0 before (u ++ s) = (c ∈ u || matchclass c 0 0 s) := by
  induction u generalizing before with
  | nil => simpa using matchclass_before hs before 0
  | cons x u ih =>
    have hne (y : UInt8) (hy : y ∈ bytes "[\\-") : x ≠ y := fun h => hu x (.head _) (h ▸ hy)
    have hhead : (u ++ s).head? ≠ some '-'.toUInt8 := by
      cases u with
      | nil => exact hs
      | cons y u =>
        intro hy
        exact hu y (.tail _ (.head _)) (Option.some.inj hy ▸ by decide)
    rw [cons_append, matchclass_byte before hc (hne _ (by decide)) (hne _ (by decide)) hhead,
      ih 0 fun y hy => hu y (.tail _ hy)]
    simp [Bool.or_assoc]

theorem charValue_eq (c : UInt8) :
    charValue c = if c.toNat < 128 then (c.toNat : ℤ) else (c.toNat : ℤ) - 256 := by
  rw [charValue, BitVec.toInt_eq_toNat_cond, UInt8.toNat_toBitVec]
  split_ifs <;> omega

theorem charValue_le_iff {a b : UInt8} (ha : a < 128) (hb : b < 128) :
    charValue a ≤ charValue c ∧ charValue c ≤ charValue b ↔ a ≤ c ∧ c ≤ b := by
  have ha' : a.toNat < 128 := UInt8.lt_iff_toNat_lt.1 ha
  have hb' : b.toNat < 128 := UInt8.lt_iff_toNat_lt.1 hb
  have hc := c.toNat_lt
  rw [charValue_eq, charValue_eq, charValue_eq, UInt8.le_iff_toNat_le, UInt8.le_iff_toNat_le,
    if_pos ha', if_pos hb']
  split_ifs <;> omega

theorem matchclass_dash {b : UInt8} (hc : c ≠ '-'.toUInt8) (hb : SetByte b)
    (hs : s.head? ≠ some '-'.toUInt8) :
    matchclass c 0 before ('-'.toUInt8 :: b :: s) = (c = b || matchclass c 0 0 s) := by
  have hhead : (b :: s).head? ≠ some '-'.toUInt8 := fun h => hb.ne (by decide) (Option.some.inj h)
  rw [matchclass_byte before hc (by decide) (by decide) hhead, decide_eq_false hc, Bool.false_or,
    matchclass_byte 0 hc (hb.ne (by decide)) (hb.ne (by decide)) hs]

theorem matchclass_range {a b : UInt8} (hc : c ≠ '-'.toUInt8) (ha : SetByte a) (hb : SetByte b)
    (hle : a ≤ b) (hs : s.head? ≠ some '-'.toUInt8) :
    matchclass c 0 before (a :: '-'.toUInt8 :: b :: s) =
      (decide (a ≤ c ∧ c ≤ b) || matchclass c 0 0 s) := by
  have hrange : matchrange c a ('-'.toUInt8 :: b :: s) = decide (a ≤ c ∧ c ≤ b) := by
    simp [matchrange, hc, charValue_le_iff ha.1 hb.1]
  rw [matchclass, className, if_neg fun h => ha.ne (by decide) h.1]
  simp only [hrange]
  by_cases hmem : a ≤ c ∧ c ≤ b
  · simp [hmem]
  · have hca : c ≠ a := by
      rintro rfl
      exact hmem ⟨UInt8.le_refl c, hle⟩
    have hcb : c ≠ b := by
      rintro rfl
      exact hmem ⟨hle, UInt8.le_refl c⟩
    simp [hmem, ha.ne (show '\\'.toUInt8 ∈ _ by decide), hca, matchclass_dash a hc hb hs, hcb]

theorem matchclass_skip (u : List UInt8) (k : ℕ) :
    ∃ before', matchclass c (u.length + k) before (u ++ s) = matchclass c k before' s := by
  induction u generalizing before with
  | nil => exact ⟨before, by rw [length_nil, zero_add, nil_append]⟩
  | cons x u ih =>
    obtain ⟨before', h⟩ := ih x
    refine ⟨before', ?_⟩
    rw [length_cons, add_right_comm, cons_append, matchclass, h]

theorem findNameEnd_append {name : List UInt8} (hname : ∀ x ∈ name, x ≠ ':'.toUInt8) :
    findNameEnd (name ++ ':'.toUInt8 :: ']'.toUInt8 :: s) = some name := by
  induction name with
  | nil => simp [findNameEnd]
  | cons x name ih =>
    have hx := hname x (.head _)
    simp [findNameEnd, hx, ih fun y hy => hname y (.tail _ hy)]

theorem matchclass_named (k : PosixClass) :
    matchclass c 0 before ((ClassElem.named k).text ++ s) = (k.holds c || matchclass c 1 0 s) := by
  have htext : (ClassElem.named k).text ++ s =
      '['.toUInt8 :: (':'.toUInt8 :: (k.name ++ [':'.toUInt8, ']'.toUInt8]) ++ s) := by
    simp [ClassElem.text]
  have hname : className '['.toUInt8
      (':'.toUInt8 :: (k.name ++ [':'.toUInt8, ']'.toUInt8]) ++ s) = some k.name := by
    simpa [className] using findNameEnd_append fun x hx => (k.name_letters x hx).1
  obtain ⟨before', hskip⟩ := @matchclass_skip c s '['.toUInt8
    (':'.toUInt8 :: (k.name ++ [':'.toUInt8, ']'.toUInt8])) 1
  have hlength : (':'.toUInt8 :: (k.name ++ [':'.toUInt8, ']'.toUInt8])).length + 1 =
      k.name.length + 4 := by simp
  have hbefore : matchclass c 1 before' s = matchclass c 1 0 s := by cases s <;> rfl
  rw [hlength, hbefore] at hskip
  rw [htext, matchclass, hname]
  simp only [matchPosixClass_name, hskip]
  cases k.holds c <;> rfl

end Matchclass

/-! ## All items -/

theorem itemsText_cons (i : SetItem) (items : List SetItem) :
    itemsText (i :: items) = bodyText i.elems ++ itemsText items := by
  rw [itemsText, flatMap_cons, bodyText, flatMap_append]
  rfl

theorem head_itemsText (items : List SetItem) : (itemsText items).head? ≠ some '-'.toUInt8 := by
  cases items with
  | nil => exact (nomatch ·)
  | cons i items =>
    rw [itemsText_cons]
    cases i with
    | char x hx => exact fun h => hx.ne (by decide) (Option.some.inj h)
    | range a b ha hb hle => exact fun h => ha.ne (by decide) (Option.some.inj h)
    | named k => exact fun h => absurd (Option.some.inj h) (by decide)

section Items

variable {c : UInt8} {items : List SetItem}

open SetItem

theorem matchclass_item (hc : c ≠ '-'.toUInt8) (i : SetItem) (before : UInt8) :
    matchclass c 0 before (itemsText (i :: items)) = true ↔
      i.Contains c ∨ matchclass c (if i.isNamed then 1 else 0) 0 (itemsText items) = true := by
  have hhead := head_itemsText items
  rw [itemsText_cons]
  cases i with
  | char x hx =>
    have hbyte := matchclass_byte before hc (hx.ne (by decide)) (hx.ne (by decide)) hhead
    simp [bodyText, SetItem.elems, ClassElem.text, hbyte, Contains, isNamed]
  | range a b ha hb hle =>
    have hrange := matchclass_range before hc ha hb hle hhead
    simp [bodyText, SetItem.elems, ClassElem.text, hrange, Contains, isNamed]
  | named k =>
    have hnamed := matchclass_named (c := c) (s := itemsText items) before k
    simp [bodyText, SetItem.elems, hnamed, Contains, isNamed]

theorem matchclass_clipped (hc : c ≠ '-'.toUInt8) (i : SetItem) (before : UInt8) :
    matchclass c 1 before (itemsText (i :: items)) = true ↔
      c ∈ i.residue ∨ matchclass c 0 0 (itemsText items) = true := by
  have hhead := head_itemsText items
  rw [itemsText_cons]
  cases i with
  | char x hx =>
    change matchclass c 0 x (itemsText items) = true ↔ _
    simp [matchclass_before hhead x 0, residue]
  | range a b ha hb hle =>
    change matchclass c 0 a ('-'.toUInt8 :: b :: itemsText items) = true ↔ _
    simp [matchclass_dash a hc hb hhead, residue]
  | named k =>
    have hall : (named k).residue.all fun x => x ∉ bytes "[\\-" := by cases k <;> decide
    have hbytes : ∀ x ∈ (named k).residue, x ∉ bytes "[\\-" := fun x hx =>
      of_decide_eq_true (all_eq_true.1 hall x hx)
    have htext : matchclass c 1 before (bodyText (named k).elems ++ itemsText items) =
        matchclass c 0 '['.toUInt8 ((named k).residue ++ itemsText items) := by
      simp [bodyText, SetItem.elems, ClassElem.text, residue, matchclass]
    rw [htext, matchclass_bytes '['.toUInt8 hc hbytes hhead, Bool.or_eq_true, decide_eq_true_eq]

/-- **What `matchclass` accepts**: what is in an item that it sees whole, or in what is left of
another. -/
theorem matchclass_itemsText (hc : c ≠ '-'.toUInt8) (h0 : c ≠ 0) (items : List SetItem) (clip : Bool)
    (before : UInt8) : matchclass c (if clip then 1 else 0) before (itemsText items) = true ↔
      (∃ i ∈ kept clip items, i.Contains c) ∨ ∃ i ∈ clipped clip items, c ∈ i.residue := by
  induction items generalizing clip before with
  | nil => cases clip <;> simp [itemsText, bodyText, matchclass, kept, clipped, h0]
  | cons i items ih =>
    cases clip with
    | true =>
      have ih := ih false 0
      simp only [Bool.false_eq_true, if_false] at ih
      simp only [if_true, matchclass_clipped hc i before, ih, kept, clipped, exists_mem_cons_iff]
      exact or_left_comm
    | false =>
      simp only [Bool.false_eq_true, if_false, matchclass_item hc i before, ih, kept, clipped,
        exists_mem_cons_iff, or_assoc]

end Items

theorem SetExpr.matchone_iff (e : SetExpr) (before : UInt8) {c : UInt8} (hc : c ≠ '-'.toUInt8)
    (h0 : c ≠ 0) : (e.bracket.single before).matchone c = true ↔
      if e.inv then ¬((∃ i ∈ kept false e.items, i.Contains c) ∨
        ∃ i ∈ clipped false e.items, c ∈ i.residue)
      else (∃ i ∈ kept false e.items, i.Contains c) ∨ ∃ i ∈ clipped false e.items, c ∈ i.residue := by
  have hclass := matchclass_itemsText hc h0 e.items false before
  rw [if_neg Bool.false_ne_true] at hclass
  rw [← hclass, Bracket.single]
  cases hinv : e.inv with
  | true =>
    rw [if_pos (show e.bracket.inv = true from hinv), if_pos rfl, Bool.not_eq_true, ← Bool.not_eq_true']
    rfl
  | false =>
    rw [if_neg (show ¬e.bracket.inv = true by rw [show e.bracket.inv = false from hinv]; decide),
      if_neg Bool.false_ne_true]
    rfl

theorem exists_mem_iff (P : SetItem → Prop) (clip : Bool) (items : List SetItem) :
    (∃ i ∈ items, P i) ↔ (∃ i ∈ kept clip items, P i) ∨ ∃ i ∈ clipped clip items, P i := by
  induction items generalizing clip with
  | nil => simp [kept, clipped]
  | cons i items ih =>
    cases clip with
    | true =>
      rw [kept, clipped, exists_mem_cons_iff, exists_mem_cons_iff, ih false]
      exact or_left_comm
    | false => rw [kept, clipped, exists_mem_cons_iff, exists_mem_cons_iff, ih, or_assoc]

/-- **Whether a bracket accepts the union of its items**: for a character that is in an item that is
seen whole, or that is in a clipped item exactly if it is in what is left of one. -/
theorem matchone_bracket_iff (e : SetExpr) {c : UInt8} (hc : c ≠ '-'.toUInt8) (h0 : c ≠ 0)
    (junk : Junk) (j : ℕ) (st : Progress) (s : List UInt8) :
    ∃ t st', compileStep junk j st '['.toUInt8 (e.bracket.text.tail ++ s) = .ok (.single t, some s, st') ∧
      ((t.matchone c = true ↔ e.Accepts c) ↔
        (∃ i ∈ kept false e.items, i.Contains c) ∨
          ((∃ i ∈ clipped false e.items, i.Contains c) ↔
            ∃ i ∈ clipped false e.items, c ∈ i.residue)) := by
  refine ⟨_, _, e.bracket.compileStep junk j st s, ?_⟩
  have hunion (whole rest left : Prop) : (whole ∨ left ↔ whole ∨ rest) ↔ whole ∨ (rest ↔ left) := by
    by_cases whole <;> by_cases rest <;> by_cases left <;> simp [*]
  rw [e.matchone_iff _ hc h0, SetExpr.Accepts, exists_mem_iff (SetItem.Contains c) false e.items]
  cases e.inv with
  | true =>
    rw [if_pos rfl, if_pos rfl, not_iff_not]
    exact hunion _ _ _
  | false =>
    rw [if_neg Bool.false_ne_true, if_neg Bool.false_ne_true]
    exact hunion _ _ _

/-- The bracket `[[:digit:]a]`. -/
def digitOrA : SetExpr := ⟨false, [.named .digit, .char 'a'.toUInt8 (by decide)], by decide⟩

/-- `[[:digit:]a]` does not accept `a`. -/
theorem compileSingle_digitOrA : ∃ t, compileSingle (zeroJunk 0) digitOrA.bracket.text =
    .ok ([.single t], 0) ∧ t.matchone 'a'.toUInt8 = false ∧ digitOrA.Accepts 'a'.toUInt8 :=
  ⟨.charClass 0 (bytes "[:digit:]a"), by decide, by decide,
    .char 'a'.toUInt8 (by decide), by simp [digitOrA], rfl⟩

/-- The character `b`, which is in no item. -/
theorem matchone_bracket_b :
    ∃ t st', compileStep (zeroJunk 0) 0 ⟨1, [], 0⟩ '['.toUInt8 (bytes "[:digit:]a]") =
      .ok (.single t, some [], st') ∧ (t.matchone 'b'.toUInt8 = true ↔ digitOrA.Accepts 'b'.toUInt8) := by
  obtain ⟨t, st', hcompile, hiff⟩ := matchone_bracket_iff digitOrA (c := 'b'.toUInt8) (by decide)
    (by decide) (zeroJunk 0) 0 ⟨1, [], 0⟩ []
  refine ⟨t, st', hcompile, hiff.2 (.inr (iff_of_false ?_ ?_))⟩
  · rintro ⟨i, hi, hcontains⟩
    obtain rfl := mem_singleton.1 hi
    exact absurd hcontains (by unfold SetItem.Contains; decide)
  · rintro ⟨i, hi, hresidue⟩
    obtain rfl := mem_singleton.1 hi
    exact absurd hresidue not_mem_nil

end Vlibc.Regex
