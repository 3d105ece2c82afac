import Vlibc.Regex.Exec

/-!
# Patterns without groups

The patterns of characters, escapes, `.` and brackets, each with at most one of `*`, `+`, `?` behind
it, between anchors, in alternatives. A value of `Ere` is a pattern that is well formed, and
`Ere.text` its text; what its alternatives match is a language (`Branch.language`), in which the set
of an atom is what `matchone` accepts.

The set of a first bracket that begins with `-` depends on a byte that was never written, which is a
parameter.
-/

namespace Vlibc.Regex

open List

/-- The names of the classes. -/
inductive PosixClass
  | alnum | alpha | digit | lower | upper | space | xdigit | print | graph | cntrl | punct | blank
  deriving DecidableEq

/-- How a class is named. -/
def PosixClass.name : PosixClass → List UInt8
  | alnum => bytes "alnum"
  | alpha => bytes "alpha"
  | digit => bytes "digit"
  | lower => bytes "lower"
  | upper => bytes "upper"
  | space => bytes "space"
  | xdigit => bytes "xdigit"
  | print => bytes "print"
  | graph => bytes "graph"
  | cntrl => bytes "cntrl"
  | punct => bytes "punct"
  | blank => bytes "blank"

/-- What stands in a bracket: bytes, escapes and names. A range is three bytes. -/
inductive ClassElem
  | lit (c : UInt8)
  | esc (c : UInt8)
  | named (name : PosixClass)
  deriving DecidableEq

/-- How an element of a bracket is written. -/
def ClassElem.text : ClassElem → List UInt8
  | lit c => [c]
  | esc c => ['\\'.toUInt8, c]
  | named k => '['.toUInt8 :: ':'.toUInt8 :: (k.name ++ [':'.toUInt8, ']'.toUInt8])

/-- The text between the ends of a bracket. -/
def bodyText (body : List ClassElem) : List UInt8 := body.flatMap ClassElem.text

/-- A body that is read as it was meant: its bytes are neither `]` nor a backslash, and there is no
`[:` that does not begin a name. -/
def bodyOk : List ClassElem → Bool
  | [] => true
  | .lit c :: body =>
    c ≠ 0 && c ≠ ']'.toUInt8 && c ≠ '\\'.toUInt8 &&
      (c ≠ '['.toUInt8 || (bodyText body).head? ≠ some ':'.toUInt8) && bodyOk body
  | .esc c :: body => c ≠ 0 && bodyOk body
  | .named _ :: body => bodyOk body

/-- A bracket, or an inverted one. -/
structure Bracket where
  inv : Bool
  body : List ClassElem
  ok : bodyOk body
  caret : inv = false → (bodyText body).head? ≠ some '^'.toUInt8

namespace Bracket

variable (b : Bracket)

/-- The text of a bracket. -/
def text : List UInt8 :=
  '['.toUInt8 :: ((if b.inv then ['^'.toUInt8] else []) ++ bodyText b.body ++ [']'.toUInt8])

/-- The token of a bracket, with the byte that stands before its text. -/
def single (before : UInt8) : Single :=
  if b.inv then .invCharClass before (bodyText b.body) else .charClass before (bodyText b.body)

end Bracket

/-- A byte that stands for itself outside brackets. `]` and `}` do. -/
def Ordinary (c : UInt8) : Prop :=
  c ≠ 0 ∧ c ∉ bytes ".[()\x7b*+?^$|\\"

instance : DecidablePred Ordinary := fun _ => inferInstanceAs (Decidable (_ ∧ _))

theorem ordinary_a : Ordinary 'a'.toUInt8 := by decide

theorem ordinary_b : Ordinary 'b'.toUInt8 := by decide

/-- A byte that may stand behind a backslash where no backreference is meant. -/
def Escapable (c : UInt8) : Prop :=
  c ≠ 0 ∧ ¬('1'.toUInt8 ≤ c ∧ c ≤ '9'.toUInt8)

/-- What stands for one character. -/
inductive Atom
  | char (c : UInt8) (h : Ordinary c)
  | esc (c : UInt8) (h : Escapable c)
  | dot
  | bracket (b : Bracket)

namespace Atom

/-- How it is written. -/
def text : Atom → List UInt8
  | char c _ => [c]
  | esc c _ => ['\\'.toUInt8, c]
  | dot => ['.'.toUInt8]
  | bracket b => b.text

/-- The token, if `before` is the byte before the text of the next bracket. -/
def token (before : UInt8) : Atom → Token
  | char c _ => .single (.char c)
  | esc c _ => escapeToken c
  | dot => .single .dot
  | bracket b => .single (b.single before)

/-- The byte before the text of the next bracket. -/
def after (before : UInt8) : Atom → UInt8
  | bracket _ => 0
  | _ => before

/-- The set of characters, as `matchone` has it. -/
def accepts (before : UInt8) (a : Atom) (c : UInt8) : Bool := (a.token before).matchone c

end Atom

/-- The text of a repetition, and its quantifier. -/
def Rep.text : Rep → List UInt8
  | .one => []
  | .opt => ['?'.toUInt8]
  | .star => ['*'.toUInt8]
  | .plus => ['+'.toUInt8]

/-- The quantifier of a repetition. -/
def Rep.quant : Rep → Option Quant
  | .one => none
  | .opt => some .question
  | .star => some .star
  | .plus => some .plus

/-- An atom and how often it is repeated. -/
structure Item where
  atom : Atom
  rep : Rep

/-- The text of an item. -/
def Item.text (i : Item) : List UInt8 := i.atom.text ++ Rep.text i.rep

/-- The tokens of an item, from the one with number `j` on. -/
def Item.tokens (junk : Junk) (j : ℕ) (before : UInt8) (i : Item) : List Token :=
  i.atom.token before :: match Rep.quant i.rep with
    | none => []
    | some q => [.quant q (junk.ch (j + 1))]

/-- The tokens of items. -/
def itemTokens (junk : Junk) : (j : ℕ) → (before : UInt8) → List Item → List Token
  | _, _, [] => []
  | j, before, i :: items =>
    let ts := i.tokens junk j before
    ts ++ itemTokens junk (j + ts.length) (i.atom.after before) items

/-- The sets of a sequence of items, with their repetitions. -/
def accepted : (before : UInt8) → List Item → List ((UInt8 → Bool) × Rep)
  | _, [] => []
  | before, i :: items => (i.atom.accepts before, i.rep) :: accepted (i.atom.after before) items

/-- An alternative: items between anchors. -/
structure Branch where
  bol : Bool
  items : List Item
  eol : Bool

namespace Branch

variable (b : Branch)

/-- The text of a branch. -/
def text : List UInt8 :=
  (if b.bol then ['^'.toUInt8] else []) ++ b.items.flatMap Item.text ++
    if b.eol then ['$'.toUInt8] else []

/-- Its tokens. -/
def tokens (junk : Junk) : List Token :=
  let begins : List Token := if b.bol then [.begin] else []
  begins ++ itemTokens junk begins.length junk.ccl b.items ++ if b.eol then [.end_] else []

/-- What its tokens stand for. -/
def elems (before : UInt8) : List (Elem UInt8) := anchored b.bol (accepted before b.items) b.eol

/-- Its language, without the anchors. -/
def language (before : UInt8) : Language UInt8 := Vlibc.language (accepted before b.items)

/-- The alternative matches the part of the subject from `i` to `j`. -/
def Matches (before : UInt8) (s : List UInt8) (i j : ℕ) : Prop :=
  i ≤ j ∧ j ≤ s.length ∧ s.extract i j ∈ b.language before ∧ (b.bol → i = 0) ∧
    (b.eol → j = s.length)

end Branch

/-- An extended regular expression: alternatives. -/
structure Ere where
  branches : List Branch
  ne_nil : branches ≠ []

/-- Its text. -/
def Ere.text (e : Ere) : List UInt8 := ['|'.toUInt8].intercalate (e.branches.map Branch.text)

/-! ## Tokens and sequences -/

/-- The byte before the text of a bracket counts only if that begins with `-`. -/
theorem matchclass_before {c : UInt8} {ccl : List UInt8} (h : ccl.head? ≠ some '-'.toUInt8)
    (before before' : UInt8) : matchclass c 0 before ccl = matchclass c 0 before' ccl := by
  cases ccl with
  | nil => rfl
  | cons x s =>
    have hx : x ≠ '-'.toUInt8 := fun hx => h (congrArg some hx)
    rw [matchclass, matchclass]
    cases className x s with
    | some name => rfl
    | none =>
      by_cases hc : c = x
      · simp only [hc, if_true, hx, if_false]
      · simp only [hc, if_false]

theorem Atom.token_eq_single (before : UInt8) (a : Atom) : ∃ t, a.token before = .single t := by
  cases a with
  | char c h => exact ⟨_, rfl⟩
  | esc c h =>
    rw [token, escapeToken, if_neg h.2]
    split_ifs <;> exact ⟨_, rfl⟩
  | dot | bracket b => exact ⟨_, rfl⟩

theorem Atom.isChar_token (before : UInt8) (a : Atom) : (a.token before).IsChar := by
  obtain ⟨t, ht⟩ := a.token_eq_single before
  rw [ht]
  trivial

theorem itemTokens_append_ne_quant (junk : Junk) (j : ℕ) (before : UInt8) (items : List Item)
    {rest : List Token} (hrest : ∀ q ch ts, rest ≠ .quant q ch :: ts) (q : Quant) (ch : UInt8)
    (ts : List Token) : itemTokens junk j before items ++ rest ≠ .quant q ch :: ts := by
  cases items with
  | nil => exact hrest q ch ts
  | cons i items =>
    obtain ⟨t, ht⟩ := i.atom.token_eq_single before
    intro h
    have hhead : i.atom.token before = .quant q ch := (cons.inj h).1
    rw [ht] at hhead
    exact (nomatch hhead)

theorem elems_itemTokens (junk : Junk) (j : ℕ) (before : UInt8) (items : List Item)
    {rest : List Token} (hrest : ∀ q ch ts, rest ≠ .quant q ch :: ts) :
    Regex.elems (itemTokens junk j before items ++ rest) =
      itemElems (accepted before items) ++ Regex.elems rest := by
  induction items generalizing j before with
  | nil => rfl
  | cons i items ih =>
    obtain ⟨a, r⟩ := i
    rw [itemTokens, append_assoc, accepted, itemElems, map_cons, cons_append,
      ← itemElems, ← ih (j + (Item.tokens junk j before ⟨a, r⟩).length)]
    cases r with
    | one =>
      exact elems_char (a.isChar_token before) (itemTokens_append_ne_quant junk _ _ items hrest)
    | opt => exact elems_quant (a.isChar_token before) .question _ _
    | star => exact elems_quant (a.isChar_token before) .star _ _
    | plus => exact elems_quant (a.isChar_token before) .plus _ _

theorem Branch.elems_tokens (junk : Junk) (b : Branch) :
    Regex.elems (b.tokens junk) = b.elems junk.ccl := by
  have hend : ∀ q ch ts, (if b.eol then [Token.end_] else []) ≠ .quant q ch :: ts := by
    intro q ch ts
    cases b.eol <;> simp
  have hrest : Regex.elems (if b.eol then [Token.end_] else []) = if b.eol then [.eol] else [] := by
    cases b.eol <;> rfl
  rw [tokens, elems, anchored, ← hrest, append_assoc]
  cases b.bol with
  | false => exact elems_itemTokens junk 0 junk.ccl b.items hend
  | true => exact congrArg (Elem.bol :: ·) (elems_itemTokens junk 1 junk.ccl b.items hend)

theorem fits_itemTokens (size : Option ℕ) (junk : Junk) (j : ℕ) (before : UInt8)
    (items : List Item) : ∀ t ∈ itemTokens junk j before items, t.Fits size := by
  induction items generalizing j before with
  | nil => simp [itemTokens]
  | cons i items ih =>
    intro t ht
    rcases mem_append.1 ht with ht | ht
    · rcases mem_cons.1 ht with rfl | ht
      · obtain ⟨t, ht⟩ := i.atom.token_eq_single before
        rw [ht]
        trivial
      · cases hq : Rep.quant i.rep with
        | none => simp [hq] at ht
        | some q =>
          rw [hq, mem_singleton] at ht
          rw [ht]
          trivial
    · exact ih _ _ t ht

theorem Branch.fits_tokens (junk : Junk) (b : Branch) : ∀ t ∈ b.tokens junk, t.Fits none := by
  intro t ht
  rw [tokens, mem_append, mem_append] at ht
  rcases ht with (ht | ht) | ht
  · cases hbol : b.bol <;> simp [hbol] at ht
    rw [ht]
    trivial
  · exact fits_itemTokens _ _ _ _ _ t ht
  · cases heol : b.eol <;> simp [heol] at ht
    rw [ht]
    trivial

theorem Branch.spans_iff (b : Branch) (before : UInt8) (s : List UInt8) {i n : ℕ}
    (hi : i ≤ s.length) :
    Spans (b.elems before) i (s.drop i) n ↔ b.Matches before s i (i + n) := by
  rw [elems, spans_anchored, Matches, extract_eq_take_drop, length_drop,
    Nat.add_sub_cancel_left, language]
  constructor
  · rintro ⟨hbol, heol, hn, hmem⟩
    exact ⟨Nat.le_add_right _ _, by omega, hmem, hbol, fun h => by have := heol h; omega⟩
  · rintro ⟨-, hn, hmem, hbol, heol⟩
    exact ⟨hbol, fun h => by have := heol h; omega, by omega, hmem⟩

/-- **The indices** at which an alternative matches. -/
theorem Branch.mem_matchIndices (b : Branch) (before : UInt8) (s : List UInt8) {i : ℕ} :
    i ∈ matchIndices (b.elems before) 0 s ↔ ∃ j, b.Matches before s i j := by
  constructor
  · rintro ⟨-, hle, n, hspans⟩
    exact ⟨i + n, (b.spans_iff before s (by omega)).1 hspans⟩
  · rintro ⟨j, hmatch⟩
    obtain ⟨n, rfl⟩ := Nat.exists_eq_add_of_le hmatch.1
    have hle : i ≤ s.length := by have := hmatch.2.1; omega
    exact ⟨Nat.zero_le _, by omega, n, (b.spans_iff before s hle).2 hmatch⟩

end Vlibc.Regex
