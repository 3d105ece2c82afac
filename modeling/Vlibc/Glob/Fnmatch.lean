import Vlibc.Foundations.Wildcard
import Vlibc.Regex.Brackets
import Vlibc.Strings

/-!
# `fnmatch`

A pattern is read as characters, of which some are escaped (`tokens`), and these as elements
(`Parses`); the string has to be covered by the elements. `do_match` finds out whether it is
(`doMatch_iff`).

A place in the pattern is the list of the bytes from there on, with the terminator and what lies
behind it.
-/

namespace Vlibc.Fnmatch

open List

open Regex (charValue charValue_le_iff)

def FNM_NOESCAPE : ℕ := 0x01

def FNM_NOMATCH : ℕ := 1

/-- A character of a bracket, which may be escaped, and the place behind it. -/
def readChar (noescape : Bool) (p : List UInt8) : UInt8 × List UInt8 :=
  if p.headD 0 = '\\'.toUInt8 ∧ noescape = false ∧ p.tail.headD 0 ≠ 0 then
    (p.tail.headD 0, p.tail.tail)
  else (p.headD 0, p.tail)

/-- The loop of `match_range`: `ok`, and the place where it ends. -/
def rangeLoop (noescape : Bool) (c : UInt8) : ℕ → List UInt8 → Bool → Bool × List UInt8
  | 0, p, ok => (ok, p)
  | fuel + 1, p, ok =>
    if p.headD 0 = 0 ∨ p.headD 0 = ']'.toUInt8 then (ok, p)
    else
      let (start, p) := readChar noescape p
      if p.headD 0 = '-'.toUInt8 ∧ p.tail.headD 0 ≠ 0 ∧ p.tail.headD 0 ≠ ']'.toUInt8 then
        let (last, p) := readChar noescape p.tail
        rangeLoop noescape c fuel p
          (ok || decide (charValue start ≤ charValue c ∧ charValue c ≤ charValue last))
      else rangeLoop noescape c fuel p (ok || decide (start = c))

/-- `match_range`: whether the character matches, and the place behind the bracket. -/
def matchRange (noescape : Bool) (p : List UInt8) (c : UInt8) : Bool × List UInt8 :=
  let neg := decide (p.headD 0 = '!'.toUInt8 ∨ p.headD 0 = '^'.toUInt8)
  let p := if neg then p.tail else p
  let (ok, p) := rangeLoop noescape c p.length p false
  (if neg then !ok else ok, if p.headD 0 = ']'.toUInt8 then p.tail else p)

/-- The loop that tries the rest of the pattern at each place of the string but its end. -/
def starLoop (f : List UInt8 → Bool) : List UInt8 → Bool
  | [] => false
  | c :: s => f (c :: s) || starLoop f s

/-- `do_match`, for a pattern of less than `fuel` bytes. -/
def doMatch (noescape : Bool) : ℕ → List UInt8 → List UInt8 → Bool
  | 0, _, _ => false
  | fuel + 1, p, s =>
    if p.headD 0 = 0 then s.isEmpty
    else if p.headD 0 = '?'.toUInt8 then
      if s = [] then false else doMatch noescape fuel p.tail s.tail
    else if p.headD 0 = '*'.toUInt8 then
      if (p.tail.dropWhile (· = '*'.toUInt8)).headD 0 = 0 then true
      else starLoop (doMatch noescape fuel (p.tail.dropWhile (· = '*'.toUInt8))) s
    else if p.headD 0 = '['.toUInt8 then
      if s = [] then false
      else
        let (ok, p) := matchRange noescape p.tail (s.headD 0)
        if ok then doMatch noescape fuel p s.tail else false
    else if p.headD 0 = '\\'.toUInt8 ∧ noescape = false then
      -- at the end of the pattern `p` moves behind the terminator
      let pc := if p.tail.headD 0 = 0 then '\\'.toUInt8 else p.tail.headD 0
      if s.headD 0 ≠ pc then false else doMatch noescape fuel p.tail.tail s.tail
    else if s.headD 0 ≠ p.headD 0 then false
    else doMatch noescape fuel p.tail s.tail

/-- A backslash stands for itself. -/
def escapeOff (flags : ℕ) : Bool := decide (flags &&& FNM_NOESCAPE ≠ 0)

/-- `fnmatch`; `behind` is what lies behind the terminator of the pattern. -/
def fnmatch (pattern : CStr) (behind : List UInt8) (string : CStr) (flags : ℕ) : ℕ :=
  let p := pattern.bytes ++ 0 :: behind
  if doMatch (escapeOff flags) (p.length + 1) p string.bytes then 0 else FNM_NOMATCH

/-- A character of a pattern, and whether a backslash stood before it. -/
structure Tok where
  c : UInt8
  escaped : Bool
  deriving DecidableEq

/-- A character without a backslash. -/
def plain (c : Char) : Tok := ⟨c.toUInt8, false⟩

/-- The characters of a pattern. There are none if it ends in a backslash that is to escape
something. -/
def tokens (noescape : Bool) : List UInt8 → Option (List Tok)
  | [] => some []
  | [c] => if c = '\\'.toUInt8 ∧ noescape = false then none else some [⟨c, false⟩]
  | c :: d :: p =>
    if c = '\\'.toUInt8 ∧ noescape = false then (tokens noescape p).map (⟨d, true⟩ :: ·)
    else (tokens noescape (d :: p)).map (⟨c, false⟩ :: ·)

/-- An item of a bracket. -/
inductive Item where
  | char (c : UInt8)
  | range (a b : UInt8)

/-- The characters of an item. -/
def Item.Has : Item → UInt8 → Prop
  | char d, c => d = c
  | range a b, c => a ≤ c ∧ c ≤ b

/-- The characters and ranges in a bracket: a `-` between two characters makes a range of them. -/
def items : List Tok → List Item
  | [] => []
  | a :: b :: d :: ts =>
    if b = plain '-' then .range a.c d.c :: items ts else .char a.c :: items (b :: d :: ts)
  | a :: ts => .char a.c :: items ts

/-- An element of a pattern. -/
inductive Elem where
  | star
  | any
  | set (neg : Bool) (items : List Item)
  | lit (c : UInt8)

/-- The element of a bracket, from the characters between its ends. -/
def bracket : List Tok → Elem
  | [] => .set false []
  | t :: ts =>
    if t = plain '!' ∨ t = plain '^' then .set true (items ts) else .set false (items (t :: ts))

/-- What an element matches. -/
def Elem.wild : Elem → Wild UInt8
  | star => .star
  | any => .one fun _ => True
  | set false items => .one fun c => ∃ i ∈ items, i.Has c
  | set true items => .one fun c => ¬ ∃ i ∈ items, i.Has c
  | lit d => .one fun c => c = d

/-- A pattern and its elements. A bracket ends with the first `]` that is not escaped. -/
inductive Parses : List Tok → List Elem → Prop
  | nil : Parses [] []
  | star {ts es} (h : Parses ts es) : Parses (plain '*' :: ts) (.star :: es)
  | any {ts es} (h : Parses ts es) : Parses (plain '?' :: ts) (.any :: es)
  | set {body ts es} (hbody : plain ']' ∉ body) (h : Parses ts es) :
    Parses (plain '[' :: (body ++ plain ']' :: ts)) (bracket body :: es)
  | lit {t ts es} (hstar : t ≠ plain '*') (hany : t ≠ plain '?') (hset : t ≠ plain '[')
    (h : Parses ts es) : Parses (t :: ts) (.lit t.c :: es)

/-- Every bracket is closed; `inside` is whether the characters begin inside of one. -/
def closed : Bool → List Tok → Bool
  | inside, [] => !inside
  | false, t :: ts => closed (t = plain '[') ts
  | true, t :: ts => closed (t ≠ plain ']') ts

/-! ## Characters and bytes -/

/-- The bytes that a character was written with. -/
def Tok.raw (t : Tok) : List UInt8 := if t.escaped then ['\\'.toUInt8, t.c] else [t.c]

/-- A character that can be written in a pattern. -/
structure Tok.Valid (noescape : Bool) (t : Tok) : Prop where
  ne_zero : t.c ≠ 0
  escape : t.escaped = true → noescape = false
  backslash : t.escaped = false → t.c = '\\'.toUInt8 → noescape = true

variable {noescape : Bool} {t : Tok} {ts body : List Tok} {es : List Elem} {p m s : List UInt8}
  {c : UInt8}

/-- **The characters of a pattern** are written in it one after the other. -/
theorem tokens_eq_some (h : tokens noescape p = some ts) (h0 : 0 ∉ p) :
    p = ts.flatMap Tok.raw ∧ (∀ t ∈ ts, t.Valid noescape) ∧ ∀ t ∈ ts, t.c ∈ p := by
  fun_induction tokens noescape p generalizing ts with
  | case1 =>
    cases h
    simp
  | case2 => cases h
  | case3 c hc =>
    cases h
    have hvalid : (⟨c, false⟩ : Tok).Valid noescape :=
      ⟨fun e => h0 (e ▸ .head _), nofun, fun _ e =>
        Bool.eq_true_of_not_eq_false fun hn => hc ⟨e, hn⟩⟩
    exact ⟨rfl, by simpa using hvalid, by simp⟩
  | case4 c d p hc ih =>
    obtain ⟨ts, hts, rfl⟩ := Option.map_eq_some_iff.1 h
    obtain ⟨hp, hvalid, hmem⟩ := ih hts fun hz => h0 (.tail _ (.tail _ hz))
    have hd : (⟨d, true⟩ : Tok).Valid noescape :=
      ⟨fun e => h0 (e ▸ .tail _ (.head _)), fun _ => hc.2, nofun⟩
    refine ⟨?_, forall_mem_cons.2 ⟨hd, hvalid⟩, forall_mem_cons.2 ⟨?_, ?_⟩⟩
    · rw [flatMap_cons, ← hp, hc.1]
      rfl
    · exact .tail _ (.head _)
    · exact fun t ht => .tail _ (.tail _ (hmem t ht))
  | case5 c d p hc ih =>
    obtain ⟨ts, hts, rfl⟩ := Option.map_eq_some_iff.1 h
    obtain ⟨hp, hvalid, hmem⟩ := ih hts fun hz => h0 (.tail _ hz)
    have hd : (⟨c, false⟩ : Tok).Valid noescape :=
      ⟨fun e => h0 (e ▸ .head _), nofun, fun _ e =>
        Bool.eq_true_of_not_eq_false fun hn => hc ⟨e, hn⟩⟩
    refine ⟨?_, forall_mem_cons.2 ⟨hd, hvalid⟩, forall_mem_cons.2 ⟨?_, ?_⟩⟩
    · rw [flatMap_cons, ← hp]
      rfl
    · exact .head _
    · exact fun t ht => .tail _ (hmem t ht)

theorem readChar_raw (ht : t.Valid noescape) (m : List UInt8) :
    readChar noescape (t.raw ++ m) = (t.c, m) := by
  obtain ⟨c, escaped⟩ := t
  cases escaped with
  | true => exact if_pos ⟨rfl, ht.escape rfl, ht.ne_zero⟩
  | false =>
    refine if_neg fun h => ?_
    cases h.2.1.symm.trans (ht.backslash rfl h.1)

theorem headD_raw (t : Tok) (m : List UInt8) :
    (t.raw ++ m).headD 0 = if t.escaped then '\\'.toUInt8 else t.c := by
  obtain ⟨c, escaped⟩ := t
  cases escaped <;> rfl

theorem headD_raw_ne_zero (ht : t.Valid noescape) (m : List UInt8) : (t.raw ++ m).headD 0 ≠ 0 := by
  rw [headD_raw]
  split
  · decide
  · exact ht.ne_zero

theorem headD_raw_eq_iff {d : Char} (hd : d.toUInt8 ≠ '\\'.toUInt8) (t : Tok) (m : List UInt8) :
    (t.raw ++ m).headD 0 = d.toUInt8 ↔ t = plain d := by
  obtain ⟨c, escaped⟩ := t
  rw [headD_raw, plain, Tok.mk.injEq]
  cases escaped with
  | true => simpa using fun h => hd h.symm
  | false => simp

/-! ## Brackets -/

/-- The comparison of the source, of signed characters. -/
def Item.test (c : UInt8) : Item → Bool
  | char d => decide (d = c)
  | range a b => decide (charValue a ≤ charValue c ∧ charValue c ≤ charValue b)

theorem rangeLoop_raw (ht : t.Valid noescape) (hne : t ≠ plain ']') (fuel : ℕ) (ok : Bool) :
    rangeLoop noescape c (fuel + 1) (t.raw ++ m) ok =
      if m.headD 0 = '-'.toUInt8 ∧ m.tail.headD 0 ≠ 0 ∧ m.tail.headD 0 ≠ ']'.toUInt8 then
        rangeLoop noescape c fuel (readChar noescape m.tail).2
          (ok || (Item.range t.c (readChar noescape m.tail).1).test c)
      else rangeLoop noescape c fuel m (ok || (Item.char t.c).test c) := by
  have hhead : ¬ ((t.raw ++ m).headD 0 = 0 ∨ (t.raw ++ m).headD 0 = ']'.toUInt8) :=
    not_or.2 ⟨headD_raw_ne_zero ht m, fun h => hne ((headD_raw_eq_iff (by decide) t m).1 h)⟩
  rw [rangeLoop, if_neg hhead, readChar_raw ht]
  rfl

/-- **The loop of `match_range`** goes through the items of the bracket. -/
theorem rangeLoop_eq (hv : ∀ t ∈ body, t.Valid noescape) (hbody : plain ']' ∉ body) (fuel : ℕ)
    (hf : body.length ≤ fuel) (ok : Bool) :
    rangeLoop noescape c fuel (body.flatMap Tok.raw ++ ']'.toUInt8 :: m) ok =
      (ok || (items body).any (Item.test c), ']'.toUInt8 :: m) := by
  fun_induction items body generalizing fuel ok with
  | case1 =>
    rw [List.any_nil, Bool.or_false]
    cases fuel with
    | zero => rfl
    | succ fuel => exact if_pos (.inr rfl)
  | case2 a d ts ih =>
    obtain ⟨fuel, rfl⟩ : ∃ f, fuel = f + 1 := ⟨fuel - 1, by simp at hf; omega⟩
    simp only [List.forall_mem_cons] at hv
    simp only [List.mem_cons, not_or] at hbody
    obtain ⟨ha, -, hd, hts⟩ := hv
    obtain ⟨hane, -, hdne, htsne⟩ := hbody
    have hhead : ∀ m : List UInt8, (d.raw ++ m).headD 0 ≠ 0 ∧ (d.raw ++ m).headD 0 ≠ ']'.toUInt8 :=
      fun m => ⟨headD_raw_ne_zero hd m,
        fun h => hdne ((headD_raw_eq_iff (by decide) d m).1 h).symm⟩
    have hlen : ts.length ≤ fuel := by
      simp only [List.length_cons] at hf
      omega
    simp only [List.flatMap_cons, List.append_assoc]
    rw [rangeLoop_raw ha (Ne.symm hane), if_pos ⟨rfl, hhead _⟩]
    change rangeLoop noescape c fuel (readChar noescape (d.raw ++ _)).2
      (ok || (Item.range a.c (readChar noescape (d.raw ++ _)).1).test c) = _
    rw [readChar_raw hd, ih hts htsne fuel hlen, List.any_cons, Bool.or_assoc]
  | case3 a b d ts hb ih =>
    obtain ⟨fuel, rfl⟩ : ∃ f, fuel = f + 1 := ⟨fuel - 1, by simp at hf; omega⟩
    obtain ⟨ha, hrest⟩ := List.forall_mem_cons.1 hv
    have hane := List.ne_of_not_mem_cons hbody
    have hrestne := List.not_mem_of_not_mem_cons hbody
    have hlen : (b :: d :: ts).length ≤ fuel := Nat.le_of_succ_le_succ hf
    have hnot : ∀ m : List UInt8, (b.raw ++ m).headD 0 ≠ '-'.toUInt8 := fun m h =>
      hb ((headD_raw_eq_iff (by decide) b m).1 h)
    rw [List.flatMap_cons, List.append_assoc, rangeLoop_raw ha (Ne.symm hane), if_neg,
      ih hrest hrestne fuel hlen, List.any_cons, Bool.or_assoc]
    rintro ⟨h, -⟩
    rw [List.flatMap_cons, List.append_assoc] at h
    exact hnot _ h
  | case4 a ts hts ih =>
    obtain ⟨fuel, rfl⟩ : ∃ f, fuel = f + 1 := ⟨fuel - 1, by simp at hf; omega⟩
    obtain ⟨ha, hrest⟩ := List.forall_mem_cons.1 hv
    have hane := List.ne_of_not_mem_cons hbody
    have hrestne := List.not_mem_of_not_mem_cons hbody
    rw [List.flatMap_cons, List.append_assoc, rangeLoop_raw ha (Ne.symm hane), if_neg,
      ih hrest hrestne fuel (Nat.le_of_succ_le_succ hf), List.any_cons, Bool.or_assoc]
    -- a `-` that stands last in the bracket is a character
    rintro ⟨hdash, -, hclose⟩
    rcases ts with _ | ⟨b, _ | ⟨d, ts⟩⟩
    · exact absurd hdash (by decide : ']'.toUInt8 ≠ '-'.toUInt8)
    · rw [List.flatMap_cons, List.append_assoc] at hdash hclose
      obtain rfl := (headD_raw_eq_iff (by decide) b _).1 hdash
      exact hclose rfl
    · exact hts b d ts rfl

open Tok

theorem length_le_length_raw (ts : List Tok) (m : List UInt8) :
    ts.length ≤ (ts.flatMap Tok.raw ++ m).length := by
  induction ts with
  | nil => exact Nat.zero_le _
  | cons t ts ih =>
    have ht : 1 ≤ t.raw.length := by
      rw [raw]
      split <;> simp
    simp only [flatMap_cons, length_append, length_cons] at ih ⊢
    omega

/-- **`match_range`** decides whether the character is one of those that the bracket stands for, and
finds the place behind the bracket. -/
theorem matchRange_eq (hv : ∀ t ∈ body, t.Valid noescape) (hbody : plain ']' ∉ body)
    {neg : Bool} {l : List Item} (hset : bracket body = .set neg l) :
    matchRange noescape (body.flatMap Tok.raw ++ ']'.toUInt8 :: m) c =
      (if neg then !l.any (Item.test c) else l.any (Item.test c), m) := by
  have hneg : ∀ (t : Tok) (m : List UInt8),
      (t.raw ++ m).headD 0 = '!'.toUInt8 ∨ (t.raw ++ m).headD 0 = '^'.toUInt8 ↔
        t = plain '!' ∨ t = plain '^' := fun t m =>
    or_congr (headD_raw_eq_iff (by decide) t m) (headD_raw_eq_iff (by decide) t m)
  have hloop : ∀ body : List Tok, (∀ t ∈ body, t.Valid noescape) → plain ']' ∉ body →
      rangeLoop noescape c (body.flatMap Tok.raw ++ ']'.toUInt8 :: m).length
        (body.flatMap Tok.raw ++ ']'.toUInt8 :: m) false =
      ((items body).any (Item.test c), ']'.toUInt8 :: m) := fun body hv hbody => by
    rw [rangeLoop_eq hv hbody _ (length_le_length_raw body _), Bool.false_or]
  cases body with
  | nil =>
    cases hset
    rfl
  | cons t ts =>
    by_cases ht : t = plain '!' ∨ t = plain '^'
    · rw [bracket, if_pos ht] at hset
      cases hset
      have hl := hloop ts (List.forall_mem_cons.1 hv).2 (List.not_mem_of_not_mem_cons hbody)
      have htl : ∀ m, (t.raw ++ m).tail = m := by rcases ht with rfl | rfl <;> exact fun _ => rfl
      simp only [matchRange, List.flatMap_cons, List.append_assoc, decide_eq_true ((hneg t _).2 ht),
        if_true, htl, hl]
      rfl
    · rw [bracket, if_neg ht] at hset
      cases hset
      have hl := hloop (t :: ts) hv hbody
      have hnot : decide ((t.raw ++ (ts.flatMap Tok.raw ++ ']'.toUInt8 :: m)).headD 0 = '!'.toUInt8 ∨
          (t.raw ++ (ts.flatMap Tok.raw ++ ']'.toUInt8 :: m)).headD 0 = '^'.toUInt8) = false :=
        decide_eq_false (mt (hneg t _).1 ht)
      simp only [List.flatMap_cons, List.append_assoc] at hl ⊢
      simp only [matchRange, hnot, Bool.false_eq_true, if_false, hl]
      rfl

/-! ## The matcher -/

theorem starLoop_iff (f : List UInt8 → Bool) (s : List UInt8) :
    starLoop f s = true ↔ ∃ r, r ≠ [] ∧ r <:+ s ∧ f r = true := by
  induction s with
  | nil =>
    refine iff_of_false nofun ?_
    rintro ⟨r, hne, hr, -⟩
    exact hne (suffix_nil.1 hr)
  | cons c s ih =>
    rw [starLoop, Bool.or_eq_true, ih]
    constructor
    · rintro (h | ⟨r, hne, hr, h⟩)
      · exact ⟨c :: s, cons_ne_nil c s, suffix_refl _, h⟩
      · exact ⟨r, hne, hr.trans (suffix_cons c s), h⟩
    · rintro ⟨r, hne, hr, h⟩
      obtain rfl | hr := suffix_cons_iff.1 hr
      · exact .inl h
      · exact .inr ⟨r, hne, hr, h⟩

section Steps

theorem doMatch_nul (fuel : ℕ) (behind s : List UInt8) :
    doMatch noescape (fuel + 1) (0 :: behind) s = true ↔ s = [] := by
  rw [doMatch, headD_cons, if_pos rfl, List.isEmpty_iff]

theorem doMatch_any (fuel : ℕ) (m s : List UInt8) :
    doMatch noescape (fuel + 1) ('?'.toUInt8 :: m) s = true ↔
      ∃ c r, s = c :: r ∧ doMatch noescape fuel m r = true := by
  rw [doMatch, headD_cons, if_neg (by decide), if_pos rfl]
  cases s with
  | nil | cons c s => simp

theorem doMatch_set (fuel : ℕ) (m s : List UInt8) :
    doMatch noescape (fuel + 1) ('['.toUInt8 :: m) s = true ↔
      ∃ c r, s = c :: r ∧ (matchRange noescape m c).1 = true ∧
        doMatch noescape fuel (matchRange noescape m c).2 r = true := by
  rw [doMatch, List.headD_cons, if_neg (by decide), if_neg (by decide), if_neg (by decide),
    if_pos rfl]
  cases s with
  | nil => simp
  | cons c s => simp

theorem doMatch_star (fuel : ℕ) (m s : List UInt8) :
    doMatch noescape (fuel + 1) ('*'.toUInt8 :: m) s =
      if (m.dropWhile (· = '*'.toUInt8)).headD 0 = 0 then true
      else starLoop (doMatch noescape fuel (m.dropWhile (· = '*'.toUInt8))) s := by
  rw [doMatch, headD_cons, if_neg (by decide), if_neg (by decide), if_pos rfl]
  rfl

theorem doMatch_star_star (fuel : ℕ) (m s : List UInt8) :
    doMatch noescape (fuel + 1) ('*'.toUInt8 :: '*'.toUInt8 :: m) s =
      doMatch noescape (fuel + 1) ('*'.toUInt8 :: m) s := by
  rw [doMatch_star, doMatch_star, dropWhile_cons_of_pos (by decide)]

theorem doMatch_lit (ht : t.Valid noescape) (hstar : t ≠ plain '*') (hany : t ≠ plain '?')
    (hset : t ≠ plain '[') (fuel : ℕ) (m s : List UInt8) :
    doMatch noescape (fuel + 1) (t.raw ++ m) s = true ↔
      ∃ c r, s = c :: r ∧ c = t.c ∧ doMatch noescape fuel m r = true := by
  have hcompare : (if s.headD 0 ≠ t.c then false else doMatch noescape fuel m s.tail) = true ↔
      ∃ c r, s = c :: r ∧ c = t.c ∧ doMatch noescape fuel m r = true := by
    cases s with
    | nil => simp [ht.ne_zero.symm]
    | cons c s => simp
  have hne : ∀ {d : Char}, d.toUInt8 ≠ '\\'.toUInt8 → t ≠ plain d →
      (t.raw ++ m).headD 0 ≠ d.toUInt8 := fun hd h e => h ((headD_raw_eq_iff hd t m).1 e)
  rw [doMatch, if_neg (headD_raw_ne_zero ht m), if_neg (hne (by decide) hany),
    if_neg (hne (by decide) hstar), if_neg (hne (by decide) hset)]
  obtain ⟨d, escaped⟩ := t
  cases escaped with
  | true =>
    rw [if_pos ⟨rfl, ht.escape rfl⟩]
    change (if s.headD 0 ≠ (if d = 0 then _ else d) then false
      else doMatch noescape fuel m s.tail) = true ↔ _
    rw [if_neg ht.ne_zero]
    exact hcompare
  | false =>
    rw [if_neg fun h => Bool.eq_false_iff.1 h.2 (ht.backslash rfl h.1)]
    exact hcompare

end Steps

theorem test_iff_has (h : ∀ t ∈ body, t.c < 128) :
    ∀ i ∈ items body, i.test c = true ↔ i.Has c := by
  have hchar : ∀ d, (Item.char d).test c = true ↔ (Item.char d).Has c := fun d =>
    decide_eq_true_iff
  fun_induction items body with
  | case1 => exact fun i hi => absurd hi not_mem_nil
  | case2 a d ts ih =>
    simp only [forall_mem_cons] at h
    refine forall_mem_cons.2 ⟨?_, ih h.2.2.2⟩
    exact decide_eq_true_iff.trans (charValue_le_iff h.1 h.2.2.1)
  | case3 a b d ts hb ih | case4 a ts hts ih =>
    exact forall_mem_cons.2 ⟨hchar _, ih (forall_mem_cons.1 h).2⟩

theorem bracket_cases (h : ∀ t ∈ body, t.c < 128) :
    ∃ neg l, bracket body = .set neg l ∧ ∀ i ∈ l, ∀ c, i.test c = true ↔ i.Has c := by
  cases body with
  | nil => exact ⟨false, [], rfl, fun i hi => absurd hi not_mem_nil⟩
  | cons t ts =>
    rw [bracket]
    split
    · exact ⟨true, items ts, rfl, fun i hi c => test_iff_has (forall_mem_cons.1 h).2 i hi⟩
    · exact ⟨false, items (t :: ts), rfl, fun i hi c => test_iff_has h i hi⟩

theorem exists_bracket_wild (body : List Tok) : ∃ p, (bracket body).wild = .one p := by
  cases body with
  | nil => exact ⟨_, rfl⟩
  | cons t ts =>
    rw [bracket]
    split <;> exact ⟨_, rfl⟩

theorem Parses.head_cases (h : Parses ts es) (hv : ∀ t ∈ ts, t.Valid noescape) :
    (ts = [] ∧ es = []) ∨ (∃ ts' es', ts = plain '*' :: ts' ∧ es = .star :: es') ∨
    ∃ e es' p, es = e :: es' ∧ e.wild = .one p ∧
      ∀ m, (ts.flatMap Tok.raw ++ m).headD 0 ≠ 0 ∧
        (ts.flatMap Tok.raw ++ m).headD 0 ≠ '*'.toUInt8 := by
  have hhead : ∀ {t : Tok} {ts : List Tok}, t.Valid noescape → t ≠ plain '*' →
      ∀ m, ((t :: ts).flatMap raw ++ m).headD 0 ≠ 0 ∧
        ((t :: ts).flatMap raw ++ m).headD 0 ≠ '*'.toUInt8 := by
    intro t ts ht hstar m
    rw [flatMap_cons, append_assoc]
    exact ⟨headD_raw_ne_zero ht _, fun e => hstar ((headD_raw_eq_iff (by decide) t _).1 e)⟩
  have hfirst : ∀ {t : Tok} {ts' : List Tok}, ts = t :: ts' → t.Valid noescape :=
    fun e => hv _ (e ▸ .head _)
  cases h with
  | nil => exact .inl ⟨rfl, rfl⟩
  | star h => exact .inr (.inl ⟨_, _, rfl, rfl⟩)
  | any h => exact .inr (.inr ⟨_, _, _, rfl, rfl, hhead (hfirst rfl) (by decide)⟩)
  | @set body ts es hbody h =>
    obtain ⟨p, hp⟩ := exists_bracket_wild body
    exact .inr (.inr ⟨_, _, p, rfl, hp, hhead (hfirst rfl) (by decide)⟩)
  | lit hstar hany hset h => exact .inr (.inr ⟨_, _, _, rfl, rfl, hhead (hfirst rfl) hstar⟩)

theorem doMatch_star_iff (h : Parses ts es) (hv : ∀ t ∈ ts, t.Valid noescape) (fuel : ℕ)
    (behind s : List UInt8)
    (ih : ∀ fuel s, ts.length < fuel →
      (doMatch noescape fuel (ts.flatMap Tok.raw ++ 0 :: behind) s = true ↔
        Covers (es.map Elem.wild) s))
    (hf : ts.length < fuel) :
    doMatch noescape (fuel + 1) ('*'.toUInt8 :: (ts.flatMap Tok.raw ++ 0 :: behind)) s = true ↔
      Covers (.star :: es.map Elem.wild) s := by
  obtain ⟨rfl, rfl⟩ | ⟨ts', es', rfl, rfl⟩ | ⟨e, es', p, rfl, hp, hhead⟩ := h.head_cases hv
  · rw [doMatch_star]
    exact iff_of_true (if_pos rfl) covers_star_nil
  · have hcons : (plain '*' :: ts').flatMap raw ++ 0 :: behind =
        '*'.toUInt8 :: (ts'.flatMap raw ++ 0 :: behind) := rfl
    have hnext := ih (fuel + 1) s (Nat.lt_succ_of_lt hf)
    rw [hcons] at hnext ⊢
    rw [doMatch_star_star, hnext]
    exact covers_star_star.symm
  · obtain ⟨h0, hstar⟩ := hhead (0 :: behind)
    have hdrop : (ts.flatMap raw ++ 0 :: behind).dropWhile (· = '*'.toUInt8) =
        ts.flatMap raw ++ 0 :: behind := by
      cases hm : ts.flatMap raw ++ 0 :: behind with
      | nil => rfl
      | cons b m =>
        rw [hm] at hstar
        exact dropWhile_cons_of_neg (by simpa using hstar)
    rw [doMatch_star, hdrop, if_neg h0, starLoop_iff, map_cons, hp, covers_star_one]
    refine exists_congr fun r => and_congr_right fun _ => and_congr_right fun _ => ?_
    rw [ih fuel r hf, map_cons, hp]

/-- **`do_match`** finds out whether the string is covered by the elements of the pattern. -/
theorem doMatch_iff (h : Parses ts es) (hv : ∀ t ∈ ts, t.Valid noescape)
    (hascii : ∀ t ∈ ts, t.c < 128) (behind : List UInt8) (fuel : ℕ) (s : List UInt8)
    (hf : ts.length < fuel) :
    doMatch noescape fuel (ts.flatMap Tok.raw ++ 0 :: behind) s = true ↔
      Covers (es.map Elem.wild) s := by
  induction h generalizing fuel s with
  | nil =>
    obtain _ | fuel := fuel
    · omega
    rw [map_nil, covers_nil]
    exact doMatch_nul fuel behind s
  | @star ts es h ih =>
    obtain _ | fuel := fuel
    · omega
    have hv' := (forall_mem_cons.1 hv).2
    exact doMatch_star_iff h hv' fuel behind s (ih hv' (forall_mem_cons.1 hascii).2)
      (Nat.lt_of_succ_lt_succ hf)
  | @any ts es h ih =>
    obtain _ | fuel := fuel
    · omega
    have hnext := fun r => ih (forall_mem_cons.1 hv).2 (forall_mem_cons.1 hascii).2 fuel r
      (Nat.lt_of_succ_lt_succ hf)
    refine (doMatch_any fuel (ts.flatMap raw ++ 0 :: behind) s).trans ?_
    rw [map_cons, Elem.wild, covers_one]
    simp only [hnext, true_and]
  | @set body ts es hbody h ih =>
    obtain _ | fuel := fuel
    · omega
    simp only [forall_mem_cons, forall_mem_append] at hv hascii
    obtain ⟨-, hvbody, -, hv'⟩ := hv
    obtain ⟨-, hasciibody, -, hascii'⟩ := hascii
    have hlen : ts.length < fuel := by
      simp only [length_cons, length_append] at hf
      omega
    have hmem : (plain '[' :: (body ++ plain ']' :: ts)).flatMap raw ++ 0 :: behind =
        '['.toUInt8 :: (body.flatMap raw ++ ']'.toUInt8 ::
          (ts.flatMap raw ++ 0 :: behind)) := by
      simp [raw, plain]
    obtain ⟨neg, l, hset, htest⟩ := bracket_cases hasciibody
    have hany : ∀ c, l.any (Item.test c) = true ↔ ∃ i ∈ l, i.Has c := fun c => by
      rw [any_eq_true]
      exact exists_congr fun i => and_congr_right fun hi => htest i hi c
    rw [hmem, doMatch_set, map_cons, hset]
    simp only [matchRange_eq hvbody hbody hset, ih hv' hascii' fuel _ hlen]
    cases neg with
    | false => simp only [Elem.wild, covers_one, Bool.false_eq_true, if_false, hany]
    | true => simp only [Elem.wild, covers_one, if_true, Bool.not_eq_true', ← hany, Bool.not_eq_true]
  | @lit t ts es hstar hany hset h ih =>
    obtain _ | fuel := fuel
    · omega
    obtain ⟨ht, hv'⟩ := forall_mem_cons.1 hv
    have hnext := fun r => ih hv' (forall_mem_cons.1 hascii).2 fuel r (Nat.lt_of_succ_lt_succ hf)
    rw [flatMap_cons, append_assoc, doMatch_lit ht hstar hany hset, map_cons, Elem.wild, covers_one]
    simp only [hnext]

/-- The characters that mean something else in a pattern than themselves. -/
def wildcards : List UInt8 := (str "*?[\\").bytes

theorem doMatch_plain (hp : ∀ b ∈ p, b ∉ wildcards) (h0 : 0 ∉ p) (hs : 0 ∉ s) (fuel : ℕ)
    (hf : p.length < fuel) (behind : List UInt8) :
    doMatch noescape fuel (p ++ 0 :: behind) s = true ↔ s = p := by
  induction p generalizing s fuel with
  | nil =>
    obtain ⟨fuel, rfl⟩ : ∃ f, fuel = f + 1 := ⟨fuel - 1, by simp at hf; omega⟩
    rw [nil_append, doMatch_nul]
  | cons b p ih =>
    obtain ⟨fuel, rfl⟩ : ∃ f, fuel = f + 1 := ⟨fuel - 1, by simp at hf; omega⟩
    obtain ⟨hb, hp⟩ := forall_mem_cons.1 hp
    obtain ⟨hb0, h0⟩ := ne_and_not_mem_of_not_mem_cons h0
    obtain ⟨hstar, hany, hset, hesc⟩ : b ≠ '*'.toUInt8 ∧ b ≠ '?'.toUInt8 ∧ b ≠ '['.toUInt8 ∧
        b ≠ '\\'.toUInt8 := by
      refine ⟨?_, ?_, ?_, ?_⟩ <;>
      · rintro rfl
        exact hb (by decide)
    rw [cons_append, doMatch]
    simp only [headD_cons, tail_cons, hb0.symm, hany, hstar, hset, hesc, false_and, if_false]
    cases s with
    | nil => simp [hb0]
    | cons c s =>
      obtain ⟨-, hs⟩ := ne_and_not_mem_of_not_mem_cons hs
      have ih := ih hp h0 hs fuel (Nat.lt_of_succ_lt_succ hf)
      by_cases hc : c = b
      · simp [hc, ih]
      · simp [hc]

theorem fnmatch_plain {pattern : CStr} (hp : ∀ b ∈ pattern.bytes, b ∉ wildcards)
    (behind : List UInt8) (string : CStr) (flags : ℕ) :
    fnmatch pattern behind string flags = 0 ↔ string = pattern := by
  have hlen : pattern.bytes.length < (pattern.bytes ++ 0 :: behind).length + 1 := by
    rw [length_append]
    omega
  rw [CStr.ext_iff, ← doMatch_plain hp pattern.noNul string.noNul _ hlen behind, fnmatch]
  split_ifs with hm
  · exact iff_of_true rfl hm
  · exact iff_of_false (by decide) hm

theorem exists_parses_aux (ts : List Tok) :
    (closed false ts = true → ∃ es, Parses ts es) ∧
    (closed true ts = true → ∃ body rest es, ts = body ++ plain ']' :: rest ∧ plain ']' ∉ body ∧
      Parses rest es) := by
  induction ts with
  | nil => exact ⟨fun _ => ⟨[], .nil⟩, nofun⟩
  | cons t ts ih =>
    obtain ⟨ihout, ihin⟩ := ih
    constructor
    · intro h
      by_cases hset : t = plain '['
      · obtain ⟨body, rest, es, rfl, hbody, hes⟩ := ihin (by simpa [closed, hset] using h)
        exact ⟨bracket body :: es, hset ▸ .set hbody hes⟩
      · obtain ⟨es, hes⟩ := ihout (by simpa [closed, hset] using h)
        by_cases hstar : t = plain '*'
        · exact ⟨.star :: es, hstar ▸ .star hes⟩
        by_cases hany : t = plain '?'
        · exact ⟨.any :: es, hany ▸ .any hes⟩
        · exact ⟨.lit t.c :: es, .lit hstar hany hset hes⟩
    · intro h
      by_cases hclose : t = plain ']'
      · obtain ⟨es, hes⟩ := ihout (by simpa [closed, hclose] using h)
        exact ⟨[], ts, es, by rw [hclose]; rfl, List.not_mem_nil, hes⟩
      · obtain ⟨body, rest, es, rfl, hbody, hes⟩ := ihin (by simpa [closed, hclose] using h)
        exact ⟨t :: body, rest, es, rfl, List.not_mem_cons_of_ne_of_not_mem (Ne.symm hclose) hbody,
          hes⟩

/-- **A pattern whose brackets are closed** has elements. -/
theorem exists_parses (h : closed false ts = true) : ∃ es, Parses ts es := (exists_parses_aux ts).1 h

/-- **`fnmatch`.** For an ASCII pattern whose brackets are closed and that does not end in a backslash
which escapes nothing, whatever lies behind it: it matches the strings that can be split into pieces,
one for each element of the pattern. -/
theorem fnmatch_eq_zero_iff (pattern string : CStr) (behind : List UInt8) (flags : ℕ)
    (ts : List Tok) (htokens : tokens (escapeOff flags) pattern.bytes = some ts)
    (hclosed : closed false ts = true) (hascii : ∀ b ∈ pattern.bytes, b < 128) :
    ∃ es, Parses ts es ∧
      (fnmatch pattern behind string flags = 0 ↔ Covers (es.map Elem.wild) string.bytes) := by
  obtain ⟨es, hes⟩ := exists_parses hclosed
  obtain ⟨hraw, hv, hmem⟩ := tokens_eq_some htokens pattern.noNul
  refine ⟨es, hes, ?_⟩
  have hlen := length_le_length_raw ts (0 :: behind)
  rw [← hraw] at hlen
  have hiff := doMatch_iff hes hv (fun t ht => hascii _ (hmem t ht)) behind
    ((pattern.bytes ++ 0 :: behind).length + 1) string.bytes (Nat.lt_succ_of_le hlen)
  rw [← hraw] at hiff
  rw [← hiff, fnmatch]
  split_ifs with hm
  · exact iff_of_true rfl hm
  · exact iff_of_false (by decide) hm

theorem fnmatch_eq_zero_iff_source :
    ∃ ts es, tokens false (str "*.[ch]").bytes = some ts ∧ Parses ts es ∧
      fnmatch (str "*.[ch]") [] (str "a.c") 0 = 0 ∧
      Covers (es.map Elem.wild) (str "a.c").bytes := by
  obtain ⟨es, hes, h⟩ :=
    fnmatch_eq_zero_iff (str "*.[ch]") (str "a.c") [] 0 _ rfl (by decide) (by decide +kernel)
  have hmatch : fnmatch (str "*.[ch]") [] (str "a.c") 0 = 0 := by decide
  exact ⟨_, es, rfl, hes, hmatch, h.1 hmatch⟩

end Vlibc.Fnmatch
