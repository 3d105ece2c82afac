import Vlibc.Printf.Expansion
import Vlibc.Strings

/-!
# `vis` and `unvis`

The functions of `vis.c`. A byte is written as it is, as a backslash and a letter, or as a backslash
and three octal digits; with `VIS_CSTYLE` a NUL is a backslash and `0` if no octal digit follows
(`Written`). `unvis` takes the third octal digit, and behind `\0` the next character, for the end of
the number. So bytes are read back as they were written except for these two forms
(`unvis_vis_iff`).
-/

namespace Vlibc.Vis

open List

open Printf (expansion)

/-- Write every byte in octal. -/
def VIS_OCTAL : ℕ := 0x01

/-- Write control characters with the letters of C. -/
def VIS_CSTYLE : ℕ := 0x02

/-- Encode blanks. -/
def VIS_SP : ℕ := 0x04

/-- Encode tabs. -/
def VIS_TAB : ℕ := 0x08

/-- Encode newlines. -/
def VIS_NL : ℕ := 0x10

/-- Encode white space. -/
def VIS_WHITE : ℕ := VIS_SP ||| VIS_TAB ||| VIS_NL

/-- Leave backslashes as they are. -/
def VIS_NOSLASH : ℕ := 0x40

/-- A character is complete. -/
def UNVIS_VALID : ℤ := 1

/-- There is no character yet. -/
def UNVIS_NOCHAR : ℤ := 0

/-- The text is not one that `vis` writes. -/
def UNVIS_SYNBAD : ℤ := -1

def backslash : UInt8 := '\\'.toUInt8

/-- A printable character. -/
def isPrint (c : UInt8) : Bool := 0x20 ≤ c ∧ c ≤ 0x7e

/-- `need_octal`. -/
def needOctal (c : UInt8) (flag : ℕ) : Bool :=
  if flag &&& VIS_OCTAL ≠ 0 then true
  else if !isPrint c then true
  else decide ((c = ' '.toUInt8 ∧ flag &&& (VIS_SP ||| VIS_WHITE) ≠ 0) ∨
    (c = '\t'.toUInt8 ∧ flag &&& (VIS_TAB ||| VIS_WHITE) ≠ 0) ∨
    (c = '\n'.toUInt8 ∧ flag &&& (VIS_NL ||| VIS_WHITE) ≠ 0))

/-- `isoctal`. -/
def isoctal (c : ℤ) : Bool := ('0'.toUInt8.toNat : ℤ) ≤ c ∧ c ≤ '7'.toUInt8.toNat

/-- The characters that are written with a letter; 7, 8, 11 and 12 are `\a`, `\b`, `\v` and `\f`. -/
def letter (ch : UInt8) : Option UInt8 :=
  if ch = '\n'.toUInt8 then some 'n'.toUInt8
  else if ch = '\r'.toUInt8 then some 'r'.toUInt8
  else if ch = 8 then some 'b'.toUInt8
  else if ch = 7 then some 'a'.toUInt8
  else if ch = 11 then some 'v'.toUInt8
  else if ch = '\t'.toUInt8 then some 't'.toUInt8
  else if ch = 12 then some 'f'.toUInt8
  else if ch = backslash then some backslash
  else none

/-- The three digits of a byte. -/
def octalDigits (ch : UInt8) : List UInt8 :=
  [(ch >>> 6 &&& 7) + '0'.toUInt8, (ch >>> 3 &&& 7) + '0'.toUInt8, (ch &&& 7) + '0'.toUInt8]

/-- What `snprintf` writes for `ch` with the format `\%03o`. -/
def octalText (ch : UInt8) : List UInt8 :=
  (expansion ((str "\\%03o").bytes ++ [0]) [.int (ch.toBitVec.setWidth 32)]).getD []

/-- A text, if there is room for it and its terminator. -/
def put (dlen : ℕ) (s : List UInt8) : Option (List UInt8) := if dlen < s.length + 1 then none else some s

/-- `nvis`: the text that is written to `dst`, or nothing if it returns -1. -/
def nvis (dlen : ℕ) (ch : UInt8) (flag : ℕ) (nextc : ℤ) : Option (List UInt8) :=
  if !needOctal ch flag then
    if ch = backslash ∧ flag &&& VIS_NOSLASH = 0 then put dlen [backslash, backslash]
    else put dlen [ch]
  else if flag &&& VIS_CSTYLE ≠ 0 then
    match letter ch with
    | some e => put dlen [backslash, e]
    | none =>
      if ch = 0 then
        put dlen ([backslash, '0'.toUInt8] ++
          if isoctal nextc then ['0'.toUInt8, '0'.toUInt8] else [])
      else if dlen < 4 + 1 then none
      else some (octalText ch)
  else if dlen < 4 + 1 then none
  else some ((if flag &&& VIS_NOSLASH = 0 then [backslash] else []) ++ octalDigits ch)

/-- `vis`. -/
def vis (c : UInt8) (flag : ℕ) (nextc : ℤ) : List UInt8 := (nvis (2 ^ 64 - 1) c flag nextc).getD []

/-- The bytes one after the other; `last` is passed behind the last one. -/
def visAll (flag : ℕ) (last : ℤ) : List UInt8 → List UInt8
  | [] => []
  | [c] => vis c flag last
  | c :: d :: s => vis c flag d.toNat ++ visAll flag last (d :: s)

def S_GROUND : ℕ := 0

def S_ESCAPE : ℕ := 1

def S_OCT1 : ℕ := 2

def S_OCT2 : ℕ := 3

/-- An octal digit, as `unvis` tests it. -/
def isOct (ch : UInt8) : Bool := '0'.toUInt8 ≤ ch ∧ ch ≤ '7'.toUInt8

/-- The character that is written with a letter, or the letter itself. -/
def unescape (ch : UInt8) : UInt8 :=
  if ch = 'n'.toUInt8 then '\n'.toUInt8
  else if ch = 'r'.toUInt8 then '\r'.toUInt8
  else if ch = 'b'.toUInt8 then 8
  else if ch = 'a'.toUInt8 then 7
  else if ch = 'v'.toUInt8 then 11
  else if ch = 't'.toUInt8 then '\t'.toUInt8
  else if ch = 'f'.toUInt8 then 12
  else if ch = backslash then backslash
  else ch

/-- What `unvis` does: the code that it returns, the character that it stores, and the new state. -/
structure Step where
  code : ℤ
  char : Option UInt8
  state : ℕ

/-- `unvis`: the state afterwards, the character and what is returned. -/
def unvis (ch : UInt8) (state : ℕ) : Step :=
  let st := state &&& 0xff
  let val := state >>> 8 &&& 0xff
  if st = S_GROUND then
    if ch = backslash then ⟨UNVIS_NOCHAR, none, S_ESCAPE⟩ else ⟨UNVIS_VALID, some ch, state⟩
  else if st = S_ESCAPE then
    if isOct ch then ⟨UNVIS_NOCHAR, none, (ch - '0'.toUInt8).toNat <<< 8 ||| S_OCT1⟩
    else ⟨UNVIS_VALID, some (unescape ch), S_GROUND⟩
  else if st = S_OCT1 ∧ isOct ch then
    ⟨UNVIS_NOCHAR, none, (val <<< 3 + (ch - '0'.toUInt8).toNat) <<< 8 ||| S_OCT2⟩
  else if st = S_OCT1 ∨ st = S_OCT2 then ⟨UNVIS_VALID, some (.ofNat val), S_GROUND⟩
  else ⟨UNVIS_SYNBAD, none, S_GROUND⟩

/-- The value of a number whose end has not been seen. -/
def pending (state : ℕ) : List UInt8 :=
  if state &&& 0xff = S_OCT1 ∨ state &&& 0xff = S_OCT2 then [.ofNat (state >>> 8 &&& 0xff)] else []

/-- The characters that are read from a state on, with a pending one at the end. -/
def unvisAll : (state : ℕ) → List UInt8 → List UInt8
  | state, [] => pending state
  | state, ch :: s =>
    let r := unvis ch state
    (if r.code = UNVIS_VALID then r.char.toList else []) ++ unvisAll r.state s

/-! ## What is read in each state -/

variable {c d e ch : UInt8} {s t : List UInt8} {flag : ℕ} {last nextc : ℤ}

theorem unvisAll_ground_backslash (s : List UInt8) :
    unvisAll S_GROUND (backslash :: s) = unvisAll S_ESCAPE s := rfl

theorem unvisAll_ground (h : ch ≠ backslash) (s : List UInt8) :
    unvisAll S_GROUND (ch :: s) = ch :: unvisAll S_GROUND s := by
  have hstep : unvis ch S_GROUND = ⟨UNVIS_VALID, some ch, S_GROUND⟩ := by
    rw [unvis, if_pos (show S_GROUND &&& 0xff = S_GROUND from rfl), if_neg h]
  rw [unvisAll, hstep]
  rfl

theorem unvisAll_escape (h : isOct ch = false) (s : List UInt8) :
    unvisAll S_ESCAPE (ch :: s) = unescape ch :: unvisAll S_GROUND s := by
  have hstep : unvis ch S_ESCAPE = ⟨UNVIS_VALID, some (unescape ch), S_GROUND⟩ := by
    rw [unvis, if_neg (show ¬ S_ESCAPE &&& 0xff = S_GROUND by decide),
      if_pos (show S_ESCAPE &&& 0xff = S_ESCAPE from rfl), h, if_neg Bool.false_ne_true]
  rw [unvisAll, hstep]
  rfl

/-- The value of an octal digit. -/
def octVal (ch : UInt8) : ℕ := (ch - '0'.toUInt8).toNat

theorem isOct_iff : isOct ch = true ↔ 48 ≤ ch.toNat ∧ ch.toNat ≤ 55 := by
  rw [isOct, decide_eq_true_iff, UInt8.le_iff_toNat_le, UInt8.le_iff_toNat_le]
  exact .rfl

theorem octVal_eq (h : isOct ch = true) : octVal ch = ch.toNat - 48 :=
  UInt8.toNat_sub_of_le ch _ (UInt8.le_iff_toNat_le.2 (isOct_iff.1 h).1)

theorem octVal_lt (h : isOct ch = true) : octVal ch < 8 := by
  have := isOct_iff.1 h
  rw [octVal_eq h]
  omega

/-- Behind one digit, and behind two. -/
def oct1 (v : ℕ) : ℕ := v <<< 8 ||| S_OCT1

/-- The state behind two octal digits. -/
def oct2 (v : ℕ) : ℕ := v <<< 8 ||| S_OCT2

theorem unvisAll_escape_oct (h : isOct ch = true) (s : List UInt8) :
    unvisAll S_ESCAPE (ch :: s) = unvisAll (oct1 (octVal ch)) s := by
  have hstep : unvis ch S_ESCAPE = ⟨UNVIS_NOCHAR, none, oct1 (octVal ch)⟩ := by
    rw [unvis, if_neg (show ¬ S_ESCAPE &&& 0xff = S_GROUND by decide),
      if_pos (show S_ESCAPE &&& 0xff = S_ESCAPE from rfl), if_pos h]
    rfl
  rw [unvisAll, hstep]
  rfl

theorem oct_parts : ∀ v < 64, oct1 v &&& 0xff = S_OCT1 ∧ oct1 v >>> 8 &&& 0xff = v ∧
    oct2 v &&& 0xff = S_OCT2 ∧ oct2 v >>> 8 &&& 0xff = v := by
  decide

variable {v : ℕ}

theorem unvisAll_oct1 (hv : v < 8) (h : isOct ch = false) (s : List UInt8) :
    unvisAll (oct1 v) (ch :: s) = .ofNat v :: unvisAll S_GROUND s := by
  obtain ⟨hst, hval, -, -⟩ := oct_parts v (by omega)
  have hstep : unvis ch (oct1 v) = ⟨UNVIS_VALID, some (.ofNat v), S_GROUND⟩ := by
    simp only [unvis, hst, hval, h]
    rfl
  rw [unvisAll, hstep]
  rfl

theorem unvisAll_oct1_oct (hv : v < 8) (h : isOct ch = true) (s : List UInt8) :
    unvisAll (oct1 v) (ch :: s) = unvisAll (oct2 (8 * v + octVal ch)) s := by
  obtain ⟨hst, hval, -, -⟩ := oct_parts v (by omega)
  have hstep : unvis ch (oct1 v) = ⟨UNVIS_NOCHAR, none, oct2 (8 * v + octVal ch)⟩ := by
    have hshift : v <<< 3 = 8 * v := by rw [Nat.shiftLeft_eq, mul_comm]
    simp only [unvis, hst, hval, h, hshift]
    rfl
  rw [unvisAll, hstep]
  rfl

theorem unvisAll_oct2 (hv : v < 64) (ch : UInt8) (s : List UInt8) :
    unvisAll (oct2 v) (ch :: s) = .ofNat v :: unvisAll S_GROUND s := by
  obtain ⟨-, -, hst, hval⟩ := oct_parts v hv
  have hstep : unvis ch (oct2 v) = ⟨UNVIS_VALID, some (.ofNat v), S_GROUND⟩ := by
    simp only [unvis, hst, hval]
    rfl
  rw [unvisAll, hstep]
  rfl

theorem unvisAll_oct1_nil (hv : v < 8) : unvisAll (oct1 v) [] = [.ofNat v] := by
  obtain ⟨hst, hval, -, -⟩ := oct_parts v (by omega)
  rw [unvisAll, pending, hst, hval]
  rfl

theorem unvisAll_oct2_nil (hv : v < 64) : unvisAll (oct2 v) [] = [.ofNat v] := by
  obtain ⟨-, -, hst, hval⟩ := oct_parts v hv
  rw [unvisAll, pending, hst, hval]
  rfl

theorem exists_unvisAll_oct1 (hv : v < 8) (s : List UInt8) :
    ∃ x r, unvisAll (oct1 v) s = x :: r ∧ x.toNat < 8 * v + 8 := by
  have htoNat {n : ℕ} (hn : n < 64) : (UInt8.ofNat n).toNat = n :=
    UInt8.toNat_ofNat_of_lt' (hn.trans (by decide))
  cases s with
  | nil => exact ⟨_, _, unvisAll_oct1_nil hv, by rw [htoNat (by omega)]; omega⟩
  | cons ch s =>
    cases h : isOct ch with
    | false => exact ⟨_, _, unvisAll_oct1 hv h s, by rw [htoNat (by omega)]; omega⟩
    | true =>
      have hlt := octVal_lt h
      have hn : (UInt8.ofNat (8 * v + octVal ch)).toNat < 8 * v + 8 := by
        rw [htoNat (by omega)]
        omega
      rw [unvisAll_oct1_oct hv h]
      cases s with
      | nil => exact ⟨_, _, unvisAll_oct2_nil (by omega), hn⟩
      | cons ch' s => exact ⟨_, _, unvisAll_oct2 (by omega) ch' s, hn⟩

/-- How `vis` writes a byte, if it writes backslashes. -/
inductive Written (flag : ℕ) (c : UInt8) (nextc : ℤ) : List UInt8 → Prop
  | plain (h : needOctal c flag = false) (hne : c ≠ backslash) : Written flag c nextc [c]
  | letter {e : UInt8} (h : needOctal c flag = false ∨ flag &&& VIS_CSTYLE ≠ 0)
    (he : letter c = some e) : Written flag c nextc [backslash, e]
  | octal (h : needOctal c flag = true) (hc : letter c = none ∨ flag &&& VIS_CSTYLE = 0)
    (hzero : c = 0 → flag &&& VIS_CSTYLE = 0 ∨ isoctal nextc = true) :
    Written flag c nextc (backslash :: octalDigits c)
  | zero (h : flag &&& VIS_CSTYLE ≠ 0) (hc : c = 0) (hnext : isoctal nextc = false) :
    Written flag c nextc [backslash, '0'.toUInt8]

theorem octalText_eq (ch : UInt8) : octalText ch = backslash :: octalDigits ch :=
  Ctype.forall_byte (p := fun ch => octalText ch = backslash :: octalDigits ch) (by decide +kernel) ch

theorem written_vis (hflag : flag &&& VIS_NOSLASH = 0) (c : UInt8) (nextc : ℤ) :
    Written flag c nextc (vis c flag nextc) := by
  by_cases hneed : needOctal c flag = true
  · by_cases hc : flag &&& VIS_CSTYLE ≠ 0
    · cases he : letter c with
      | some e =>
        have hvis : vis c flag nextc = [backslash, e] := by
          simp [vis, nvis, hneed, hc, he, put]
        rw [hvis]
        exact .letter (.inr hc) he
      | none =>
        by_cases hzero : c = 0
        · subst hzero
          cases hnext : isoctal nextc with
          | true =>
            have hvis : vis 0 flag nextc = backslash :: octalDigits 0 := by
              simp [vis, nvis, hneed, hc, he, put, hnext, octalDigits]
            rw [hvis]
            exact .octal hneed (.inl he) fun _ => .inr hnext
          | false =>
            have hvis : vis 0 flag nextc = [backslash, '0'.toUInt8] := by
              simp [vis, nvis, hneed, hc, he, put, hnext]
            rw [hvis]
            exact .zero hc rfl hnext
        · have hvis : vis c flag nextc = backslash :: octalDigits c := by
            simp [vis, nvis, hneed, hc, he, hzero, octalText_eq]
          rw [hvis]
          exact .octal hneed (.inl he) fun h => absurd h hzero
    · have hvis : vis c flag nextc = backslash :: octalDigits c := by
        simp [vis, nvis, hneed, hc, hflag]
      rw [hvis]
      exact .octal hneed (.inr (not_not.1 hc)) fun _ => .inl (not_not.1 hc)
  · have hneed := Bool.eq_false_of_not_eq_true hneed
    by_cases hc : c = backslash
    · subst hc
      have hvis : vis backslash flag nextc = [backslash, backslash] := by
        simp [vis, nvis, hneed, hflag, put]
      rw [hvis]
      exact .letter (.inl hneed) rfl
    · have hvis : vis c flag nextc = [c] := by
        simp [vis, nvis, hneed, hc, put]
      rw [hvis]
      exact .plain hneed hc

/-- What is passed for `nextc` if `s` follows. -/
def following (last : ℤ) (s : List UInt8) : ℤ := s.head?.elim last fun d => d.toNat

theorem visAll_cons (flag : ℕ) (last : ℤ) (c : UInt8) (s : List UInt8) :
    visAll flag last (c :: s) = vis c flag (following last s) ++ visAll flag last s := by
  cases s with
  | nil => rw [visAll, visAll, append_nil]; rfl
  | cons d s => rfl

theorem isoctal_toNat (d : UInt8) : isoctal d.toNat = isOct d := by
  rw [Bool.eq_iff_iff, isOct_iff, isoctal, decide_eq_true_iff, Int.ofNat_le, Int.ofNat_le]
  exact .rfl

/-! ## How it is read -/

theorem letter_eq_some (he : letter c = some e) :
    isOct e = false ∧ unescape e = c ∧
      ((c = backslash ∧ e = backslash) ∨ (isPrint c = false ∧ e ≠ backslash ∧ e ≠ c)) := by
  unfold letter at he
  split_ifs at he
  all_goals
    subst c
    cases he
    decide

theorem octal_digit (x : UInt8) :
    isOct ((x &&& 7) + '0'.toUInt8) = true ∧ octVal ((x &&& 7) + '0'.toUInt8) = x.toNat % 8 := by
  have hand : (x &&& 7).toNat = x.toNat % 8 := Nat.and_two_pow_sub_one_eq_mod x.toNat 3
  have hadd : ((x &&& 7) + '0'.toUInt8).toNat = x.toNat % 8 + 48 := by
    rw [UInt8.toNat_add, hand, show '0'.toUInt8.toNat = 48 from rfl]
    omega
  have hoct : isOct ((x &&& 7) + '0'.toUInt8) = true := by
    rw [isOct_iff, hadd]
    omega
  refine ⟨hoct, ?_⟩
  rw [octVal_eq hoct, hadd, Nat.add_sub_cancel]

theorem toNat_shiftRight_three (c : UInt8) : (c >>> 3).toNat = c.toNat / 8 :=
  Nat.shiftRight_eq_div_pow c.toNat 3

theorem octalDigits_spec (c : UInt8) : ∃ x y z, octalDigits c = [x, y, z] ∧ isOct x = true ∧
    isOct y = true ∧ isOct z = true ∧ UInt8.ofNat (8 * octVal x + octVal y) = c >>> 3 := by
  refine ⟨_, _, _, rfl, (octal_digit _).1, (octal_digit _).1, (octal_digit c).1, ?_⟩
  have hsix : (c >>> 6).toNat = c.toNat / 64 := Nat.shiftRight_eq_div_pow c.toNat 6
  have hlt := c.toNat_lt
  have hval : 8 * (c.toNat / 64 % 8) + c.toNat / 8 % 8 = c.toNat / 8 := by omega
  rw [(octal_digit _).2, (octal_digit _).2, hsix, toNat_shiftRight_three, hval,
    ← toNat_shiftRight_three, UInt8.ofNat_toNat]

theorem unvisAll_octal (c : UInt8) (s : List UInt8) :
    unvisAll S_GROUND (backslash :: octalDigits c ++ s) = c >>> 3 :: unvisAll S_GROUND s := by
  obtain ⟨x, y, z, hdigits, hx, hy, -, hval⟩ := octalDigits_spec c
  have hlt := octVal_lt hx
  have hlt' := octVal_lt hy
  rw [hdigits, cons_append, unvisAll_ground_backslash, cons_append, unvisAll_escape_oct hx,
    cons_append, unvisAll_oct1_oct hlt hy, cons_append, unvisAll_oct2 (by omega), hval,
    nil_append]

theorem unvisAll_letter (he : letter c = some e) (s : List UInt8) :
    unvisAll S_GROUND (backslash :: e :: s) = c :: unvisAll S_GROUND s := by
  obtain ⟨hoct, hun, -⟩ := letter_eq_some he
  rw [unvisAll_ground_backslash, unvisAll_escape hoct, hun]

theorem unvisAll_octalDigits (c : UInt8) (s : List UInt8) :
    unvisAll S_GROUND (octalDigits c ++ s) = octalDigits c ++ unvisAll S_GROUND s := by
  have hne {x : UInt8} (hx : isOct x = true) : x ≠ backslash := by
    rintro rfl
    cases hx
  obtain ⟨x, y, z, hdigits, hx, hy, hz, -⟩ := octalDigits_spec c
  rw [hdigits, cons_append, unvisAll_ground (hne hx), cons_append, unvisAll_ground (hne hy),
    cons_append, unvisAll_ground (hne hz)]
  rfl

/-- The byte `c` is read back if `rest` follows: it is written as it is or with a letter, or it is a
NUL of three digits, or a `\0` at the end. -/
def Kept (flag : ℕ) (c : UInt8) (rest : List UInt8) : Prop :=
  needOctal c flag = false ∨ (flag &&& VIS_CSTYLE ≠ 0 ∧ (letter c).isSome) ∨
    (c = 0 ∧ (flag &&& VIS_CSTYLE = 0 ∨ rest = [] ∨ ∃ d ∈ rest.head?, isOct d = true))

theorem isoctal_following (hlast : isoctal last = false) :
    isoctal (following last s) = true ↔ ∃ d ∈ s.head?, isOct d = true := by
  cases s with
  | nil => simp [following, hlast]
  | cons d s => simp [following, isoctal_toNat]

theorem unvisAll_visAll_cons (hflag : flag &&& VIS_NOSLASH = 0) (hlast : isoctal last = false)
    (h : Kept flag c s) :
    unvisAll S_GROUND (visAll flag last (c :: s)) = c :: unvisAll S_GROUND (visAll flag last s) := by
  rw [visAll_cons]
  have hw := written_vis hflag c (following last s)
  generalize vis c flag (following last s) = w at hw ⊢
  cases hw with
  | plain hneed hne => exact unvisAll_ground hne _
  | letter hneed he => exact unvisAll_letter he _
  | octal hneed hc hzero =>
    have hc : c = 0 := by
      rcases h with h | ⟨hstyle, hsome⟩ | ⟨hzero, -⟩
      · rw [hneed] at h
        cases h
      · rcases hc with hc | hc
        · rw [hc] at hsome
          cases hsome
        · exact absurd hc hstyle
      · exact hzero
    rw [unvisAll_octal, hc]
    rfl
  | zero hstyle hc hnext =>
    have hs : s = [] := by
      rcases h with h | ⟨-, hsome⟩ | ⟨-, hcstyle | hs | hd⟩
      · rw [hc] at h
        unfold needOctal at h
        split at h <;> cases h
      · rw [hc] at hsome
        cases hsome
      · exact absurd hcstyle hstyle
      · exact hs
      · rw [(isoctal_following hlast).2 hd] at hnext
        cases hnext
    rw [hs, hc]
    rfl

/-! ## What is lost -/

theorem le_of_needOctal (h : needOctal d flag = false) : 32 ≤ d := by
  unfold needOctal at h
  split at h
  · cases h
  · split at h
    · cases h
    · rename_i hprint
      simp only [isPrint, Bool.not_eq_true', decide_eq_false_iff_not, not_not] at hprint
      exact hprint.1

/-- Where a byte that is written as it is has been taken away, it is missed. -/
theorem unvisAll_visAll_ne (hflag : flag &&& VIS_NOSLASH = 0) (t : List UInt8) :
    ∀ d, needOctal d flag = false → d ≠ backslash →
      unvisAll S_GROUND (visAll flag last t) ≠ d :: t := by
  induction t with
  | nil =>
    intro d _ _ heq
    cases heq
  | cons e t ih =>
    intro d hd hne heq
    have hle := le_of_needOctal hd
    rw [visAll_cons] at heq
    have hw := written_vis hflag e (following last t)
    generalize vis e flag (following last t) = w at hw heq
    cases hw with
    | plain hneed hne' =>
      rw [singleton_append, unvisAll_ground hne'] at heq
      injection heq with _ heq
      exact ih e hneed hne' heq
    | letter hneed he =>
      obtain ⟨-, -, hparts⟩ := letter_eq_some he
      rw [cons_append, singleton_append, unvisAll_letter he] at heq
      injection heq with hhead _
      subst hhead
      rcases hparts with ⟨hc, -⟩ | ⟨hprint, -⟩
      · exact hne hc
      · rw [needOctal, hprint] at hd
        split at hd <;> cases hd
    | octal hneed hc hzero =>
      rw [unvisAll_octal] at heq
      injection heq with hhead _
      have hlt : e >>> 3 < 32 := by
        rw [UInt8.lt_iff_toNat_lt, toNat_shiftRight_three]
        exact Nat.div_lt_of_lt_mul e.toNat_lt
      rw [hhead] at hlt
      exact absurd hlt (UInt8.not_lt.2 hle)
    | zero hstyle hc hnext =>
      rw [cons_append, unvisAll_ground_backslash, singleton_append, unvisAll_escape_oct rfl] at heq
      obtain ⟨x, r, hr, hx⟩ := exists_unvisAll_oct1 (v := 0) (by omega) (visAll flag last t)
      injection hr.symm.trans heq with hhead _
      rw [← hhead, UInt8.le_iff_toNat_le] at hle
      have : (32 : UInt8).toNat = 32 := rfl
      omega

/-- What stands behind the backslash of a byte that is not written as it is. -/
inductive Behind (flag : ℕ) (c : UInt8) : List UInt8 → Prop
  | backslash (hc : c = backslash) : Behind flag c [backslash]
  | letter {e : UInt8} (he : e ≠ Vis.backslash) (hne : e ≠ c) : Behind flag c [e]
  | octal (h : needOctal c flag = true) : Behind flag c (octalDigits c)

theorem Written.behind {w : List UInt8} (hw : Written flag c nextc w) :
    (needOctal c flag = false ∧ c ≠ backslash ∧ w = [c]) ∨
      ∃ b, w = backslash :: b ∧ Behind flag c b := by
  cases hw with
  | plain h hne => exact .inl ⟨h, hne, rfl⟩
  | letter h he =>
    obtain ⟨-, -, ⟨hc, rfl⟩ | ⟨-, hbackslash, hne⟩⟩ := letter_eq_some he
    · exact .inr ⟨_, rfl, .backslash hc⟩
    · exact .inr ⟨_, rfl, .letter hbackslash hne⟩
  | octal h hc hzero => exact .inr ⟨_, rfl, .octal h⟩
  | zero h hc hnext => exact .inr ⟨_, rfl, .letter (by decide) (by rw [hc]; decide)⟩

/-- With `VIS_OCTAL` every byte is written with a backslash; at most one character is lost, and none if
the backslash of the first one has been taken away. -/
theorem length_le_of_octal (hflag : flag &&& VIS_NOSLASH = 0) (hoctal : flag &&& VIS_OCTAL ≠ 0)
    (last : ℤ) (t : List UInt8) :
    t.length ≤ (unvisAll S_GROUND (visAll flag last t)).length + 1 ∧
      t.length ≤ (unvisAll S_ESCAPE (visAll flag last t)).length ∧
      t.length ≤ (unvisAll (oct1 0) (visAll flag last t)).length := by
  induction t with
  | nil => exact ⟨Nat.zero_le _, Nat.zero_le _, Nat.zero_le _⟩
  | cons e t ih =>
    obtain ⟨ih, ihescape, ihoct⟩ := ih
    rw [visAll_cons]
    have hw := written_vis hflag e (following last t)
    generalize vis e flag (following last t) = w at hw ⊢
    obtain ⟨hneed, -, -⟩ | ⟨b, rfl, hbehind⟩ := hw.behind
    · rw [needOctal, if_pos hoctal] at hneed
      cases hneed
    · have hrest : t.length ≤ (unvisAll S_GROUND (b ++ visAll flag last t)).length := by
        cases hbehind with
        | backslash hc => rwa [singleton_append, unvisAll_ground_backslash]
        | letter he hne =>
          rw [singleton_append, unvisAll_ground he, length_cons]
          exact ih
        | octal h =>
          rw [unvisAll_octalDigits, length_append, octalDigits]
          simp only [length_cons, length_nil]
          omega
      refine ⟨?_, ?_, ?_⟩
      · cases hw with
        | letter hneed he =>
          rw [cons_append, singleton_append, unvisAll_letter he, length_cons, length_cons]
          omega
        | octal hneed hc hzero =>
          rw [unvisAll_octal, length_cons, length_cons]
          omega
        | zero hstyle hc hnext =>
          rw [cons_append, unvisAll_ground_backslash, singleton_append,
            unvisAll_escape_oct rfl, length_cons]
          exact Nat.succ_le_succ ihoct
        | plain hneed hne => exact absurd rfl hne
      · rw [cons_append, unvisAll_escape rfl, length_cons, length_cons]
        omega
      · rw [cons_append, unvisAll_oct1 (by omega) rfl, length_cons, length_cons]
        omega

theorem octal_of_isOct (hoct : isOct c = true) (h : needOctal c flag = true) :
    flag &&& VIS_OCTAL ≠ 0 := by
  intro hflag
  have hbounds := isOct_iff.1 hoct
  have hprint : isPrint c = true := by
    rw [isPrint, decide_eq_true_iff, UInt8.le_iff_toNat_le, UInt8.le_iff_toNat_le]
    exact ⟨le_trans (by decide) hbounds.1, le_trans hbounds.2 (by decide)⟩
  have hne {d : UInt8} (hd : d.toNat < 48) : c ≠ d := by
    rintro rfl
    omega
  have hblanks : c ≠ ' '.toUInt8 ∧ c ≠ '\t'.toUInt8 ∧ c ≠ '\n'.toUInt8 :=
    ⟨hne (by decide), hne (by decide), hne (by decide)⟩
  simp [needOctal, hflag, hprint, hblanks] at h

theorem behind_ne {b : List UInt8} (hflag : flag &&& VIS_NOSLASH = 0) (h : Behind flag c b)
    (ht : unvisAll S_ESCAPE (visAll flag last t) ≠ backslash :: t) :
    unvisAll S_GROUND (b ++ visAll flag last t) ≠ c :: t := by
  intro heq
  cases h with
  | backslash hc =>
    rw [singleton_append, unvisAll_ground_backslash, hc] at heq
    exact ht heq
  | letter he hne =>
    rw [singleton_append, unvisAll_ground he] at heq
    injection heq with hhead _
    exact hne hhead
  | octal hneed =>
    obtain ⟨x, y, z, hdigits, hx, -⟩ := octalDigits_spec c
    rw [unvisAll_octalDigits, hdigits] at heq
    injection heq with hhead htail
    have hlen := (length_le_of_octal hflag (octal_of_isOct (hhead ▸ hx) hneed) last t).1
    have htail := congrArg List.length htail
    simp only [append_eq, cons_append, nil_append, length_cons] at htail
    omega

theorem eq_backslash_of_unescape (h : unescape e = backslash) : e = backslash := by
  unfold unescape at h
  split_ifs at h <;> first | assumption | cases h

theorem unvisAll_escape_ne (hflag : flag &&& VIS_NOSLASH = 0) (t : List UInt8) :
    unvisAll S_ESCAPE (visAll flag last t) ≠ backslash :: t := by
  induction t with
  | nil =>
    intro heq
    cases heq
  | cons e t ih =>
    intro heq
    have hw := written_vis hflag e (following last t)
    obtain ⟨hneed, hne, hb⟩ | ⟨b, hb, hbehind⟩ := hw.behind
    · rw [visAll_cons, hb, singleton_append] at heq
      cases hoct : isOct e with
      | false =>
        rw [unvisAll_escape hoct] at heq
        injection heq with hhead _
        exact hne (eq_backslash_of_unescape hhead)
      | true =>
        rw [unvisAll_escape_oct hoct] at heq
        obtain ⟨x, r, hr, hx⟩ := exists_unvisAll_oct1 (octVal_lt hoct) (visAll flag last t)
        injection hr.symm.trans heq with hhead _
        rw [hhead] at hx
        have := octVal_lt hoct
        have : backslash.toNat = 92 := rfl
        omega
    · rw [visAll_cons, hb, cons_append, unvisAll_escape rfl] at heq
      injection heq with _ htail
      exact behind_ne hflag hbehind ih htail

theorem kept_of_eq (hflag : flag &&& VIS_NOSLASH = 0) (hlast : isoctal last = false)
    (heq : unvisAll S_GROUND (visAll flag last (c :: s)) = c :: s) : Kept flag c s := by
  rw [visAll_cons] at heq
  have hw := written_vis hflag c (following last s)
  generalize vis c flag (following last s) = w at hw heq
  cases hw with
  | plain hneed hne => exact .inl hneed
  | letter hneed he =>
    rcases hneed with hneed | hstyle
    · exact .inl hneed
    · exact .inr (.inl ⟨hstyle, by rw [he]; rfl⟩)
  | octal hneed hc hzero =>
    rw [unvisAll_octal] at heq
    injection heq with hhead _
    have hc : c = 0 := by
      have hdiv : c.toNat / 8 = c.toNat := by rw [← toNat_shiftRight_three, hhead]
      exact UInt8.toNat_inj.1 (show c.toNat = 0 by omega)
    refine .inr (.inr ⟨hc, ?_⟩)
    rcases hzero hc with hstyle | hnext
    · exact .inl hstyle
    · exact .inr (.inr ((isoctal_following hlast).1 hnext))
  | zero hstyle hc hnext =>
    refine .inr (.inr ⟨hc, .inr (.inl ?_)⟩)
    cases s with
    | nil => rfl
    | cons d s =>
      exfalso
      rw [cons_append, unvisAll_ground_backslash, singleton_append, unvisAll_escape_oct rfl,
        visAll_cons] at heq
      have hd := written_vis hflag d (following last s)
      obtain ⟨hneed, hne, hb⟩ | ⟨b, hb, hbehind⟩ := hd.behind
      · have hoct : isOct d = false := (isoctal_toNat d).symm.trans hnext
        rw [hb, singleton_append, unvisAll_oct1 (by decide) hoct] at heq
        injection heq with _ htail
        exact unvisAll_visAll_ne hflag s d hneed hne htail
      · rw [hb, cons_append, unvisAll_oct1 (by decide) rfl] at heq
        injection heq with _ htail
        exact behind_ne hflag hbehind (unvisAll_escape_ne hflag s) htail

/-- **What `vis` writes without `VIS_NOSLASH` is read back by `unvis`** if and only if each byte is
printable and not a blank that is to be hidden, has a letter under `VIS_CSTYLE`, or is a NUL that is
written with three digits or ends the text. -/
theorem unvis_vis_iff (hflag : flag &&& VIS_NOSLASH = 0) (hlast : isoctal last = false)
    (s : List UInt8) : unvisAll S_GROUND (visAll flag last s) = s ↔
      ∀ c rest, c :: rest <:+ s → Kept flag c rest := by
  induction s with
  | nil =>
    refine ⟨?_, fun _ => rfl⟩
    intro _ c rest hsuffix
    cases suffix_nil.1 hsuffix
  | cons c s ih =>
    constructor
    · intro heq d rest hsuffix
      have hc := kept_of_eq hflag hlast heq
      rcases suffix_cons_iff.1 hsuffix with hwhole | hsuffix
      · injection hwhole with hd hrest
        rwa [hd, hrest]
      · rw [unvisAll_visAll_cons hflag hlast hc] at heq
        injection heq with _ heq
        exact ih.1 heq d rest hsuffix
    · intro h
      rw [unvisAll_visAll_cons hflag hlast (h c s suffix_rfl)]
      congr 1
      apply ih.2
      intro d rest hsuffix
      exact h d rest (hsuffix.trans (suffix_cons c s))

/-- A line with a tab in it, in the letters of C. -/
theorem unvis_vis_iff_line :
    unvisAll S_GROUND (visAll VIS_CSTYLE (-1) (str "a\tb\n").bytes) = (str "a\tb\n").bytes ∧
    ∀ c rest, c :: rest <:+ (str "a\tb\n").bytes → Kept VIS_CSTYLE c rest := by
  have hread : unvisAll S_GROUND (visAll VIS_CSTYLE (-1) (str "a\tb\n").bytes) =
      (str "a\tb\n").bytes := by decide +kernel
  exact ⟨hread, (unvis_vis_iff rfl rfl _).1 hread⟩

/-- The byte 1 is written `\001`, and read as 0. -/
theorem unvis_drops_digit : visAll 0 (-1) [1] = (str "\\001").bytes ∧
    unvisAll S_GROUND (visAll 0 (-1) [1]) = [0] := by
  decide +kernel

end Vlibc.Vis
