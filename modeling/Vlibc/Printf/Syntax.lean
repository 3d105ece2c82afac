import Vlibc.Printf.Format

/-!
# The syntax of formats

Formats as templates with the mark `%`. Flags, width, precision and length modifier are each as long
as they can be, and their values are not bounded (`readSpec`). The scanner of `vsnprintf_impl` reads
them, as far as the numbers fit in `int` (`scanDirective_eq`).

The scanner's pointer, by itself, is `scanner`: in which loop or test of the source it is, and which
way it takes with the byte it reads.
-/

namespace Vlibc.Printf

open List

/-- The characters of flags. -/
def isFlag (c : UInt8) : Bool :=
  c = '-'.toUInt8 ∨ c = '+'.toUInt8 ∨ c = ' '.toUInt8 ∨ c = '0'.toUInt8 ∨ c = '#'.toUInt8

/-- A flag is set. -/
def Flags.add (f : Flags) (c : UInt8) : Flags :=
  if c = '-'.toUInt8 then { f with left := true }
  else if c = '+'.toUInt8 then { f with plus := true }
  else if c = ' '.toUInt8 then { f with spacef := true }
  else if c = '0'.toUInt8 then { f with zero := true }
  else { f with alt := true }

/-- A conversion specification without its conversion character. -/
structure Spec where
  flags : Flags
  width : ℤ
  precision : ℤ
  length : Length

/-- A modifier that may be doubled, and what follows. -/
def readDouble (once twice : Length) (c : UInt8) (p : List UInt8) : Length × List UInt8 :=
  if p.head? = some c then (twice, p.tail) else (once, p)

/-- The length modifier at the head of a text, and what follows. -/
def readLength : List UInt8 → Length × List UInt8
  | [] => (.none, [])
  | c :: p =>
    if c = 'h'.toUInt8 then readDouble .h .hh c p
    else if c = 'l'.toUInt8 then readDouble .l .ll c p
    else if c = 'j'.toUInt8 then (.j, p)
    else if c = 'z'.toUInt8 then (.z, p)
    else if c = 't'.toUInt8 then (.t, p)
    else if c = 'L'.toUInt8 then (.ld, p)
    else (.none, c :: p)

/-- The specification behind a `%`, and the bytes from its conversion character on. -/
def readSpec (p : List UInt8) : Spec × List UInt8 :=
  let flags := (p.takeWhile isFlag).foldl Flags.add {}
  let p := p.dropWhile isFlag
  let width := decimal 0 (p.takeWhile isDigit)
  let p := p.dropWhile isDigit
  let (precision, p) := readPrecision p
  let (length, p) := readLength p
  (⟨flags, width, precision, length⟩, p)

theorem readDouble_suffix (once twice : Length) (c : UInt8) (p : List UInt8) :
    (readDouble once twice c p).2 <:+ p := by
  unfold readDouble
  split
  · exact tail_suffix p
  · exact suffix_refl p

theorem readLength_suffix (p : List UInt8) : (readLength p).2 <:+ p := by
  cases p with
  | nil => exact suffix_refl _
  | cons c p =>
    rw [readLength]
    split_ifs
    · exact (readDouble_suffix ..).trans (suffix_cons c p)
    · exact (readDouble_suffix ..).trans (suffix_cons c p)
    · exact suffix_cons c p
    · exact suffix_cons c p
    · exact suffix_cons c p
    · exact suffix_cons c p
    · exact suffix_refl _

theorem readSpec_suffix (p : List UInt8) : (readSpec p).2 <:+ p :=
  ((readLength_suffix _).trans (readPrecision_suffix _)).trans
    ((dropWhile_suffix _).trans (dropWhile_suffix _))

/-- The grammar of formats. -/
def grammar : Grammar UInt8 Spec := ⟨'%'.toUInt8, readSpec, readSpec_suffix⟩

/-- Width and precision are values of `int`. -/
def Spec.Fits (s : Spec) : Prop := s.width ≤ INT_MAX ∧ s.precision ≤ INT_MAX

instance (s : Spec) : Decidable s.Fits :=
  inferInstanceAs (Decidable (s.width ≤ INT_MAX ∧ s.precision ≤ INT_MAX))

/-- The numbers of a specification are values of an `int`. -/
def PieceFits : Piece UInt8 Spec → Prop
  | .char _ => True
  | .spec s _ => s.Fits

instance : DecidablePred PieceFits
  | .char _ => isTrue trivial
  | .spec s _ => inferInstanceAs (Decidable s.Fits)

/-- The directive of a specification and a conversion character. -/
def Spec.directive (s : Spec) (c : UInt8) : Directive :=
  ⟨s.flags, s.width, s.precision, s.length, c⟩

/-! ## The scanner reads the syntax -/

theorem scanFlags_cons (f : Flags) (c : UInt8) (p : List UInt8) :
    scanFlags f (c :: p) = if isFlag c then scanFlags (f.add c) p else some (f, c :: p) := by
  rw [scanFlags]
  split_ifs <;> simp_all [isFlag, Flags.add]

theorem scanFlags_eq (f : Flags) (p : List UInt8) :
    scanFlags f (p ++ [0]) =
      some ((p.takeWhile isFlag).foldl Flags.add f, p.dropWhile isFlag ++ [0]) := by
  induction p generalizing f with
  | nil => rfl
  | cons c p ih =>
    rw [cons_append, scanFlags_cons, takeWhile_cons, dropWhile_cons]
    cases isFlag c with
    | true => exact ih (f.add c)
    | false => rfl

theorem scanWidth_eq (p : List UInt8) :
    scanNumber 0 (p ++ [0]) =
      if decimal 0 (p.takeWhile isDigit) ≤ INT_MAX then
        some (decimal 0 (p.takeWhile isDigit), p.dropWhile isDigit ++ [0])
      else none :=
  scanNumber_eq (le_refl 0) (by decide) p

theorem scanPrecision_eq (p : List UInt8) :
    scanDotNumber (p ++ [0]) =
      if (readPrecision p).1 ≤ INT_MAX then some ((readPrecision p).1, (readPrecision p).2 ++ [0])
      else none :=
  scanDotNumber_eq p

theorem scanDouble_eq (once twice : Length) {c : UInt8} (hc : c ≠ 0) (p : List UInt8) :
    scanDouble once twice c (p ++ [0]) =
      some ((readDouble once twice c p).1, (readDouble once twice c p).2 ++ [0]) := by
  cases p with
  | nil => simp [scanDouble, readDouble, hc.symm]
  | cons d p =>
    rw [cons_append, scanDouble, readDouble, head?_cons]
    by_cases hd : d = c
    · rw [if_pos hd, if_pos (congrArg some hd)]
      rfl
    · rw [if_neg hd, if_neg fun h => hd (Option.some.inj h)]
      rfl

theorem scanLength_eq (p : List UInt8) :
    scanLength (p ++ [0]) = some ((readLength p).1, (readLength p).2 ++ [0]) := by
  cases p with
  | nil => rfl
  | cons c p =>
    rw [cons_append, scanLength, readLength]
    split_ifs with hh hl
    · exact scanDouble_eq _ _ (hh ▸ by decide) p
    · exact scanDouble_eq _ _ (hl ▸ by decide) p
    all_goals rfl

/-- **The scanner reads a conversion specification**, with the terminator as its conversion
character if the format ends there, and without an outcome if a number overflows. -/
theorem scanDirective_eq (p : List UInt8) :
    scanDirective (p ++ [0]) =
      if (readSpec p).1.Fits then
        some ((readSpec p).1.directive ((readSpec p).2.head?.getD 0), ((readSpec p).2 ++ [0]).tail)
      else none := by
  simp only [scanDirective, scanFlags_eq, Option.bind_eq_bind, Option.bind_some, scanWidth_eq]
  by_cases hw : decimal 0 ((p.dropWhile isFlag).takeWhile isDigit) ≤ INT_MAX
  · rw [if_pos hw, Option.bind_some]
    rw [scanPrecision_eq]
    by_cases hp : (readPrecision ((p.dropWhile isFlag).dropWhile isDigit)).1 ≤ INT_MAX
    · rw [if_pos hp, if_pos (show (readSpec p).1.Fits from ⟨hw, hp⟩), Option.bind_some]
      dsimp only
      rw [scanLength_eq, Option.bind_some, readSpec]
      cases (readLength (readPrecision ((p.dropWhile isFlag).dropWhile isDigit)).2).2 <;> rfl
    · rw [if_neg hp, if_neg fun h : (readSpec p).1.Fits => hp h.2]
      rfl
  · rw [if_neg hw, if_neg fun h : (readSpec p).1.Fits => hw h.1]
    rfl

/-! ## The scanner's pointer -/

/-- Where in the loop of `vsnprintf_impl` a byte of the format is read. -/
inductive Mode
  /-- The condition of the loop. -/
  | text
  /-- Behind a `%`. -/
  | marked
  | flags
  | width
  | precision
  | length
  /-- Behind an `h` or an `l`. -/
  | double (c : UInt8)
  /-- The conversion character. -/
  | conv
  deriving DecidableEq

/-- The moves of `p`. Behind the conversion character, whichever it is, comes the increment of the
loop. -/
def scanner : Scanner UInt8 Mode
  | .text, c =>
    if c = 0 then none
    else if c = '%'.toUInt8 then some (.marked, true)
    else some (.text, true)
  | .marked, c => if c = '%'.toUInt8 then some (.text, true) else some (.flags, false)
  | .flags, c => if isFlag c then some (.flags, true) else some (.width, false)
  | .width, c =>
    if isDigit c then some (.width, true)
    else if c = '.'.toUInt8 then some (.precision, true)
    else some (.length, false)
  | .precision, c => if isDigit c then some (.precision, true) else some (.length, false)
  | .length, c =>
    if c = 'h'.toUInt8 ∨ c = 'l'.toUInt8 then some (.double c, true)
    else if c = 'j'.toUInt8 ∨ c = 'z'.toUInt8 ∨ c = 't'.toUInt8 ∨ c = 'L'.toUInt8 then
      some (.conv, true)
    else some (.conv, false)
  | .double d, c => if c = d then some (.conv, true) else some (.conv, false)
  | .conv, _ => some (.text, true)

section pointer

open Scanner

variable {m : ℕ → UInt8} {i b : ℕ} {p : List UInt8}

theorem within_flags_iff (hp : Lies m i (p ++ [0])) (hb : i + p.length ≤ b) :
    scanner.Within m b .flags i ↔
      scanner.Within m b .width (i + (p.length - (p.dropWhile isFlag).length)) :=
  within_iff_loop (fun c hc => by simp [scanner, hc]) (fun c hc => by simp [scanner, hc]) rfl hp hb

theorem within_width_iff (hp : Lies m i (p ++ [0])) (hb : i + p.length ≤ b) :
    scanner.Within m b .width i ↔
      scanner.Within m b .length
        (i + (p.length - (readPrecision (p.dropWhile isDigit)).2.length)) :=
  within_numbers_iff .precision (fun _ => rfl) (fun _ => rfl) hp hb

theorem within_double_iff {d : UInt8} (hd : d ≠ 0) (once twice : Length)
    (hp : Lies m i (p ++ [0])) (hb : i + p.length ≤ b) :
    scanner.Within m b (.double d) i ↔
      scanner.Within m b .conv (i + (p.length - (readDouble once twice d p).2.length)) := by
  cases p with
  | nil => exact within_iff_stay (hp.1.symm ▸ if_neg hd.symm) (by omega)
  | cons c p =>
    rw [readDouble, head?_cons]
    by_cases hc : c = d
    · rw [if_pos (congrArg some hc), tail_cons, length_cons, Nat.add_sub_cancel_left]
      exact within_iff_move (hp.1.symm ▸ if_pos hc) (by omega)
    · rw [if_neg fun h => hc (Option.some.inj h), Nat.sub_self]
      exact within_iff_stay (hp.1.symm ▸ if_neg hc) (by omega)

theorem within_length_iff (hp : Lies m i (p ++ [0])) (hb : i + p.length ≤ b) :
    scanner.Within m b .length i ↔
      scanner.Within m b .conv (i + (p.length - (readLength p).2.length)) := by
  cases p with
  | nil => exact within_iff_stay (hp.1.symm ▸ rfl) (by omega)
  | cons c p =>
    rw [length_cons] at hb ⊢
    have hdouble : ∀ once twice, c = 'h'.toUInt8 ∨ c = 'l'.toUInt8 →
        (scanner.Within m b .length i ↔ scanner.Within m b .conv
          (i + (p.length + 1 - (readDouble once twice c p).2.length))) := by
      intro once twice hc
      have hr := (readDouble_suffix once twice c p).length_le
      have hne : c ≠ 0 := by
        rcases hc with rfl | rfl <;> decide
      rw [within_iff_move (hp.1.symm ▸ if_pos hc : scanner .length (m i) = some (.double c, true))
        (by omega), within_double_iff hne once twice hp.2 (by omega)]
      congr! 1
      omega
    rw [readLength]
    split_ifs with hh hl hj hz ht hL
    · exact hdouble _ _ (.inl hh)
    · exact hdouble _ _ (.inr hl)
    case neg =>
      have hstep : scanner .length c = some (.conv, false) := by
        rw [scanner, if_neg (not_or.2 ⟨hh, hl⟩), if_neg (by simp only [hj, hz, ht, hL, or_self,
          not_false_eq_true])]
      rw [length_cons, Nat.sub_self]
      exact within_iff_stay (hp.1.symm ▸ hstep) (by omega)
    all_goals
      have hstep : scanner .length c = some (.conv, true) := by
        rw [scanner, if_neg (not_or.2 ⟨hh, hl⟩), if_pos (by tauto)]
      rw [Nat.add_sub_cancel_left]
      exact within_iff_move (hp.1.symm ▸ hstep) (by omega)

theorem within_spec_iff (hp : Lies m i (p ++ [0])) (hb : i + p.length ≤ b) :
    scanner.Within m b .flags i ↔
      scanner.Within m b .conv (i + (p.length - (readSpec p).2.length)) := by
  have h1 := dropWhile_suffix (l := p) isFlag
  have h2 := (readPrecision_suffix ((p.dropWhile isFlag).dropWhile isDigit)).trans
    (dropWhile_suffix isDigit)
  have h3 := readLength_suffix (readPrecision ((p.dropWhile isFlag).dropWhile isDigit)).2
  have l1 := h1.length_le
  have l2 := h2.length_le
  have l3 := h3.length_le
  have p1 := hp.suffix h1
  rw [within_flags_iff hp hb, within_width_iff p1 (by omega),
    within_length_iff (p1.suffix h2) (by omega)]
  change _ ↔ scanner.Within m b .conv (i + (p.length -
    (readLength (readPrecision ((p.dropWhile isFlag).dropWhile isDigit)).2).2.length))
  congr! 1
  omega

end pointer

theorem scanner_follows : Follows scanner grammar 0 .text .marked .flags .conv where
  mark := by decide
  stop := rfl
  onMark := rfl
  onChar c hz hc := by
    rw [scanner, if_neg hz]
    exact if_neg hc
  onMarks := rfl
  onSpec c hc := if_neg hc
  onLast _ := rfl
  read _ _ _ _ _ hp hb := within_spec_iff hp hb

end Vlibc.Printf
