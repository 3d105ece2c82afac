import Vlibc.Printf.Integers
import Vlibc.Strings
import Vlibc.Time.Conv

/-!
# Dates as text

`strftime` of `strftime.c` and `strptime` of `strptime.c`. One prints each number of a date with as
many digits as the other reads for it, so behind the same beginning of a format the two are at the
same place of the text (`strptimeLoop_item`); a text that was printed is read to its end
(`strptime_strftime`).

None of the pointers is `NULL`. An `int` that overflows, in `tm_year + 1900`, in `tm_mon + 1` or in the
negation of `fmt_int`, is undefined, and `strftime` has no result then.
-/

namespace Vlibc.Time

open ByteMemory List
open Printf (INT_MAX tmpDigits digit tmpDigits_eq)

/-- `wd_short`. -/
def wdShort : List (List UInt8) :=
  [(str "Sun").bytes, (str "Mon").bytes, (str "Tue").bytes, (str "Wed").bytes, (str "Thu").bytes,
    (str "Fri").bytes, (str "Sat").bytes]

/-- `mon_short`. -/
def monShort : List (List UInt8) :=
  [(str "Jan").bytes, (str "Feb").bytes, (str "Mar").bytes, (str "Apr").bytes, (str "May").bytes,
    (str "Jun").bytes, (str "Jul").bytes, (str "Aug").bytes, (str "Sep").bytes, (str "Oct").bytes,
    (str "Nov").bytes, (str "Dec").bytes]

/-- `fmt_int`: the digits in `tmp`, the last one first, are filled up with zeros to the width. -/
def fmtInt (size : ℕ) (val : ℤ) (width : ℕ) : List UInt8 :=
  let digits := tmpDigits 10 false 16 val.natAbs
  let tmp := digits ++ List.replicate (min width 16 - digits.length) '0'.toUInt8
  (tmp.take size).reverse

/-- What goes to the output in one piece: a text, or a number that `fmt_int` prints. -/
inductive Piece
  | text (t : List UInt8)
  | number (val : ℤ) (width : ℕ)
  deriving DecidableEq

namespace Piece

/-- The bytes of a piece. -/
def bytes : Piece → List UInt8
  | text t => t
  | number val width => fmtInt 16 val width

/-- The number and its negation are values of an `int`. -/
def Defined : Piece → Prop
  | text _ => True
  | number val _ => -INT_MAX ≤ val ∧ val ≤ INT_MAX

instance : DecidablePred Defined
  | text _ => .isTrue trivial
  | number val _ => inferInstanceAs (Decidable (-INT_MAX ≤ val ∧ val ≤ INT_MAX))

end Piece

/-- What is written for a conversion character that is known. -/
def conversion (tm : Tm) (c : UInt8) : Option Piece :=
  if c = '%'.toUInt8 then some (.text ['%'.toUInt8])
  else if c = 'a'.toUInt8 then
    some (.text (if 0 ≤ tm.wday ∧ tm.wday < 7 then wdShort.getD tm.wday.toNat [] else []))
  else if c = 'b'.toUInt8 then
    some (.text (if 0 ≤ tm.mon ∧ tm.mon < 12 then monShort.getD tm.mon.toNat [] else []))
  else if c = 'Y'.toUInt8 then some (.number (tm.year + 1900) 4)
  else if c = 'm'.toUInt8 then some (.number (tm.mon + 1) 2)
  else if c = 'd'.toUInt8 then some (.number tm.mday 2)
  else if c = 'H'.toUInt8 then some (.number tm.hour 2)
  else if c = 'M'.toUInt8 then some (.number tm.min 2)
  else if c = 'S'.toUInt8 then some (.number tm.sec 2)
  else if c = 'Z'.toUInt8 then some (.text (str "UTC").bytes)
  else if c = 'z'.toUInt8 then some (.text (str "+0000").bytes)
  else if c = 'w'.toUInt8 then some (.number tm.wday 1)
  else if c = 'u'.toUInt8 then some (.number (if tm.wday = 0 then 7 else tm.wday) 1)
  else none

/-- The memory from `s` on, and `pos`. -/
structure Out where
  s : Mem
  pos : ℕ

/-- Why the loop is left: there is no room, or the behaviour is undefined. -/
inductive Stop
  | full (o : Out)
  | overflow

/-- A piece goes to `s + pos` if there is room for a terminator behind it; otherwise `strftime` is
left. -/
def Out.put (max : ℕ) (o : Out) (p : Piece) : Except Stop Out :=
  if p.Defined then
    if max ≤ o.pos + p.bytes.length then .error (.full o)
    else .ok ⟨patch o.s o.pos p.bytes.length fun i => p.bytes.getD i 0, o.pos + p.bytes.length⟩
  else .error .overflow

/-- The loop over the format. Behind a `%` the character of a conversion that is not known is
written as it is. -/
def strftimeLoop (max : ℕ) (tm : Tm) : Out → List UInt8 → Except Stop Out
  | o, [] => .ok o
  | o, c :: p =>
    if c ≠ '%'.toUInt8 then (o.put max (.text [c])).bind fun o => strftimeLoop max tm o p
    else
      match p with
      | [] => .ok o
      | d :: p =>
        match conversion tm d with
        | some t => (o.put max t).bind fun o => strftimeLoop max tm o p
        | none =>
          (o.put max (.text ['%'.toUInt8])).bind fun o =>
            (o.put max (.text [d])).bind fun o => strftimeLoop max tm o p

/-- `strftime`: the memory from `s` on, and the return value. -/
def strftime (s : Mem) (max : ℕ) (format : List UInt8) (tm : Tm) : Option (Mem × ℕ) :=
  if max = 0 then some (s, 0)
  else
    match strftimeLoop max tm ⟨s, 0⟩ format with
    | .error .overflow => none
    | .error (.full o) => some (o.s, 0)
    | .ok o => some (if max ≤ o.pos then (o.s, 0) else (Function.update o.s o.pos 0, o.pos))

/-! ### All or nothing -/

/-- The pieces that the loop puts one after the other. -/
def pieces (tm : Tm) : List UInt8 → List Piece
  | [] => []
  | c :: p =>
    if c ≠ '%'.toUInt8 then .text [c] :: pieces tm p
    else
      match p with
      | [] => []
      | d :: p =>
        (conversion tm d).elim [.text ['%'.toUInt8], .text [d]] (fun t => [t]) ++ pieces tm p

/-- The expansion of a format, with the numbers as they are. -/
def expand (tm : Tm) (format : List UInt8) : List UInt8 := (pieces tm format).flatMap Piece.bytes

/-- The characters behind the `%` in a format. -/
def specs : List UInt8 → List UInt8
  | [] => []
  | c :: p =>
    if c ≠ '%'.toUInt8 then specs p
    else
      match p with
      | [] => []
      | d :: p => d :: specs p

/-- The numbers that a format prints are values of an `int`. -/
def Fits (tm : Tm) (format : List UInt8) : Prop :=
  ∀ d ∈ specs format, ∀ p, conversion tm d = some p → p.Defined

theorem pieces_ordinary (tm : Tm) {c : UInt8} (hc : c ≠ '%'.toUInt8) (format : List UInt8) :
    pieces tm (c :: format) = .text [c] :: pieces tm format := by
  cases format <;> simp [pieces, hc]

theorem fits_iff (tm : Tm) (format : List UInt8) :
    Fits tm format ↔ ∀ p ∈ pieces tm format, p.Defined := by
  fun_induction pieces tm format with
  | case1 => simp [Fits, specs]
  | case2 c p hc ih =>
    have hspecs : specs (c :: p) = specs p := by cases p <;> simp [specs, hc]
    rw [Fits, hspecs, forall_mem_cons, ← ih]
    exact (and_iff_right trivial).symm
  | case3 c hc => simp [Fits, specs, hc]
  | case4 c hc d p ih =>
    have hspecs : specs (c :: d :: p) = d :: specs p := by simp [specs, hc]
    rw [Fits, hspecs, forall_mem_cons, forall_mem_append, ← ih]
    refine and_congr_left fun _ => ?_
    cases conversion tm d with
    | none => simp [Piece.Defined]
    | some t => simp

/-- The loop puts the pieces of the format one after another. -/
theorem strftimeLoop_eq (max : ℕ) (tm : Tm) (o : Out) (format : List UInt8) :
    strftimeLoop max tm o format = (pieces tm format).foldlM (Out.put max) o := by
  fun_induction pieces tm format generalizing o with
  | case1 => rfl
  | case2 c p hc ih =>
    rw [foldlM_cons]
    cases p <;> simp only [strftimeLoop, if_pos hc, ih] <;> rfl
  | case3 c hc => simp only [strftimeLoop, if_neg hc, foldlM_nil]; rfl
  | case4 c hc d p ih =>
    simp only [strftimeLoop, if_neg hc, ih]
    cases conversion tm d <;> rfl

variable {max : ℕ} {l : List Piece} {o : Out}

/-- With room, everything is written unless an `int` overflows. -/
theorem foldlM_put_of_lt (h : o.pos + (l.flatMap Piece.bytes).length < max) :
    l.foldlM (Out.put max) o =
      if ∀ p ∈ l, p.Defined then
        .ok ⟨patch o.s o.pos (l.flatMap Piece.bytes).length fun i => (l.flatMap Piece.bytes).getD i 0,
          o.pos + (l.flatMap Piece.bytes).length⟩
      else .error .overflow := by
  induction l generalizing o with
  | nil =>
    rw [foldlM_nil, if_pos (by simp), flatMap_nil, length_nil, patch_zero]
    rfl
  | cons p l ih =>
    rw [flatMap_cons, length_append, ← add_assoc] at h
    rw [foldlM_cons, Out.put]
    by_cases hp : p.Defined
    · rw [if_pos hp, if_neg (by omega)]
      change l.foldlM (Out.put max) _ = _
      rw [ih h, flatMap_cons, patch_append, length_append, add_assoc]
      simp only [forall_mem_cons, and_iff_right hp]
    · rw [if_neg hp, if_neg fun hall => hp (hall p mem_cons_self)]
      rfl

/-- Without room, `strftime` is left on the way, and nothing from `max` on is written. -/
theorem foldlM_put_of_le (ho : o.pos < max) (h : max ≤ o.pos + (l.flatMap Piece.bytes).length) :
    l.foldlM (Out.put max) o = .error .overflow ∧ (¬ ∀ p ∈ l, p.Defined) ∨
    ∃ o', l.foldlM (Out.put max) o = .error (.full o') ∧ ∀ x, max ≤ x → o'.s x = o.s x := by
  induction l generalizing o with
  | nil => exact absurd h (by simpa using ho)
  | cons p l ih =>
    rw [flatMap_cons, length_append, ← add_assoc] at h
    rw [foldlM_cons, Out.put]
    by_cases hp : p.Defined
    swap
    · rw [if_neg hp]
      exact .inl ⟨rfl, fun hall => hp (hall p mem_cons_self)⟩
    rw [if_pos hp]
    by_cases hroom : max ≤ o.pos + p.bytes.length
    · rw [if_pos hroom]
      exact .inr ⟨o, rfl, fun _ _ => rfl⟩
    rw [if_neg hroom]
    obtain ⟨hover, hnot⟩ | ⟨o', ho', hkept⟩ := ih (o := ⟨patch o.s o.pos p.bytes.length
      fun i => p.bytes.getD i 0, o.pos + p.bytes.length⟩) (Nat.lt_of_not_le hroom) h
    · exact .inl ⟨hover, fun hall => hnot fun q hq => hall q (mem_cons_of_mem p hq)⟩
    · refine .inr ⟨o', ho', fun x hx => (hkept x hx).trans ?_⟩
      have hout : o.pos + p.bytes.length ≤ x := by omega
      exact patch_of_not o.s o.pos p.bytes.length (fun i => p.bytes.getD i 0) (.inr hout)

variable {s : Mem} {format : List UInt8} {tm : Tm}

/-- The memory with a text and its terminator at the beginning. -/
def written (s : Mem) (t : List UInt8) : Mem := patch s 0 (t ++ [0]).length fun i => (t ++ [0]).getD i 0

/-- A text that fits is written whole, unless an `int` overflows. -/
theorem strftime_of_lt (h : (expand tm format).length < max) :
    (Fits tm format ∧ strftime s max format tm =
      some (written s (expand tm format), (expand tm format).length)) ∨
    (¬ Fits tm format ∧ strftime s max format tm = none) := by
  have hfold := foldlM_put_of_lt (o := ⟨s, 0⟩) (l := pieces tm format) (by simpa [expand] using h)
  by_cases hfits : Fits tm format
  · refine .inl ⟨hfits, ?_⟩
    rw [if_pos ((fits_iff tm format).1 hfits)] at hfold
    rw [strftime, if_neg (by omega), strftimeLoop_eq, hfold]
    change some (if max ≤ 0 + (expand tm format).length then _ else _) = _
    simp only [zero_add, if_neg (Nat.not_le_of_lt h), written, patch_append, length_singleton, patch_one]
    rfl
  · refine .inr ⟨hfits, ?_⟩
    rw [if_neg fun hall => hfits ((fits_iff tm format).2 hall)] at hfold
    rw [strftime, if_neg (by omega), strftimeLoop_eq, hfold]

/-- Without room the result is 0, unless an `int` overflows first, and nothing from `max` on
changes. -/
theorem strftime_of_le (h : max ≤ (expand tm format).length) :
    (¬ Fits tm format ∧ strftime s max format tm = none) ∨
    ∃ s', strftime s max format tm = some (s', 0) ∧ ∀ x, max ≤ x → s' x = s x := by
  rw [strftime]
  split
  · exact .inr ⟨s, rfl, fun _ _ => rfl⟩
  · next hmax =>
    rw [strftimeLoop_eq, fits_iff]
    obtain ⟨hover, hnot⟩ | ⟨o', ho', hkept⟩ := foldlM_put_of_le (o := ⟨s, 0⟩)
      (l := pieces tm format) (Nat.pos_of_ne_zero hmax) (by rwa [zero_add])
    · exact .inl ⟨hnot, by rw [hover]⟩
    · exact .inr ⟨o'.s, by rw [ho'], hkept⟩

/-- **All or nothing**: with room for the expansion and a terminator `strftime` writes both, and
otherwise it returns 0; it writes nothing from `max` on; and what it has written for one `max` it
writes for every larger one. -/
structure AllOrNothing (tm : Tm) (format : List UInt8) : Prop where
  all : ∀ s max, (expand tm format).length < max →
    strftime s max format tm = some (written s (expand tm format), (expand tm format).length)
  nothing : ∀ s max, max ≤ (expand tm format).length →
    ∃ s', strftime s max format tm = some (s', 0)
  inside : ∀ s max r, strftime s max format tm = some r → ∀ x, max ≤ x → r.1 x = s x
  larger : ∀ s max max' r, max ≤ max' → strftime s max format tm = some r → r.2 ≠ 0 →
    strftime s max' format tm = some r

theorem Fits.strftime_eq (hf : Fits tm format) (s : Mem) (h : (expand tm format).length < max) :
    strftime s max format tm = some (written s (expand tm format), (expand tm format).length) :=
  ((strftime_of_lt h).resolve_right fun hn => hn.1 hf).2

theorem Fits.strftime_eq_zero (hf : Fits tm format) (s : Mem) (h : max ≤ (expand tm format).length) :
    ∃ s', strftime s max format tm = some (s', 0) ∧ ∀ x, max ≤ x → s' x = s x :=
  (strftime_of_le h).resolve_left fun hn => hn.1 hf

theorem written_of_le {t : List UInt8} {x : ℕ} (h : t.length < x) : written s t x = s x :=
  patch_of_not _ _ _ _ (.inr (by rw [length_append, length_singleton]; omega))

/-- **`strftime` is all or nothing**, for every buffer, exactly if the numbers that the format prints
fit: the year and the month are printed with 1900 and 1 added to them. -/
theorem strftime_all_or_nothing_iff (tm : Tm) (format : List UInt8) :
    AllOrNothing tm format ↔ Fits tm format := by
  constructor
  · intro h
    obtain ⟨hfits, -⟩ | ⟨-, hnone⟩ := strftime_of_lt (s := fun _ => 0) (Nat.lt_succ_self
      (expand tm format).length)
    · exact hfits
    · rw [h.all _ _ (Nat.lt_succ_self _)] at hnone
      cases hnone
  · intro hf
    refine ⟨fun s max h => hf.strftime_eq s h, fun s max h => ?_, fun s max r hr x hx => ?_,
      fun s max max' r hle hr hne => ?_⟩
    · obtain ⟨s', hs', -⟩ := hf.strftime_eq_zero s h
      exact ⟨s', hs'⟩
    · obtain h | h := lt_or_ge (expand tm format).length max
      · rw [hf.strftime_eq s h] at hr
        cases hr
        exact written_of_le (by omega)
      · obtain ⟨s', hs', hkept⟩ := hf.strftime_eq_zero s h
        rw [hs'] at hr
        cases hr
        exact hkept x hx
    · obtain h | h := lt_or_ge (expand tm format).length max
      · rw [hf.strftime_eq s h] at hr
        rw [hf.strftime_eq s (h.trans_le hle), hr]
      · obtain ⟨s', hs', -⟩ := hf.strftime_eq_zero s h
        rw [hs'] at hr
        cases hr
        exact absurd rfl hne

/-- The month of a date that `%m` cannot print: adding 1 to it overflows. -/
theorem strftime_month_overflows :
    strftime (fun _ => 0) 16 (str "%m").bytes
      { sec := 0, min := 0, hour := 0, mday := 1, mon := INT_MAX, year := 0, wday := 0, yday := 0,
        isdst := 0 } = none := by
  rfl

/-- The loop of `parse_num`. -/
def parseDigits : (width : ℕ) → (val : ℤ) → List UInt8 → Option ℤ
  | 0, val, _ => some val
  | _ + 1, _, [] => none
  | width + 1, val, c :: s =>
    if c < '0'.toUInt8 ∨ '9'.toUInt8 < c then none
    else parseDigits width (val * 10 + (c - '0'.toUInt8).toNat) s

/-- `parse_num`: the number, and `*sp` afterwards. -/
def parseNum (s : List UInt8) (width : ℕ) : ℤ × List UInt8 :=
  match parseDigits width 0 s with
  | none => (-1, s)
  | some val => (val, s.drop width)

/-- A number that is read, checked and stored. -/
def storeNum (p : List UInt8) (width : ℕ) (bad : ℤ → Bool) (store : ℤ → Tm) :
    Option (Tm × List UInt8) :=
  let (v, p) := parseNum p width
  if bad v then none else some (store v, p)

/-- The conversions other than `%%`: the structure, and what follows. -/
def readConversion (tm : Tm) (c : UInt8) (p : List UInt8) : Option (Tm × List UInt8) :=
  if c = 'Y'.toUInt8 then storeNum p 4 (fun v => v < 0) fun v => { tm with year := v - 1900 }
  else if c = 'm'.toUInt8 then
    storeNum p 2 (fun v => v < 1 ∨ 12 < v) fun v => { tm with mon := v - 1 }
  else if c = 'd'.toUInt8 then
    storeNum p 2 (fun v => v < 1 ∨ 31 < v) fun v => { tm with mday := v }
  else if c = 'H'.toUInt8 then
    storeNum p 2 (fun v => v < 0 ∨ 23 < v) fun v => { tm with hour := v }
  else if c = 'M'.toUInt8 then
    storeNum p 2 (fun v => v < 0 ∨ 59 < v) fun v => { tm with min := v }
  else if c = 'S'.toUInt8 then
    storeNum p 2 (fun v => v < 0 ∨ 60 < v) fun v => { tm with sec := v }
  else none

/-- The loop over the format. A text that does not fit gives `NULL`, with the fields before it
stored. -/
def strptimeLoop : Tm → (p format : List UInt8) → Option (List UInt8) × Tm
  | tm, p, [] => (some p, tm)
  | tm, p, c :: format =>
    if c ≠ '%'.toUInt8 then
      if p.head? ≠ some c then (none, tm) else strptimeLoop tm p.tail format
    else
      match format with
      | [] => (none, tm)
      | d :: format =>
        if d = '%'.toUInt8 then
          if p.head? ≠ some '%'.toUInt8 then (none, tm) else strptimeLoop tm p.tail format
        else
          match readConversion tm d p with
          | none => (none, tm)
          | some (tm, p) => strptimeLoop tm p format

/-- `strptime`: the pointer that is returned, and the structure. -/
def strptime (s format : List UInt8) (tm : Tm) : Option (List UInt8) × Tm := strptimeLoop tm s format

/-- The numbers of a date that both functions know. -/
inductive Field
  | year
  | mon
  | mday
  | hour
  | min
  | sec

namespace Field

/-- The conversion character of a field. -/
def char : Field → UInt8
  | year => 'Y'.toUInt8
  | mon => 'm'.toUInt8
  | mday => 'd'.toUInt8
  | hour => 'H'.toUInt8
  | min => 'M'.toUInt8
  | sec => 'S'.toUInt8

/-- The value of a field. -/
def get (tm : Tm) : Field → ℤ
  | year => tm.year
  | mon => tm.mon
  | mday => tm.mday
  | hour => tm.hour
  | min => tm.min
  | sec => tm.sec

/-- A field is set. -/
def set (tm : Tm) (v : ℤ) : Field → Tm
  | year => { tm with year := v }
  | mon => { tm with mon := v }
  | mday => { tm with mday := v }
  | hour => { tm with hour := v }
  | min => { tm with min := v }
  | sec => { tm with sec := v }

/-- The first and the last value of a field. -/
def range : Field → ℤ × ℤ
  | year => (-1900, 8099)
  | mon => (0, 11)
  | mday => (1, 31)
  | hour => (0, 23)
  | min => (0, 59)
  | sec => (0, 60)

/-- The number that is printed for a field. -/
def number (tm : Tm) : Field → ℤ
  | year => tm.year + 1900
  | mon => tm.mon + 1
  | mday => tm.mday
  | hour => tm.hour
  | min => tm.min
  | sec => tm.sec

/-- The digits that are printed for a field. -/
def width : Field → ℕ
  | year => 4
  | _ => 2

/-- The numbers that are not accepted. -/
def bad : Field → ℤ → Bool
  | year, v => v < 0
  | mon, v => v < 1 ∨ 12 < v
  | mday, v => v < 1 ∨ 31 < v
  | hour, v => v < 0 ∨ 23 < v
  | min, v => v < 0 ∨ 59 < v
  | sec, v => v < 0 ∨ 60 < v

/-- The structure with what was read stored in it. -/
def stored (tm : Tm) (v : ℤ) : Field → Tm
  | year => { tm with year := v - 1900 }
  | mon => { tm with mon := v - 1 }
  | mday => { tm with mday := v }
  | hour => { tm with hour := v }
  | min => { tm with min := v }
  | sec => { tm with sec := v }

theorem get_set_self (tm : Tm) (v : ℤ) (f : Field) : f.get (f.set tm v) = v := by
  cases f <;> rfl

theorem get_set_of_ne (tm : Tm) (v : ℤ) {f g : Field} (h : g ≠ f) :
    g.get (f.set tm v) = g.get tm := by
  cases f <;> cases g <;> first | rfl | exact absurd rfl h

end Field

/-- A part of a format: an ordinary character, `%%` or the conversion of a field. -/
inductive Item
  | ordinary (c : UInt8) (hc : c ≠ 0 ∧ c ≠ '%'.toUInt8)
  | percent
  | field (f : Field)

namespace Item

/-- How a part of a format is written. -/
def text : Item → List UInt8
  | ordinary c _ => [c]
  | percent => ['%'.toUInt8, '%'.toUInt8]
  | field f => ['%'.toUInt8, f.char]

/-- What is printed for it. -/
def printed (tm : Tm) : Item → List UInt8
  | ordinary c _ => [c]
  | percent => ['%'.toUInt8]
  | field f => fmtInt 16 (f.number tm) f.width

/-- What reading a part does to a structure. -/
def copy (tm tm₂ : Tm) : Item → Tm
  | field f => f.set tm₂ (f.get tm)
  | _ => tm₂

end Item

/-- The format of parts. -/
def formatOf (items : List Item) : List UInt8 := items.flatMap Item.text

/-- What is printed for the parts. -/
def printedOf (tm : Tm) (items : List Item) : List UInt8 := items.flatMap (Item.printed tm)

/-- The fields have values of a date: the years 0 to 9999, and leap seconds. -/
def Printable (tm : Tm) : Prop := ∀ f : Field, f.range.1 ≤ f.get tm ∧ f.get tm ≤ f.range.2

/-- The digits of a number, with zeros on the left. -/
def padded (width v : ℕ) : List ℕ :=
  List.replicate (width - (numeral 10 v).length) 0 ++ (numeral 10 v).reverse

variable {v width : ℕ}

theorem length_padded (hwidth : 0 < width) (hv : v < 10 ^ width) :
    (padded width v).length = width := by
  have := length_numeral_le (by decide) hwidth hv
  rw [padded, length_append, length_replicate, length_reverse]
  omega

theorem horner_padded (width v : ℕ) : horner 10 0 (padded width v) = v := by
  rw [padded, horner_append, horner_replicate_zero, horner_numeral]

theorem lt_of_mem_padded {width v d : ℕ} (hd : d ∈ padded width v) : d < 10 := by
  rcases mem_append.1 hd with h | h
  · have := eq_of_mem_replicate h
    omega
  · exact lt_of_mem_numeral (by decide) (mem_reverse.1 h)

theorem fmtInt_eq (hwidth : 0 < width ∧ width ≤ 16) (hv : v < 10 ^ width) :
    fmtInt 16 v width = (padded width v).map (digit false) := by
  have hlen := length_numeral_le (by decide) hwidth.1 hv
  have hbig : v < 10 ^ (15 + 1) := hv.trans_le (Nat.pow_le_pow_right (by decide) hwidth.2)
  have hdigits : tmpDigits 10 false 16 v = (numeral 10 v).map (digit false) :=
    tmpDigits_eq false (by decide) hbig
  have hzero : digit false 0 = '0'.toUInt8 := by decide
  unfold fmtInt
  dsimp only
  rw [Int.natAbs_natCast, hdigits, length_map, min_eq_left hwidth.2, take_of_length_le,
    reverse_append, reverse_replicate, padded, map_append, map_replicate, hzero, map_reverse]
  rw [length_append, length_map, length_replicate]
  omega

theorem parseDigits_map {ds : List ℕ} (hds : ∀ d ∈ ds, d < 10) (val : ℕ) (rest : List UInt8) :
    parseDigits ds.length val (ds.map (digit false) ++ rest) = some ((horner 10 val ds : ℕ) : ℤ) := by
  have hdigit : ∀ d : Fin 10, ¬ (digit false d < '0'.toUInt8 ∨ '9'.toUInt8 < digit false d) ∧
      (digit false d - '0'.toUInt8).toNat = d := by decide
  induction ds generalizing val with
  | nil => rfl
  | cons d ds ih =>
    obtain ⟨hd, hds⟩ := forall_mem_cons.1 hds
    obtain ⟨hin, hval⟩ := hdigit ⟨d, hd⟩
    rw [map_cons, cons_append, length_cons, parseDigits, if_neg hin, hval]
    exact_mod_cast ih hds (val * 10 + d)

/-- `parse_num` reads back what `fmt_int` printed. -/
theorem parseNum_fmtInt (hwidth : 0 < width ∧ width ≤ 16) (hv : v < 10 ^ width)
    (rest : List UInt8) : parseNum (fmtInt 16 v width ++ rest) width = (↑v, rest) := by
  have hlen := length_padded hwidth.1 hv
  have hdigits : ∀ d ∈ padded width v, d < 10 := fun d hd => lt_of_mem_padded hd
  have hread := parseDigits_map hdigits 0 rest
  rw [hlen, horner_padded] at hread
  rw [fmtInt_eq hwidth hv, parseNum, ← Nat.cast_zero, hread]
  rw [drop_left' (by rw [length_map, hlen])]

/-! ## One part of a format -/

namespace Field

theorem width_le (f : Field) : 0 < f.width ∧ f.width ≤ 16 := by
  cases f <;> decide

theorem number_lt (h : Printable tm) (f : Field) :
    ∃ v : ℕ, f.number tm = v ∧ v < 10 ^ f.width := by
  obtain ⟨hlo, hhi⟩ := h f
  refine ⟨(f.number tm).toNat, ?_, ?_⟩ <;>
    cases f <;> simp only [range, get, number, width] at * <;> omega

theorem bad_number (h : Printable tm) (f : Field) : f.bad (f.number tm) = false := by
  obtain ⟨hlo, hhi⟩ := h f
  cases f <;> apply decide_eq_false <;> simp only [range, get, number] at * <;> omega

theorem stored_number (tm tm₂ : Tm) (f : Field) :
    f.stored tm₂ (f.number tm) = f.set tm₂ (f.get tm) := by
  cases f <;> simp [stored, number, set, get]

theorem readConversion_char (tm : Tm) (f : Field) (p : List UInt8) :
    readConversion tm f.char p = storeNum p f.width f.bad fun v => f.stored tm v := by
  cases f <;> rfl

theorem conversion_char (tm : Tm) (f : Field) :
    conversion tm f.char = some (.number (f.number tm) f.width) := by
  cases f <;> rfl

end Field

/-- A conversion reads back the field it printed. -/
theorem readConversion_printed (h : Printable tm) (tm₂ : Tm) (f : Field) (rest : List UInt8) :
    readConversion tm₂ f.char ((Item.field f).printed tm ++ rest) =
      some (f.set tm₂ (f.get tm), rest) := by
  obtain ⟨v, hv, hlt⟩ := f.number_lt h
  have hbad := f.bad_number h
  have hstored := f.stored_number tm tm₂
  rw [hv] at hbad hstored
  rw [Item.printed, f.readConversion_char, hv, storeNum, parseNum_fmtInt f.width_le hlt]
  dsimp only
  rw [hbad, hstored]
  rfl

theorem Item.nul_notMem_printed (h : Printable tm) (i : Item) : 0 ∉ i.printed tm := by
  cases i with
  | ordinary c hc => simpa [printed] using hc.1.symm
  | percent => exact fun h => absurd (mem_singleton.1 h) (by decide)
  | field f =>
    obtain ⟨v, hv, hlt⟩ := f.number_lt h
    have hdigit : ∀ d : Fin 10, digit false d ≠ 0 := by decide
    rw [printed, hv, fmtInt_eq f.width_le hlt]
    intro hmem
    obtain ⟨d, hd, hzero⟩ := mem_map.1 hmem
    exact hdigit ⟨d, lt_of_mem_padded hd⟩ hzero

theorem strptimeLoop_ordinary (tm : Tm) (p : List UInt8) {c : UInt8} (hc : c ≠ '%'.toUInt8)
    (format : List UInt8) :
    strptimeLoop tm (c :: p) (c :: format) = strptimeLoop tm p format := by
  cases format <;> simp [strptimeLoop, hc]

theorem strptimeLoop_item (h : Printable tm) (tm₂ : Tm) (i : Item) (o format : List UInt8) :
    strptimeLoop tm₂ (i.printed tm ++ o) (i.text ++ format) = strptimeLoop (i.copy tm tm₂) o format := by
  cases i with
  | ordinary c hc => exact strptimeLoop_ordinary tm₂ o hc.2 format
  | percent => rfl
  | field f =>
    have hchar : f.char ≠ '%'.toUInt8 := by cases f <;> decide
    change (if f.char = '%'.toUInt8 then _ else
      match readConversion tm₂ f.char ((Item.field f).printed tm ++ o) with
      | none => (none, tm₂)
      | some (tm, p) => strptimeLoop tm p format) = _
    rw [if_neg hchar, readConversion_printed h]
    rfl

/-- What a part of a format puts. -/
def Item.piece (tm : Tm) : Item → Piece
  | ordinary c _ => .text [c]
  | percent => .text ['%'.toUInt8]
  | field f => .number (f.number tm) f.width

theorem pieces_item (tm : Tm) (i : Item) (format : List UInt8) :
    pieces tm (i.text ++ format) = i.piece tm :: pieces tm format := by
  cases i with
  | ordinary c hc => exact pieces_ordinary tm hc.2 format
  | percent => rfl
  | field f =>
    change (conversion tm f.char).elim _ _ ++ _ = _
    rw [f.conversion_char]
    rfl

theorem pieces_formatOf (tm : Tm) (items : List Item) :
    pieces tm (formatOf items) = items.map (Item.piece tm) := by
  induction items with
  | nil => rfl
  | cons i items ih =>
    rw [formatOf, flatMap_cons, pieces_item, map_cons]
    exact congrArg _ ih

theorem expand_formatOf (tm : Tm) (items : List Item) :
    expand tm (formatOf items) = printedOf tm items := by
  have hbytes : ∀ i : Item, (i.piece tm).bytes = i.printed tm := fun i => by cases i <;> rfl
  rw [expand, pieces_formatOf, flatMap_map, printedOf]
  simp only [hbytes]

/-- No number of a printable date overflows an `int`. -/
theorem Printable.fits (h : Printable tm) (items : List Item) : Fits tm (formatOf items) := by
  rw [fits_iff, pieces_formatOf, List.forall_mem_map]
  intro i _
  cases i with
  | ordinary c hc | percent => trivial
  | field f =>
    obtain ⟨hlo, hhi⟩ := h f
    cases f <;> simp only [Field.range, Field.get, Item.piece, Piece.Defined, Field.number, INT_MAX] at * <;>
      omega

/-! ## Whole formats -/

/-- Over a whole format, the loop copies the printed fields. -/
theorem strptimeLoop_printedOf (h : Printable tm) (tm₂ : Tm) (items : List Item) :
    strptimeLoop tm₂ (printedOf tm items) (formatOf items) =
      (some [], items.foldl (fun tm₂ i => i.copy tm tm₂) tm₂) := by
  induction items generalizing tm₂ with
  | nil => rfl
  | cons i items ih =>
    rw [printedOf, formatOf, flatMap_cons, flatMap_cons, strptimeLoop_item h]
    exact ih (i.copy tm tm₂)

/-- The fields that a format mentions are copied, and no others. -/
structure Copied (items : List Item) (tm tm₂ tm' : Tm) : Prop where
  mentioned : ∀ f, .field f ∈ items → Field.get tm' f = Field.get tm f
  unmentioned : ∀ f, .field f ∉ items → Field.get tm' f = Field.get tm₂ f
  wday : tm'.wday = tm₂.wday
  yday : tm'.yday = tm₂.yday
  isdst : tm'.isdst = tm₂.isdst

theorem copied_foldl (tm tm₂ : Tm) (items : List Item) :
    Copied items tm tm₂ (items.foldl (fun tm₂ i => i.copy tm tm₂) tm₂) := by
  induction items using List.reverseRecOn with
  | nil => exact ⟨fun f hf => absurd hf (not_mem_nil), fun _ _ => rfl, rfl, rfl, rfl⟩
  | append_singleton items i ih =>
    rw [foldl_append, foldl_cons, foldl_nil]
    generalize items.foldl (fun tm₂ i => i.copy tm tm₂) tm₂ = tm' at ih ⊢
    cases i with
    | ordinary c hc | percent =>
      exact ⟨fun f hf => ih.mentioned f (by simpa using hf),
        fun f hf => ih.unmentioned f (by simpa using hf), ih.wday, ih.yday, ih.isdst⟩
    | field g =>
      refine ⟨fun f hf => ?_, fun f hf => ?_, ?_, ?_, ?_⟩
      · rcases eq_or_ne f g with rfl | hne
        · exact Field.get_set_self tm' _ f
        · exact (Field.get_set_of_ne tm' _ hne).trans (ih.mentioned f (by simpa [hne] using hf))
      · have hne : f ≠ g := fun h => hf (by simp [h])
        exact (Field.get_set_of_ne tm' _ hne).trans
          (ih.unmentioned f fun h => hf (mem_append_left _ h))
      · cases g <;> exact ih.wday
      · cases g <;> exact ih.yday
      · cases g <;> exact ih.isdst

/-- **What `strftime` prints, `strptime` reads.** For a format of ordinary characters, `%%` and the
conversions of the six fields there is a text `o` that `strftime` leaves with its terminator in every
buffer with room for it, and `strptime` with that format reads `o` to its end and copies exactly the
fields of the format. -/
theorem strptime_strftime (items : List Item) (tm tm₂ : Tm) (h : Printable tm) :
    ∃ o : List UInt8, 0 ∉ o ∧
      (∀ (s : Mem) (max : ℕ), o.length < max →
        strftime s max (formatOf items) tm = some (written s o, o.length)) ∧
      (∀ (s : Mem) (max : ℕ), max ≤ o.length →
        (strftime s max (formatOf items) tm).map Prod.snd = some 0) ∧
      ∃ tm', strptime o (formatOf items) tm₂ = (some [], tm') ∧ Copied items tm tm₂ tm' := by
  refine ⟨printedOf tm items, fun hmem => ?_, fun s max hmax => ?_, fun s max hmax => ?_,
    _, strptimeLoop_printedOf h tm₂ items, copied_foldl tm tm₂ items⟩
  · obtain ⟨i, -, hi⟩ := mem_flatMap.1 hmem
    exact i.nul_notMem_printed h hi
  · rw [← expand_formatOf] at hmax ⊢
    exact (h.fits items).strftime_eq s hmax
  · rw [← expand_formatOf] at hmax
    obtain ⟨s', hs', -⟩ := (h.fits items).strftime_eq_zero s hmax
    rw [hs']
    rfl

/-- The last second of 29 February 2024, a leap second. -/
def leapDay : Tm :=
  { sec := 60, min := 59, hour := 23, mday := 29, mon := 1, year := 124, wday := 4, yday := 59,
    isdst := 0 }

theorem strptime_strftime_leapDay :
    Printable leapDay ∧ ∃ o : List UInt8, 0 ∉ o ∧
      (∀ (s : Mem) (max : ℕ), o.length < max →
        strftime s max (formatOf [.field .year, .field .mon, .percent, .field .sec]) leapDay =
          some (written s o, o.length)) ∧
      (∀ (s : Mem) (max : ℕ), max ≤ o.length →
        (strftime s max (formatOf [.field .year, .field .mon, .percent, .field .sec]) leapDay).map
          Prod.snd = some 0) ∧
      ∃ tm', strptime o (formatOf [.field .year, .field .mon, .percent, .field .sec]) (gmtimeR 0) =
          (some [], tm') ∧
        Copied [.field .year, .field .mon, .percent, .field .sec] leapDay (gmtimeR 0) tm' := by
  have h : Printable leapDay := by
    intro f
    cases f <;> decide
  exact ⟨h, strptime_strftime _ leapDay (gmtimeR 0) h⟩

end Vlibc.Time
