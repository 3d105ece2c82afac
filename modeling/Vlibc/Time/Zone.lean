import Vlibc.Strings
import Vlibc.Time.Conv

/-!
# The offset of a time zone

`parse_offset` and `tzset` of `time_r.c`. The loop for the hours reads all digits, also those of the
minutes if no colon stands between. So an offset `HHMM` is taken for that many hours
(`tzset_offset_iff`).
-/

namespace Vlibc.Time

open List

/-- A test of `parse_offset`. -/
def isNum (c : UInt8) : Bool := '0'.toUInt8 ≤ c ∧ c ≤ '9'.toUInt8

/-- A sign. -/
def isSign (c : UInt8) : Bool := c = '+'.toUInt8 ∨ c = '-'.toUInt8

/-- `*s - '0'`. -/
def numVal (c : UInt8) : ℤ := c.toNat - 48

/-- The loop over the digits of the hours. -/
def readHours : (h : ℤ) → List UInt8 → ℤ × List UInt8
  | h, [] => (h, [])
  | h, c :: s => if isNum c then readHours (h * 10 + numVal c) s else (h, c :: s)

/-- The loop over the digits of the minutes. -/
def readMinutes : (m : ℤ) → List UInt8 → ℤ
  | m, [] => m
  | m, c :: s =>
    if isNum c then
      let m := m * 10 + numVal c
      if 60 ≤ m then m else readMinutes m s
    else m

/-- The minutes behind the hours. -/
def minutes : List UInt8 → ℤ
  | c :: d :: s =>
    if c = ':'.toUInt8 then readMinutes 0 (d :: s)
    else if isNum c then numVal c * 10 + numVal d else 0
  | _ => 0

/-- `parse_offset`. -/
def parseOffset (s : List UInt8) : ℤ :=
  if s = [] then 0
  else
    let s := s.dropWhile fun c => !(isNum c || isSign c)
    let sign : ℤ := if s.head? = some '-'.toUInt8 then -1 else 1
    let s := if s.head?.any isSign then s.tail else s
    let (h, s) := readHours 0 s
    sign * (h * 3600 + minutes s * 60)

/-- `tzset`: what `__vlibc_tzoff` is afterwards. `tz` is what `getenv` returns, and `line` what `fgets`
reads from the file, if it can be read. -/
def tzset (tz line : Option (List UInt8)) : ℤ :=
  let tz := if tz.getD [] = [] then line.orElse fun _ => tz else tz
  tz.elim 0 parseOffset

/-! ## Offsets as texts -/

/-- How the offset of a zone is written. -/
inductive Shape
  | hours
  | colon
  | packed

/-- A number of two digits. -/
def two (n : ℕ) : List UInt8 := [.ofNat (48 + n / 10), .ofNat (48 + n % 10)]

/-- The text of an offset. -/
def Shape.text (hh mm : ℕ) : Shape → List UInt8
  | hours => two hh
  | colon => two hh ++ ':'.toUInt8 :: two mm
  | packed => two hh ++ two mm

/-- The seconds of an offset. -/
def Shape.seconds (hh mm : ℕ) : Shape → ℤ
  | hours => 3600 * hh
  | colon | packed => 3600 * hh + 60 * mm

/-- The value of `TZ`. -/
def zone (name : List UInt8) (neg : Bool) (text : List UInt8) : List UInt8 :=
  name ++ (if neg then '-' else '+').toUInt8 :: text

variable {name : List UInt8} {neg : Bool} {hh mm : ℕ} {shape : Shape}

theorem two_spec : ∀ n < 100,
    (isNum (.ofNat (48 + n / 10)) ∧ numVal (.ofNat (48 + n / 10)) = n / 10) ∧
    isNum (.ofNat (48 + n % 10)) ∧ numVal (.ofNat (48 + n % 10)) = (n % 10 : ℕ) := by
  decide +kernel

/-- What `parse_offset` makes of the text behind the sign. -/
def Shape.parsed (hh mm : ℕ) : Shape → ℤ
  | hours => 3600 * hh
  | colon => 3600 * hh + 60 * mm
  | packed => 3600 * (100 * hh + mm)

theorem readHours_two {n : ℕ} (hn : n < 100) (h : ℤ) (s : List UInt8) :
    readHours h (two n ++ s) = readHours (h * 100 + n) s := by
  obtain ⟨⟨htens, hval⟩, hones, hval'⟩ := two_spec n hn
  change readHours h (_ :: _ :: s) = _
  rw [readHours, if_pos htens, readHours, if_pos hones, hval, hval']
  congr 1
  omega

theorem readMinutes_two {n : ℕ} (hn : n < 60) : readMinutes 0 (two n) = n := by
  obtain ⟨⟨htens, hval⟩, hones, hval'⟩ := two_spec n (by omega)
  rw [two, readMinutes, if_pos htens, hval, if_neg (by omega), readMinutes, if_pos hones, hval']
  rw [if_neg (by omega), readMinutes]
  omega

open Shape

theorem parseOffset_zone (hname : ∀ c ∈ name, isNum c = false ∧ isSign c = false) (hhh : hh < 100)
    (hmm : mm < 60) : parseOffset (zone name neg (shape.text hh mm)) =
      (if neg then -1 else 1) * shape.parsed hh mm := by
  have hskip : (zone name neg (shape.text hh mm)).dropWhile (fun c => !(isNum c || isSign c)) =
      (if neg then '-' else '+').toUInt8 :: shape.text hh mm := by
    rw [zone, dropWhile_append_of_pos fun c hc => by simp [hname c hc]]
    cases neg <;> rfl
  have hne : zone name neg (shape.text hh mm) ≠ [] := by simp [zone]
  have hread : parseOffset (zone name neg (shape.text hh mm)) = (if neg then -1 else 1) *
      ((readHours 0 (shape.text hh mm)).1 * 3600 +
        minutes (readHours 0 (shape.text hh mm)).2 * 60) := by
    rw [parseOffset, if_neg hne, hskip]
    cases neg <;> rfl
  rw [hread]
  congr 1
  cases shape with
  | hours =>
    have h : readHours 0 (two hh) = (0 * 100 + (hh : ℤ), []) := by
      rw [← append_nil (two hh), readHours_two hhh, readHours]
    simp only [text, h, minutes, parsed]
    omega
  | colon =>
    have h : readHours 0 (two hh ++ ':'.toUInt8 :: two mm) =
        (0 * 100 + (hh : ℤ), ':'.toUInt8 :: two mm) := by
      rw [readHours_two hhh, readHours, if_neg (by decide)]
    have hm : minutes (':'.toUInt8 :: two mm) = mm := by
      rw [← readMinutes_two hmm]
      rfl
    simp only [text, h, hm, parsed]
    omega
  | packed =>
    have h : readHours 0 (two hh ++ two mm) = ((0 * 100 + (hh : ℤ)) * 100 + mm, []) := by
      rw [readHours_two hhh, ← append_nil (two mm), readHours_two (by omega), readHours]
    simp only [text, h, minutes, parsed]
    omega

/-- **The offset that is applied is the one that `TZ` says** if and only if the minutes stand behind a
colon or are left out, or the offset is zero. -/
theorem tzset_offset_iff (hname : ∀ c ∈ name, isNum c = false ∧ isSign c = false) (hhh : hh ≤ 24)
    (hmm : mm < 60) (line : Option (List UInt8)) :
    let tzoff := tzset (some (zone name neg (shape.text hh mm))) line
    let offset : ℤ := (if neg then -1 else 1) * shape.seconds hh mm
    ((∀ t, localtimeR tzoff t = gmtimeR (t + offset)) ∧
      ∀ tm, (mktime tzoff tm).1 = (timegm tm).1 - offset) ↔
      (shape = .packed → hh = 0 ∧ mm = 0) := by
  have hset : tzset (some (zone name neg (shape.text hh mm))) line =
      (if neg then -1 else 1) * shape.parsed hh mm := by
    rw [tzset, Option.getD_some, if_neg (by simp [zone])]
    exact parseOffset_zone hname (by omega) hmm
  have hparsed : (if neg then -1 else 1) * shape.parsed hh mm =
      (if neg then -1 else 1) * shape.seconds hh mm ↔ (shape = .packed → hh = 0 ∧ mm = 0) := by
    cases shape <;> cases neg <;> simp [parsed, seconds] <;> omega
  rw [hset, ← hparsed]
  constructor
  · rintro ⟨-, h⟩
    have := h (gmtimeR 0)
    simp only [mktime, timegm] at this
    omega
  · intro h
    rw [h]
    exact ⟨fun _ => rfl, fun _ => rfl⟩

/-- India, with a colon. -/
theorem tzset_offset_iff_colon :
    (∀ t, localtimeR (tzset (some (str "IST+05:30").bytes) none) t = gmtimeR (t + 19800)) ∧
      ∀ tm, (mktime (tzset (some (str "IST+05:30").bytes) none) tm).1 = (timegm tm).1 - 19800 := by
  have htext : (str "IST+05:30").bytes = zone (str "IST").bytes false (colon.text 5 30) := by
    decide
  have hname : ∀ c ∈ (str "IST").bytes, isNum c = false ∧ isSign c = false :=
    @of_decide_eq_true _ (List.decidableBAll _ _) rfl
  rw [htext]
  exact (@tzset_offset_iff _ false 5 30 .colon hname (by decide) (by decide) none).2
    (fun h => nomatch h)

/-- Without the colon, `+0530` is 530 hours. -/
theorem tzset_packed : (str "IST+0530").bytes = zone (str "IST").bytes false (Shape.packed.text 5 30) ∧
    localtimeR (tzset (some (str "IST+0530").bytes) none) 0 ≠ gmtimeR (0 + 19800) ∧
    (mktime (tzset (some (str "IST+0530").bytes) none) (gmtimeR 0)).1 = -(530 * 3600) := by
  decide +kernel

end Vlibc.Time
