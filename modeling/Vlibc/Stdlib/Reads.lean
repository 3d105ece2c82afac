import Vlibc.Stdlib.Subject

/-!
# The texts that `strtol` takes for a small number

A caller that accepts what `strtol` accepts, up to some limit, takes white space, a sign, any number
of digits and the prefix of base 16 as well (`Loose`). These are the texts (`strtol_of_loose`,
`loose_of_strtol`); where nothing is read the number is 0 (`strtol_of_none`).
-/

namespace Vlibc.Stdlib

open List

variable {base n : ℕ} {s t body rest : List UInt8}

/-- Digits of the base, and for base 16 also `0x` and digits, with the number that they make. -/
inductive Numeral (base : ℕ) : List UInt8 → ℕ → Prop
  | digits {ds : List UInt8} (hne : ds ≠ []) (hds : ∀ c ∈ ds, isDigitOf base c = true) :
    Numeral base ds (horner base 0 (digitVals ds))
  | hex {x : UInt8} {ds : List UInt8} (hbase : base = 16) (hx : x = 'x'.toUInt8 ∨ x = 'X'.toUInt8)
    (hne : ds ≠ []) (hds : ∀ c ∈ ds, isDigitOf base c = true) :
    Numeral base ('0'.toUInt8 :: x :: ds) (horner base 0 (digitVals ds))

/-- A number that is not negative, with white space and a sign before it. -/
def Loose (base : ℕ) (t : List UInt8) (n : ℕ) : Prop :=
  ∃ blanks sign body, t = blanks ++ (sign ++ body) ∧ (∀ c ∈ blanks, isBlank c = true) ∧
    (sign = [] ∨ sign = ['+'.toUInt8] ∨ sign = ['-'.toUInt8] ∧ n = 0) ∧ Numeral base body n

theorem Loose.mem (h : Loose base t n) {c : UInt8} (hc : c ∈ t) :
    isBlank c = true ∨ c = '+'.toUInt8 ∨ c = '-'.toUInt8 ∨ isDigitOf base c = true ∨
      (base = 16 ∧ (c = '0'.toUInt8 ∨ c = 'x'.toUInt8 ∨ c = 'X'.toUInt8)) := by
  obtain ⟨blanks, sign, body, rfl, hblanks, hsign, hbody⟩ := h
  rw [mem_append, mem_append] at hc
  rcases hc with hc | hc | hc
  · exact .inl (hblanks c hc)
  · rcases hsign with rfl | rfl | ⟨rfl, -⟩
    · cases hc
    · exact .inr (.inl (mem_singleton.1 hc))
    · exact .inr (.inr (.inl (mem_singleton.1 hc)))
  · refine .inr (.inr (.inr ?_))
    cases hbody with
    | digits hne hds => exact .inl (hds c hc)
    | hex hbase hx hne hds =>
      rcases mem_cons.1 hc with rfl | hc
      · exact .inr ⟨hbase, .inl rfl⟩
      · rcases mem_cons.1 hc with rfl | hc
        · exact .inr ⟨hbase, .inr hx⟩
        · exact .inl (hds c hc)

theorem Loose.ne_nil (h : Loose base t n) : t ≠ [] := by
  obtain ⟨blanks, sign, body, rfl, -, -, hbody⟩ := h
  have hne : body ≠ [] := by
    cases hbody with
    | digits hne hds => exact hne
    | hex hbase hx hne hds => exact cons_ne_nil _ _
  simp [hne]

/-- No number is continued by `rest`. -/
def Stops (base : ℕ) (rest : List UInt8) : Prop :=
  ∀ c ∈ rest.head?, isDigitOf base c = false ∧ c ≠ 'x'.toUInt8 ∧ c ≠ 'X'.toUInt8

theorem stops_nil (base : ℕ) : Stops base [] := by
  intro c hc
  cases hc

theorem Numeral.head (h : Numeral base body n) :
    ∃ b c, body.head? = some c ∧ isDigitOf b c = true := by
  cases h with
  | digits hne hds =>
    obtain ⟨c, ds, rfl⟩ := exists_cons_of_ne_nil hne
    exact ⟨base, c, rfl, hds c mem_cons_self⟩
  | hex hbase hx hne hds => exact ⟨16, _, rfl, by decide⟩

theorem Numeral.readBase_eq (hb : 2 ≤ base) (h : Numeral base body n) (hrest : Stops base rest) :
    ∃ ds, readBase base (body ++ rest) = (base, ds ++ rest) ∧ ds ≠ [] ∧
      (∀ c ∈ ds, isDigitOf base c = true) ∧ n = horner base 0 (digitVals ds) := by
  cases h with
  | digits hne hds =>
    refine ⟨body, ?_, hne, hds, rfl⟩
    rw [readBase, if_neg (by omega)]
    split
    · rename_i h16
      rw [if_neg]
      intro hhex
      obtain ⟨x, t, htext, hx⟩ := (isHexPrefix_iff _).1 hhex
      obtain ⟨c, ds, rfl⟩ := exists_cons_of_ne_nil hne
      have htail := eq_of_cons_x hx (by omega) (fun c hc => hds c (.tail _ hc))
        (cons.inj htext).2.symm
      have hstop := (hrest x (by rw [htail]; rfl)).2
      exact hx.elim hstop.1 hstop.2
    · rfl
  | @hex x ds hbase hx hne hds =>
    refine ⟨ds, ?_, hne, hds, rfl⟩
    have hhex : isHexPrefix ('0'.toUInt8 :: x :: ds ++ rest) = true :=
      (isHexPrefix_iff _).2 ⟨x, _, rfl, hx⟩
    rw [readBase, if_neg (by omega), if_pos hbase, if_pos hhex]
    rfl

theorem strtol_of_loose (hb : 2 ≤ base ∧ base ≤ 36) (h : Loose base t n) (hrest : Stops base rest)
    (hn : n < 2 ^ 63) : strtol (t ++ rest) base = ⟨BitVec.ofNat 64 n, rest, none⟩ := by
  obtain ⟨blanks, sign, body, rfl, hblanks, hsign, hbody⟩ := h
  obtain ⟨b, c, hhead, hdigit⟩ := hbody.head
  obtain ⟨hblank, hsigns⟩ := isBlank_of_isDigitOf hdigit
  obtain ⟨ds, hread, hne, hds, rfl⟩ := hbody.readBase_eq hb.1 hrest
  have hsigned : sign = [] ∨ sign = ['+'.toUInt8] ∨ sign = ['-'.toUInt8] :=
    hsign.imp_right (Or.imp_right And.left)
  rw [append_assoc, append_assoc]
  refine (strto_of_parts hblanks (isBlank_head_sign hsigned hhead hblank)
    (readSign_sign hsigned hhead hsigns) hb hread hds hne (fun c hc => (hrest c hc).1)
    ?_ ?_).trans ?_
  · unfold signedCutoff
    split <;> decide
  · unfold signedCutoff
    split <;> omega
  · rcases hsign with rfl | rfl | ⟨rfl, hzero⟩
    · rfl
    · rfl
    · rw [hzero]
      rfl

theorem numeral_scan (hb : 2 ≤ base ∧ base ≤ 36) (hdigits : (scan s base).digits ≠ []) :
    ∃ body, unsigned s = body ++ (scan s base).rest ∧ Numeral base body (scan s base).value := by
  have hread := readBase_unsigned s base
  have hvalid : ValidBase base := .inr ⟨by omega, by omega⟩
  generalize scan s base = r at hread hdigits ⊢
  have hds : ∀ c ∈ r.digits, isDigitOf r.base c = true := fun c hc => mem_takeWhile_imp hc
  have hstart := r.digits_append_rest
  obtain ⟨h0, hhex, h⟩ | ⟨h0, -⟩ | ⟨h0, -⟩ | ⟨-, -, h⟩ := readBase_cases hvalid (unsigned s)
  · obtain ⟨hbase, htext⟩ := Prod.mk.inj (hread.symm.trans h)
    obtain ⟨x, t, hx, hxx⟩ := (isHexPrefix_iff _).1 hhex
    have h16 : base = 16 := by omega
    refine ⟨'0'.toUInt8 :: x :: r.digits, ?_, ?_⟩
    · rw [cons_append, cons_append, hstart, htext, hx]
      rfl
    · rw [hbase, ← h16] at hds
      rw [Scan.value, hbase, ← h16]
      exact .hex h16 hxx hdigits hds
  · omega
  · omega
  · obtain ⟨hbase, htext⟩ := Prod.mk.inj (hread.symm.trans h)
    rw [Int.toNat_natCast] at hbase
    refine ⟨r.digits, by rw [hstart, htext], ?_⟩
    rw [hbase] at hds
    rw [Scan.value, hbase]
    exact .digits hdigits hds

/-- **Only a number is read**, if what is returned is not negative and not at the limit. -/
theorem loose_of_strtol (hb : 2 ≤ base ∧ base ≤ 36) (hdigits : (scan s base).digits ≠ [])
    (hnonneg : 0 ≤ (strtol s base).value.toInt) (hlt : (strtol s base).value.toInt < 2 ^ 63 - 1) :
    ∃ t n rest, s = t ++ rest ∧ Loose base t n ∧ n < 2 ^ 63 ∧
      strtol s base = ⟨BitVec.ofNat 64 n, rest, none⟩ := by
  have hvalid : ValidBase base := .inr ⟨by omega, by omega⟩
  have hvalue := strtol_value hvalid hdigits
  obtain ⟨body, hbody, hnumeral⟩ := numeral_scan hb hdigits
  obtain ⟨sign, hsign, hneg, happend⟩ := readSign_append (s.dropWhile isBlank)
  have hneg : (scan s base).neg = decide (sign = ['-'.toUInt8]) := hneg
  have hcut : ¬ signedCutoff (scan s base).neg < (scan s base).value := by
    rw [signedCutoff_lt_iff]
    omega
  have hnumber : (scan s base).number = (scan s base).value := by
    rw [Scan.number] at hvalue ⊢
    split_ifs at hvalue ⊢ <;> omega
  refine ⟨s.takeWhile isBlank ++ (sign ++ body), (scan s base).value, (scan s base).rest, ?_,
    ⟨_, sign, body, rfl, fun c hc => mem_takeWhile_imp hc, ?_, hnumeral⟩, by omega, ?_⟩
  · rw [append_assoc, append_assoc, ← hbody]
    exact (List.takeWhile_append_dropWhile.symm.trans (congrArg _ happend))
  · refine hsign.imp_right (Or.imp_right fun hminus => ⟨hminus, ?_⟩)
    rw [Scan.number, hneg, if_pos (decide_eq_true hminus)] at hnumber
    omega
  · rw [strtol_eq_scan hvalid]
    rw [if_neg hdigits, if_neg hcut, hnumber, BitVec.ofInt_natCast]

theorem strtol_of_none (hb : 2 ≤ base ∧ base ≤ 36) (hdigits : (scan s base).digits = []) :
    strtol s base = ⟨0, s, none⟩ := by
  rw [strtol_eq_scan (.inr ⟨by omega, by omega⟩)]
  exact if_pos hdigits

theorem toInt_ofNat_of_lt (hn : n < 2 ^ 63) : (BitVec.ofNat 64 n).toInt = n := by
  rw [BitVec.toInt_eq_toNat_of_lt]
  · rw [BitVec.toNat_ofNat, Nat.mod_eq_of_lt (by omega)]
  · rw [BitVec.toNat_ofNat, Nat.mod_eq_of_lt (by omega)]
    omega

theorem strtol_le {base m : ℕ} (hb : 2 ≤ base ∧ base ≤ 36) (hm : m < 2 ^ 63 - 1)
    (h : ¬ ((strtol s base).value.toInt < 0 ∨ (m : ℤ) < (strtol s base).value.toInt)) :
    ∃ t n rest, s = t ++ rest ∧ n ≤ m ∧ strtol s base = ⟨BitVec.ofNat 64 n, rest, none⟩ ∧
      (Loose base t n ∨ t = [] ∧ n = 0 ∧ (scan s base).digits = []) := by
  obtain ⟨hnonneg, hle⟩ := not_or.1 h
  by_cases hdigits : (scan s base).digits = []
  · exact ⟨[], 0, s, rfl, Nat.zero_le m, strtol_of_none hb hdigits, .inr ⟨rfl, rfl, hdigits⟩⟩
  · obtain ⟨t, n, rest, hs, ht, hn, heq⟩ := loose_of_strtol hb hdigits (by omega) (by omega)
    rw [heq, toInt_ofNat_of_lt hn] at hle
    exact ⟨t, n, rest, hs, by omega, heq, .inl ht⟩

end Vlibc.Stdlib
