import Mathlib.Algebra.Group.Nat.Defs
import Vlibc.Foundations.Transcode

/-!
# Characters in bytes

The functions of `iconv.c` that read and write one character, and the four character sets as codes:
what the decoders accept is the word of a character, and what the encoders write is its word.
-/

namespace Vlibc.Iconv

open List Nat

/-- How a decoder or an encoder returns: `0` with what it has read or written, `-1` or `-2`. -/
inductive Result (α : Type) where
  | done (a : α)
  | bad
  | short
  deriving DecidableEq

/-- `decode_utf8`: the code point, and the bytes behind it. -/
def decodeUtf8 : List UInt8 → Result (ℕ × List UInt8)
  | [] => .short
  | c0 :: src =>
    if c0 < 0x80 then .done (c0.toNat, src)
    else if c0 &&& 0xE0 = 0xC0 then
      match src with
      | c1 :: src =>
        if c1 &&& 0xC0 ≠ 0x80 then .bad
        else
          let cp := (c0 &&& 0x1F).toNat <<< 6 ||| (c1 &&& 0x3F).toNat
          if cp < 0x80 then .bad else .done (cp, src)
      | [] => .short
    else if c0 &&& 0xF0 = 0xE0 then
      match src with
      | c1 :: c2 :: src =>
        if c1 &&& 0xC0 ≠ 0x80 ∨ c2 &&& 0xC0 ≠ 0x80 then .bad
        else
          let cp := (c0 &&& 0x0F).toNat <<< 12 ||| (c1 &&& 0x3F).toNat <<< 6 ||| (c2 &&& 0x3F).toNat
          if cp < 0x800 then .bad else .done (cp, src)
      | _ => .short
    else .bad

/-- `encode_utf8`: the bytes that it writes. -/
def encodeUtf8 (cp left : ℕ) : Result (List UInt8) :=
  if cp < 0x80 then
    if left < 1 then .short else .done [.ofNat cp]
  else if cp < 0x800 then
    if left < 2 then .short
    else .done [.ofNat (0xC0 ||| cp >>> 6), .ofNat (0x80 ||| (cp &&& 0x3F))]
  else if cp ≤ 0xFFFF then
    if left < 3 then .short
    else .done [.ofNat (0xE0 ||| cp >>> 12), .ofNat (0x80 ||| (cp >>> 6 &&& 0x3F)),
      .ofNat (0x80 ||| (cp &&& 0x3F))]
  else .bad

/-- One unit of UTF-16, the low byte first; surrogates are refused. -/
def decodeUtf16 : List UInt8 → Result (ℕ × List UInt8)
  | b0 :: b1 :: src =>
    let c := b0.toNat ||| b1.toNat <<< 8
    if 0xD800 ≤ c ∧ c ≤ 0xDFFF then .bad else .done (c, src)
  | _ => .short

/-- The same in the other direction. -/
def encodeUtf16 (cp left : ℕ) : Result (List UInt8) :=
  if cp > 0xFFFF ∨ (0xD800 ≤ cp ∧ cp ≤ 0xDFFF) then .bad
  else if left < 2 then .short
  else .done [.ofNat (cp &&& 0xFF), .ofNat (cp >>> 8 &&& 0xFF)]

section Bits

theorem and_high (c : UInt8) : (c &&& 0xC0).toNat = c.toNat / 64 * 64 ∧
    (c &&& 0xE0).toNat = c.toNat / 32 * 32 ∧ (c &&& 0xF0).toNat = c.toNat / 16 * 16 := by
  have h : ∀ n < 256, n &&& 0xC0 = n / 64 * 64 ∧ n &&& 0xE0 = n / 32 * 32 ∧
      n &&& 0xF0 = n / 16 * 16 := by decide +kernel
  exact h c.toNat c.toNat_lt

theorem and_C0_eq_iff (c : UInt8) : c &&& 0xC0 = 0x80 ↔ 0x80 ≤ c.toNat ∧ c.toNat < 0xC0 := by
  rw [← UInt8.toNat_inj, (and_high c).1]
  change _ = 128 ↔ _
  omega

theorem and_E0_eq_iff (c : UInt8) : c &&& 0xE0 = 0xC0 ↔ 0xC0 ≤ c.toNat ∧ c.toNat < 0xE0 := by
  rw [← UInt8.toNat_inj, (and_high c).2.1]
  change _ = 192 ↔ _
  omega

theorem and_F0_eq_iff (c : UInt8) : c &&& 0xF0 = 0xE0 ↔ 0xE0 ≤ c.toNat ∧ c.toNat < 0xF0 := by
  rw [← UInt8.toNat_inj, (and_high c).2.2]
  change _ = 224 ↔ _
  omega

theorem toNat_and_0F (c : UInt8) : (c &&& 0x0F).toNat = c.toNat % 16 :=
  and_two_pow_sub_one_eq_mod c.toNat 4

theorem toNat_and_1F (c : UInt8) : (c &&& 0x1F).toNat = c.toNat % 32 :=
  and_two_pow_sub_one_eq_mod c.toNat 5

theorem toNat_and_3F (c : UInt8) : (c &&& 0x3F).toNat = c.toNat % 64 :=
  and_two_pow_sub_one_eq_mod c.toNat 6

theorem and_3F (n : ℕ) : n &&& 0x3F = n % 64 := and_two_pow_sub_one_eq_mod n 6

theorem and_FF (n : ℕ) : n &&& 0xFF = n % 256 := and_two_pow_sub_one_eq_mod n 8

theorem shiftLeft_or {a b : ℕ} (i : ℕ) (h : b < 2 ^ i) : a <<< i ||| b = 2 ^ i * a + b := by
  rw [two_pow_add_eq_or_of_lt h, shiftLeft_eq, mul_comm]

theorem mark_or {m b : ℕ} (i : ℕ) (h : b < 2 ^ i) (hm : m % 2 ^ i = 0) : m ||| b = m + b := by
  obtain ⟨a, rfl⟩ := dvd_of_mod_eq_zero hm
  exact (two_pow_add_eq_or_of_lt h a).symm

end Bits

/-! ## The character sets -/

theorem toNat_ofNat_of_lt {n : ℕ} (h : n < 256) : (UInt8.ofNat n).toNat = n :=
  UInt8.toNat_ofNat'.trans (mod_eq_of_lt h)

theorem eq_of_ofNat_eq {a b : ℕ} (ha : a < 256) (hb : b < 256) (h : UInt8.ofNat a = .ofNat b) :
    a = b := by
  rw [← toNat_ofNat_of_lt ha, h, toNat_ofNat_of_lt hb]

/-- The word of a character in UTF-8. There are none beyond U+FFFF. -/
def utf8Word (a : ℕ) : Option (List UInt8) :=
  if a < 0x80 then some [.ofNat a]
  else if a < 0x800 then some [.ofNat (0xC0 + a / 64), .ofNat (0x80 + a % 64)]
  else if a ≤ 0xFFFF then
    some [.ofNat (0xE0 + a / 4096), .ofNat (0x80 + a / 64 % 64), .ofNat (0x80 + a % 64)]
  else none

theorem utf8Word_cases {a : ℕ} {w : List UInt8} (h : utf8Word a = some w) :
    (a < 0x80 ∧ w = [.ofNat a]) ∨
    (0x80 ≤ a ∧ a < 0x800 ∧ w = [.ofNat (0xC0 + a / 64), .ofNat (0x80 + a % 64)]) ∨
    (0x800 ≤ a ∧ a ≤ 0xFFFF ∧
      w = [.ofNat (0xE0 + a / 4096), .ofNat (0x80 + a / 64 % 64), .ofNat (0x80 + a % 64)]) := by
  rw [utf8Word] at h
  split_ifs at h with h1 h2 h3
  · exact .inl ⟨h1, (Option.some.inj h).symm⟩
  · exact .inr (.inl ⟨by omega, h2, (Option.some.inj h).symm⟩)
  · exact .inr (.inr ⟨by omega, h3, (Option.some.inj h).symm⟩)

theorem decodeUtf8_two {c0 c1 : UInt8} (src : List UInt8) (h : 0xC0 ≤ c0.toNat ∧ c0.toNat < 0xE0) :
    decodeUtf8 (c0 :: c1 :: src) =
      if 0x80 ≤ c1.toNat ∧ c1.toNat < 0xC0 ∧ 0x80 ≤ 64 * (c0.toNat % 32) + c1.toNat % 64 then
        .done (64 * (c0.toNat % 32) + c1.toNat % 64, src)
      else .bad := by
  have hbig : ¬ c0 < 0x80 := fun hlt => by
    have : c0.toNat < 0x80 := hlt
    omega
  have hcp : (c0 &&& 0x1F).toNat <<< 6 ||| (c1 &&& 0x3F).toNat =
      64 * (c0.toNat % 32) + c1.toNat % 64 := by
    rw [toNat_and_1F, toNat_and_3F]
    exact shiftLeft_or 6 (mod_lt _ (by decide))
  simp only [decodeUtf8, if_neg hbig, if_pos ((and_E0_eq_iff c0).2 h), hcp]
  by_cases h1 : c1 &&& 0xC0 = 0x80
  · have h1' := (and_C0_eq_iff c1).1 h1
    simp only [h1, ne_eq, not_true_eq_false, if_false, h1', true_and]
    split_ifs <;> first | rfl | omega
  · have h1' := mt (and_C0_eq_iff c1).2 h1
    rw [if_pos h1, if_neg fun h => h1' ⟨h.1, h.2.1⟩]

theorem decodeUtf8_three {c0 c1 c2 : UInt8} (src : List UInt8)
    (h : 0xE0 ≤ c0.toNat ∧ c0.toNat < 0xF0) :
    decodeUtf8 (c0 :: c1 :: c2 :: src) =
      if (0x80 ≤ c1.toNat ∧ c1.toNat < 0xC0) ∧ (0x80 ≤ c2.toNat ∧ c2.toNat < 0xC0) ∧
          0x800 ≤ 4096 * (c0.toNat % 16) + (64 * (c1.toNat % 64) + c2.toNat % 64) then
        .done (4096 * (c0.toNat % 16) + (64 * (c1.toNat % 64) + c2.toNat % 64), src)
      else .bad := by
  have hbig : ¬ c0 < 0x80 := fun hlt => by
    have : c0.toNat < 0x80 := hlt
    omega
  have htwo : ¬ c0 &&& 0xE0 = 0xC0 := fun e => by
    have := (and_E0_eq_iff c0).1 e
    omega
  have hcp : (c0 &&& 0x0F).toNat <<< 12 ||| (c1 &&& 0x3F).toNat <<< 6 ||| (c2 &&& 0x3F).toNat =
      4096 * (c0.toNat % 16) + (64 * (c1.toNat % 64) + c2.toNat % 64) := by
    have hlow : (c1.toNat % 64) <<< 6 ||| c2.toNat % 64 = 64 * (c1.toNat % 64) + c2.toNat % 64 :=
      shiftLeft_or 6 (mod_lt _ (by decide))
    rw [Nat.or_assoc, toNat_and_0F, toNat_and_3F, toNat_and_3F, hlow]
    exact shiftLeft_or 12 (by omega)
  simp only [decodeUtf8, if_neg hbig, if_neg htwo, if_pos ((and_F0_eq_iff c0).2 h), hcp]
  by_cases h1 : c1 &&& 0xC0 = 0x80 ∧ c2 &&& 0xC0 = 0x80
  · have h1' := (and_C0_eq_iff c1).1 h1.1
    have h2' := (and_C0_eq_iff c2).1 h1.2
    simp only [h1, ne_eq, not_true_eq_false, or_self, if_false, h1', h2', true_and]
    split_ifs <;> first | rfl | omega
  · have h1' : ¬ ((0x80 ≤ c1.toNat ∧ c1.toNat < 0xC0) ∧ (0x80 ≤ c2.toNat ∧ c2.toNat < 0xC0)) :=
      fun hc => h1 ⟨(and_C0_eq_iff c1).2 hc.1, (and_C0_eq_iff c2).2 hc.2⟩
    rw [if_pos (not_and_or.1 h1), if_neg fun h => h1' ⟨h.1, h.2.1⟩]

/-- **`decode_utf8` reads the words of UTF-8.** -/
theorem decodeUtf8_append {a : ℕ} {w : List UInt8} (h : utf8Word a = some w) (r : List UInt8) :
    decodeUtf8 (w ++ r) = .done (a, r) := by
  obtain ⟨ha, rfl⟩ | ⟨h1, h2, rfl⟩ | ⟨h1, h2, rfl⟩ := utf8Word_cases h
  · have hn := toNat_ofNat_of_lt (show a < 256 by omega)
    have hlt : UInt8.ofNat a < 0x80 := by
      change (UInt8.ofNat a).toNat < 0x80
      omega
    simp only [singleton_append, decodeUtf8, if_pos hlt, hn]
  · have h0 := toNat_ofNat_of_lt (show 0xC0 + a / 64 < 256 by omega)
    have h1 := toNat_ofNat_of_lt (show 0x80 + a % 64 < 256 by omega)
    simp only [cons_append, nil_append]
    rw [decodeUtf8_two r (by omega), h0, h1, if_pos (by omega)]
    congr 2
    omega
  · have h0 := toNat_ofNat_of_lt (show 0xE0 + a / 4096 < 256 by omega)
    have h1 := toNat_ofNat_of_lt (show 0x80 + a / 64 % 64 < 256 by omega)
    have h2 := toNat_ofNat_of_lt (show 0x80 + a % 64 < 256 by omega)
    simp only [cons_append, nil_append]
    rw [decodeUtf8_three r (by omega), h0, h1, h2, if_pos (by omega)]
    congr 2
    omega

/-- **`decode_utf8` accepts nothing else**, in particular no word that is longer than it has to
be. -/
theorem eq_append_of_decodeUtf8 {a : ℕ} {s r : List UInt8} (h : decodeUtf8 s = .done (a, r)) :
    ∃ w, utf8Word a = some w ∧ s = w ++ r := by
  rcases s with _ | ⟨c0, s⟩
  · cases h
  by_cases hsmall : c0 < 0x80
  · have hlt : c0.toNat < 0x80 := hsmall
    simp only [decodeUtf8, if_pos hsmall, Result.done.injEq, Prod.mk.injEq] at h
    obtain ⟨rfl, rfl⟩ := h
    exact ⟨[c0], by rw [utf8Word, if_pos hlt, UInt8.ofNat_toNat], rfl⟩
  by_cases htwo : c0 &&& 0xE0 = 0xC0
  · have h0 := (and_E0_eq_iff c0).1 htwo
    rcases s with _ | ⟨c1, s⟩
    · simp only [decodeUtf8, if_neg hsmall, if_pos htwo, reduceCtorEq] at h
    · rw [decodeUtf8_two s h0] at h
      split_ifs at h with hc
      cases h
      refine ⟨[c0, c1], ?_, rfl⟩
      rw [utf8Word, if_neg (by omega), if_pos (by omega),
        show 0xC0 + (64 * (c0.toNat % 32) + c1.toNat % 64) / 64 = c0.toNat by omega,
        show 0x80 + (64 * (c0.toNat % 32) + c1.toNat % 64) % 64 = c1.toNat by omega,
        UInt8.ofNat_toNat, UInt8.ofNat_toNat]
  by_cases hthree : c0 &&& 0xF0 = 0xE0
  · have h0 := (and_F0_eq_iff c0).1 hthree
    rcases s with _ | ⟨c1, _ | ⟨c2, s⟩⟩
    · simp only [decodeUtf8, if_neg hsmall, if_neg htwo, if_pos hthree, reduceCtorEq] at h
    · simp only [decodeUtf8, if_neg hsmall, if_neg htwo, if_pos hthree, reduceCtorEq] at h
    · rw [decodeUtf8_three s h0] at h
      split_ifs at h with hc
      cases h
      refine ⟨[c0, c1, c2], ?_, rfl⟩
      generalize hcp : 4096 * (c0.toNat % 16) + (64 * (c1.toNat % 64) + c2.toNat % 64) = cp at *
      rw [utf8Word, if_neg (by omega), if_neg (by omega), if_pos (by omega),
        show 0xE0 + cp / 4096 = c0.toNat by omega, show 0x80 + cp / 64 % 64 = c1.toNat by omega,
        show 0x80 + cp % 64 = c2.toNat by omega, UInt8.ofNat_toNat, UInt8.ofNat_toNat,
        UInt8.ofNat_toNat]
  · simp only [decodeUtf8, if_neg hsmall, if_neg htwo, if_neg hthree, reduceCtorEq] at h

/-- UTF-8, as far as U+FFFF. -/
def utf8 : Code ℕ UInt8 where
  word := utf8Word
  ne_nil h := by
    obtain ⟨-, rfl⟩ | ⟨-, -, rfl⟩ | ⟨-, -, rfl⟩ := utf8Word_cases h <;> simp
  unique {a b w w' r r'} h h' e := by
    have hdec := (decodeUtf8_append h r).symm.trans (e ▸ decodeUtf8_append h' r')
    cases hdec
    rfl

/-- ISO-8859-1: one byte for each of the first 256 characters. -/
def iso8859 : Code ℕ UInt8 where
  word a := if a < 0x100 then some [.ofNat a] else none
  ne_nil h := by
    split_ifs at h
    cases h
    exact List.cons_ne_nil _ _
  unique h h' e := by
    split_ifs at h with ha
    split_ifs at h' with hb
    cases h
    cases h'
    exact eq_of_ofNat_eq ha hb (List.cons.inj e).1

/-- ASCII: the first 128 of them. -/
def ascii : Code ℕ UInt8 := iso8859.restrict (· < 0x80)

/-- Numbers of 16 bits, the low byte first. -/
def unit16 : Code ℕ UInt8 where
  word a := if a ≤ 0xFFFF then some [.ofNat (a % 256), .ofNat (a / 256)] else none
  ne_nil h := by
    split_ifs at h
    cases h
    exact List.cons_ne_nil _ _
  unique h h' e := by
    split_ifs at h with ha
    split_ifs at h' with hb
    cases h
    cases h'
    obtain ⟨e0, e⟩ := List.cons.inj e
    have h0 := eq_of_ofNat_eq (by omega) (by omega) e0
    have h1 := eq_of_ofNat_eq (by omega) (by omega) (List.cons.inj e).1
    omega

/-- The numbers of UTF-16 that are halves of a pair. -/
def Surrogate (a : ℕ) : Prop := 0xD800 ≤ a ∧ a ≤ 0xDFFF

instance : DecidablePred Surrogate := fun _ => inferInstanceAs (Decidable (_ ∧ _))

/-- UTF-16, little-endian and without pairs. -/
def utf16 : Code ℕ UInt8 := unit16.restrict (¬ Surrogate ·)

/-! ## Decoders and encoders -/

/-- The decoder reads the words of the code. -/
def Decodes (dec : List UInt8 → Result (ℕ × List UInt8)) (C : Code ℕ UInt8) : Prop :=
  ∀ s a r, dec s = .done (a, r) ↔ ∃ w, C.word a = some w ∧ s = w ++ r

/-- The encoder writes the words of the code, if there is room. -/
def Encodes (enc : ℕ → ℕ → Result (List UInt8)) (D : Code ℕ UInt8) : Prop :=
  ∀ a k, enc a k =
    (D.word a).elim .bad fun v => if k < v.length then .short else .done v

theorem decodeUtf8_decodes : Decodes decodeUtf8 utf8 := by
  intro s a r
  constructor
  · exact eq_append_of_decodeUtf8
  · rintro ⟨w, hw, rfl⟩
    exact decodeUtf8_append hw r

theorem encodeUtf8_encodes : Encodes encodeUtf8 utf8 := by
  intro a k
  change _ = (utf8Word a).elim _ _
  have hlast : ∀ b, 0x80 ||| (b &&& 0x3F) = 0x80 + b % 64 := fun b => by
    rw [and_3F, mark_or 6 (by omega) (by decide)]
  by_cases h1 : a < 0x80
  · rw [encodeUtf8, utf8Word, if_pos h1, if_pos h1]
    rfl
  by_cases h2 : a < 0x800
  · have hlead : 0xC0 ||| a >>> 6 = 0xC0 + a / 64 := by
      rw [shiftRight_eq_div_pow, mark_or 5 (by omega) (by decide)]
    rw [encodeUtf8, utf8Word, if_neg h1, if_neg h1, if_pos h2, if_pos h2, hlead, hlast]
    rfl
  by_cases h3 : a ≤ 0xFFFF
  · have hlead : 0xE0 ||| a >>> 12 = 0xE0 + a / 4096 := by
      rw [shiftRight_eq_div_pow, mark_or 4 (by omega) (by decide)]
    rw [encodeUtf8, utf8Word, if_neg h1, if_neg h1, if_neg h2, if_neg h2, if_pos h3, if_pos h3,
      hlead, hlast, hlast, shiftRight_eq_div_pow]
    rfl
  · rw [encodeUtf8, utf8Word, if_neg h1, if_neg h1, if_neg h2, if_neg h2, if_neg h3, if_neg h3]
    rfl

section Bytes

variable {a : ℕ} {w : List UInt8}

theorem iso8859_word_eq_some : iso8859.word a = some w ↔ a < 0x100 ∧ w = [.ofNat a] := by
  change (if a < 0x100 then some [UInt8.ofNat a] else none) = some w ↔ _
  split <;> simp [*, eq_comm]

theorem iso8859_word_toNat (c : UInt8) : iso8859.word c.toNat = some [c] :=
  iso8859_word_eq_some.2 ⟨c.toNat_lt, by rw [UInt8.ofNat_toNat]⟩

theorem unit16_word_eq_some :
    unit16.word a = some w ↔ a ≤ 0xFFFF ∧ w = [.ofNat (a % 256), .ofNat (a / 256)] := by
  change (if a ≤ 0xFFFF then some [UInt8.ofNat (a % 256), UInt8.ofNat (a / 256)] else none) =
    some w ↔ _
  split <;> simp [*, eq_comm]

theorem unit16_word_toNat (b0 b1 : UInt8) :
    unit16.word (b0.toNat + 256 * b1.toNat) = some [b0, b1] := by
  have h0 := b0.toNat_lt
  have h1 := b1.toNat_lt
  refine unit16_word_eq_some.2 ⟨by omega, ?_⟩
  rw [show (b0.toNat + 256 * b1.toNat) % 256 = b0.toNat by omega,
    show (b0.toNat + 256 * b1.toNat) / 256 = b1.toNat by omega, UInt8.ofNat_toNat,
    UInt8.ofNat_toNat]

end Bytes

/-- A byte, as the conversions from ISO-8859-1 read it. -/
def decodeByte : List UInt8 → Result (ℕ × List UInt8)
  | [] => .short
  | c :: src => .done (c.toNat, src)

/-- A byte, as the conversions to ISO-8859-1 write it. -/
def encodeByte (cp left : ℕ) : Result (List UInt8) :=
  if cp > 0xFF then .bad else if left < 1 then .short else .done [.ofNat cp]

/-- The same, for ASCII. -/
def decodeAscii : List UInt8 → Result (ℕ × List UInt8)
  | [] => .short
  | c :: src => if c ≥ 0x80 then .bad else .done (c.toNat, src)

/-- The same, for ASCII. -/
def encodeAscii (cp left : ℕ) : Result (List UInt8) :=
  if cp > 0x7F then .bad else if left < 1 then .short else .done [.ofNat cp]

/-- Two bytes, as the conversion from UTF-16 to itself reads them. -/
def decodeUnit : List UInt8 → Result (ℕ × List UInt8)
  | b0 :: b1 :: src => .done (b0.toNat + 256 * b1.toNat, src)
  | _ => .short

/-- Two bytes, as the conversion from UTF-16 to itself writes them. -/
def encodeUnit (cp left : ℕ) : Result (List UInt8) :=
  if cp > 0xFFFF then .bad
  else if left < 2 then .short else .done [.ofNat (cp % 256), .ofNat (cp / 256)]

theorem decodeByte_decodes : Decodes decodeByte iso8859 := by
  intro s a r
  constructor
  · intro h
    rcases s with _ | ⟨c, s⟩
    · cases h
    · cases h
      exact ⟨[c], iso8859_word_toNat c, rfl⟩
  · rintro ⟨w, hw, rfl⟩
    obtain ⟨ha, rfl⟩ := iso8859_word_eq_some.1 hw
    simp only [singleton_append, decodeByte, toNat_ofNat_of_lt ha]

theorem decodeUnit_decodes : Decodes decodeUnit unit16 := by
  intro s a r
  constructor
  · intro h
    rcases s with _ | ⟨b0, _ | ⟨b1, s⟩⟩
    · cases h
    · cases h
    · cases h
      exact ⟨[b0, b1], unit16_word_toNat b0 b1, rfl⟩
  · rintro ⟨w, hw, rfl⟩
    obtain ⟨ha, rfl⟩ := unit16_word_eq_some.1 hw
    simp only [cons_append, nil_append, decodeUnit]
    rw [toNat_ofNat_of_lt (by omega), toNat_ofNat_of_lt (by omega), mod_add_div]

theorem encodeByte_encodes : Encodes encodeByte iso8859 := by
  intro a k
  change _ = (if a < 0x100 then some [UInt8.ofNat a] else none).elim _ _
  by_cases h : a < 0x100
  · rw [if_pos h, encodeByte, if_neg (by omega)]
    rfl
  · rw [if_neg h, encodeByte, if_pos (by omega)]
    rfl

theorem encodeUnit_encodes : Encodes encodeUnit unit16 := by
  intro a k
  change _ = (if a ≤ 0xFFFF then some [UInt8.ofNat (a % 256), UInt8.ofNat (a / 256)] else none).elim
    _ _
  by_cases h : a ≤ 0xFFFF
  · rw [if_pos h, encodeUnit, if_neg (by omega)]
    rfl
  · rw [if_neg h, encodeUnit, if_pos (by omega)]
    rfl

theorem Decodes.restrict {dec dec' : List UInt8 → Result (ℕ × List UInt8)} {C : Code ℕ UInt8}
    {p : ℕ → Prop} [DecidablePred p] (h : Decodes dec C)
    (hdone : ∀ s a r, dec' s = .done (a, r) ↔ p a ∧ dec s = .done (a, r)) :
    Decodes dec' (C.restrict p) := by
  intro s a r
  rw [hdone, h s a r]
  simp only [Code.restrict_word_eq_some, and_assoc, exists_and_left]

theorem Encodes.restrict {enc enc' : ℕ → ℕ → Result (List UInt8)} {D : Code ℕ UInt8}
    {p : ℕ → Prop} [DecidablePred p] (h : Encodes enc D)
    (heq : ∀ a k, enc' a k = if p a then enc a k else .bad) : Encodes enc' (D.restrict p) := by
  intro a k
  change _ = (if p a then D.word a else none).elim _ _
  rw [heq, h a k]
  split <;> rfl

theorem decodeAscii_decodes : Decodes decodeAscii ascii := by
  refine decodeByte_decodes.restrict fun s a r => ?_
  rcases s with _ | ⟨c, s⟩
  · simp [decodeAscii, decodeByte]
  · have hc : c ≥ 0x80 ↔ ¬ c.toNat < 0x80 := Nat.not_lt.symm
    simp only [decodeAscii, decodeByte, hc, ite_not, Result.done.injEq, Prod.mk.injEq]
    constructor
    · intro h
      split_ifs at h with hlt
      cases h
      exact ⟨hlt, rfl, rfl⟩
    · rintro ⟨hlt, rfl, rfl⟩
      exact if_pos hlt

theorem encodeAscii_encodes : Encodes encodeAscii ascii := by
  refine encodeByte_encodes.restrict fun a k => ?_
  by_cases ha : a < 0x80
  · rw [if_pos ha, encodeAscii, encodeByte, if_neg (show ¬ a > 0x7F by omega),
      if_neg (show ¬ a > 0xFF by omega)]
  · rw [if_neg ha, encodeAscii, if_pos (by omega)]

theorem decodeUtf16_decodes : Decodes decodeUtf16 utf16 := by
  refine decodeUnit_decodes.restrict fun s a r => ?_
  rcases s with _ | ⟨b0, _ | ⟨b1, s⟩⟩
  · simp [decodeUtf16, decodeUnit]
  · simp [decodeUtf16, decodeUnit]
  · have hc : b0.toNat ||| b1.toNat <<< 8 = b0.toNat + 256 * b1.toNat := by
      rw [Nat.or_comm, add_comm]
      exact shiftLeft_or 8 b0.toNat_lt
    simp only [decodeUtf16, decodeUnit, hc, Result.done.injEq, Prod.mk.injEq]
    constructor
    · intro h
      split_ifs at h with hs
      cases h
      exact ⟨hs, rfl, rfl⟩
    · rintro ⟨hs, rfl, rfl⟩
      exact if_neg hs

theorem encodeUtf16_encodes : Encodes encodeUtf16 utf16 := by
  refine encodeUnit_encodes.restrict fun a k => ?_
  have h8 : a ≤ 0xFFFF → a >>> 8 &&& 0xFF = a / 256 := fun h => by
    rw [and_FF, shiftRight_eq_div_pow]
    omega
  by_cases hs : Surrogate a
  · rw [if_neg (not_not.2 hs), encodeUtf16, if_pos (.inr hs)]
  · have hs' : ¬ (0xD800 ≤ a ∧ a ≤ 0xDFFF) := hs
    rw [if_pos hs, encodeUnit, encodeUtf16]
    by_cases ha : a > 0xFFFF
    · rw [if_pos ha, if_pos (.inl ha)]
    · rw [if_neg ha, if_neg (not_or.2 ⟨ha, hs'⟩), and_FF, h8 (by omega)]

end Vlibc.Iconv
