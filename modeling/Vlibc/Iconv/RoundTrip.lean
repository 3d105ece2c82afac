import Vlibc.Iconv.Convert

/-!
# There and back

A conversion that succeeds has the same characters on both sides, so that the conversion back gives
the bytes that it started from.
-/

namespace Vlibc.Iconv

open List

variable {type : CdType} {s out : List UInt8} {k : ℕ}

/-- One call converts all of `s` to `out`, with room for `k` bytes. -/
def Converts (type : CdType) (s : List UInt8) (k : ℕ) (out : List UInt8) : Prop :=
  (iconv (some type) s ⟨0, s.length, 0, k⟩).ret ≠ none ∧
  (iconv (some type) s ⟨0, s.length, 0, k⟩).stored = out ∧
  (iconv (some type) s ⟨0, s.length, 0, k⟩).args = ⟨s.length, 0, out.length, k - out.length⟩

/-- **What a call converts**: the same characters in the other code, if there is room for them. -/
theorem converts_iff :
    Converts type s k out ↔
      Transcodes type.source.code type.target.code s out ∧ out.length ≤ k := by
  have hsrc : (⟨0, s.length, 0, k⟩ : Args).src s = s := by simp [Args.src]
  obtain ⟨w, v, r, hconv, hstored, hcase⟩ := iconv_cases type s ⟨0, s.length, 0, k⟩
  rw [hsrc] at hconv hcase
  constructor
  · rintro ⟨hret, rfl, -⟩
    obtain ⟨rfl, -, -⟩ | ⟨-, hnone, -⟩ := hcase
    · rw [hstored, hconv.eq, append_nil]
      exact ⟨hconv.transcodes, hconv.room⟩
    · exact absurd hnone hret
  · rintro ⟨ht, hk⟩
    obtain ⟨rfl, rfl, rfl⟩ := (Converted.whole ht hk).unique hconv
    obtain ⟨-, hret, hargs⟩ | ⟨hne, -⟩ := hcase
    · refine ⟨hret, hstored, ?_⟩
      rw [hargs, zero_add, zero_add]
    · exact absurd rfl hne

theorem Converts.back {type' : CdType} (h : Converts type s k out)
    (hsource : type'.source = type.target) (htarget : type'.target = type.source) {k' : ℕ}
    (hk : s.length ≤ k') : Converts type' out k' s := by
  rw [converts_iff] at h ⊢
  rw [hsource, htarget]
  exact ⟨h.1.symm, hk⟩

theorem utf16_word_eq_some {a : ℕ} {w : List UInt8} :
    utf16.word a = some w ↔
      ¬ Surrogate a ∧ a ≤ 0xFFFF ∧ w = [.ofNat (a % 256), .ofNat (a / 256)] := by
  rw [utf16, Code.restrict_word_eq_some, unit16_word_eq_some]

theorem iso8859_utf8_letter (c : UInt8) :
    ∃ a v, iso8859.word a = some [c] ∧ utf8.word a = some v ∧ v.length ≤ 2 := by
  have hc := c.toNat_lt
  refine ⟨c.toNat, ?_⟩
  change ∃ v, _ ∧ utf8Word c.toNat = some v ∧ _
  rw [utf8Word, if_pos (show c.toNat < 0x800 by omega)]
  split_ifs
  · exact ⟨_, iso8859_word_toNat c, rfl, Nat.le_succ 1⟩
  · exact ⟨_, iso8859_word_toNat c, rfl, le_refl 2⟩

theorem iso8859_utf16_letter (c : UInt8) :
    ∃ a v, iso8859.word a = some [c] ∧ utf16.word a = some v ∧ v.length ≤ 2 := by
  have hc := c.toNat_lt
  have hs : ¬ Surrogate c.toNat := fun h => absurd h.1 (by omega)
  exact ⟨c.toNat, _, iso8859_word_toNat c, utf16_word_eq_some.2 ⟨hs, by omega, rfl⟩, le_refl 2⟩

/-! ## From UTF-16 to UTF-8 -/

/-- The numbers of 16 bits in a text. -/
def units : List UInt8 → List ℕ
  | b0 :: b1 :: s => (b0.toNat + 256 * b1.toNat) :: units s
  | _ => []

theorem exists_utf8_word {a : ℕ} (h : a ≤ 0xFFFF) : ∃ v, utf8.word a = some v := by
  change ∃ v, utf8Word a = some v
  rw [utf8Word, if_pos h]
  split_ifs <;> exact ⟨_, rfl⟩

theorem length_le_of_utf8_word {a : ℕ} {v : List UInt8} (h : utf8.word a = some v) :
    v.length ≤ 3 := by
  obtain ⟨-, rfl⟩ | ⟨-, -, rfl⟩ | ⟨-, -, rfl⟩ := utf8Word_cases h <;> simp

/-- **What is UTF-16**: pairs of bytes, none of them a surrogate. -/
theorem exists_transcodes_utf16_iff (s : List UInt8) :
    (∃ t, Transcodes utf16 utf8 s t) ↔ Even s.length ∧ ∀ u ∈ units s, ¬ Surrogate u := by
  fun_induction units s with
  | case1 b0 b1 s ih =>
    have hword := unit16_word_toNat b0 b1
    simp only [length_cons, forall_mem_cons, Nat.even_add_one, not_not]
    constructor
    · rintro ⟨t, ht⟩
      generalize e : b0 :: b1 :: s = text at ht
      cases ht with
      | nil => cases e
      | @cons a w v s' t hw hv ht =>
        obtain ⟨hns, hle, rfl⟩ := utf16_word_eq_some.1 hw
        obtain ⟨rfl, -, rfl⟩ :=
          unit16.word_unique hword (unit16_word_eq_some.2 ⟨hle, rfl⟩) (r := s) e
        obtain ⟨heven, hs⟩ := ih.1 ⟨t, ht⟩
        exact ⟨heven, hns, hs⟩
    · rintro ⟨heven, hu, hs⟩
      obtain ⟨t, ht⟩ := ih.2 ⟨heven, hs⟩
      obtain ⟨hle, hbytes⟩ := unit16_word_eq_some.1 hword
      obtain ⟨v, hv⟩ := exists_utf8_word hle
      exact ⟨v ++ t, .cons (utf16_word_eq_some.2 ⟨hu, hle, hbytes⟩) hv ht⟩
  | case2 s h =>
    rcases s with _ | ⟨b0, _ | ⟨b1, s⟩⟩
    · exact iff_of_true ⟨[], .nil⟩ (by simp)
    · refine iff_of_false ?_ (by simp)
      rintro ⟨t, ht⟩
      generalize e : [b0] = text at ht
      cases ht with
      | nil => cases e
      | cons hw _ _ =>
        obtain ⟨-, -, rfl⟩ := utf16_word_eq_some.1 hw
        cases e
    · exact absurd rfl (h b0 b1 s)

theorem length_utf8_le {s t : List UInt8} (h : Transcodes utf16 utf8 s t) :
    2 * t.length ≤ 3 * s.length := by
  induction h with
  | nil => exact le_refl _
  | cons hw hv _ ih =>
    obtain ⟨-, -, rfl⟩ := utf16_word_eq_some.1 hw
    have hlen := length_le_of_utf8_word hv
    simp only [length_append, length_cons, length_nil]
    omega

theorem exists_converts_utf16_iff (hk : 3 * s.length ≤ 2 * k) :
    (∃ out, Converts .utf16Utf8 s k out) ↔ Even s.length ∧ ∀ u ∈ units s, ¬ Surrogate u := by
  rw [← exists_transcodes_utf16_iff]
  refine exists_congr fun out => ⟨fun h => (converts_iff.1 h).1, fun h => converts_iff.2 ⟨h, ?_⟩⟩
  have hlen := length_utf8_le h
  omega

/-- **Round trips.** ISO-8859-1 is converted to UTF-8 and to UTF-16 and back to what it was; so is
UTF-16 that was converted to UTF-8, and UTF-8 that was converted to UTF-16; and UTF-16 is converted
to UTF-8 exactly if it consists of pairs of bytes that are not surrogates. -/
theorem round_trips :
    (∀ s k k', 2 * s.length ≤ k → s.length ≤ k' →
      ∃ out, Converts .iso8859Utf8 s k out ∧ Converts .utf8Iso8859 out k' s) ∧
    (∀ s k k', 2 * s.length ≤ k → s.length ≤ k' →
      ∃ out, Converts .iso8859Utf16 s k out ∧ Converts .utf16Iso8859 out k' s) ∧
    (∀ s k out k', Converts .utf16Utf8 s k out → s.length ≤ k' → Converts .utf8Utf16 out k' s) ∧
    (∀ s k out k', Converts .utf8Utf16 s k out → s.length ≤ k' → Converts .utf16Utf8 out k' s) ∧
    (∀ s k, 3 * s.length ≤ 2 * k →
      ((∃ out, Converts .utf16Utf8 s k out) ↔ Even s.length ∧ ∀ u ∈ units s, ¬ Surrogate u)) := by
  refine ⟨fun s k k' hk hk' => ?_, fun s k k' hk hk' => ?_,
    fun s k out k' h hk => h.back rfl rfl hk, fun s k out k' h hk => h.back rfl rfl hk,
    fun s k hk => exists_converts_utf16_iff hk⟩
  · obtain ⟨out, ht, hlen⟩ := Transcodes.exists_of_letters iso8859_utf8_letter s
    have hconv : Converts .iso8859Utf8 s k out := converts_iff.2 ⟨ht, hlen.trans hk⟩
    exact ⟨out, hconv, hconv.back rfl rfl hk'⟩
  · obtain ⟨out, ht, hlen⟩ := Transcodes.exists_of_letters iso8859_utf16_letter s
    have hconv : Converts .iso8859Utf16 s k out := converts_iff.2 ⟨ht, hlen.trans hk⟩
    exact ⟨out, hconv, hconv.back rfl rfl hk'⟩

/-- The euro sign. -/
theorem round_trips_euro :
    Converts .utf16Utf8 [0xAC, 0x20] 3 [0xE2, 0x82, 0xAC] ∧
    Converts .utf8Utf16 [0xE2, 0x82, 0xAC] 2 [0xAC, 0x20] := by
  have h : Converts .utf16Utf8 [0xAC, 0x20] 3 [0xE2, 0x82, 0xAC] := by
    unfold Converts
    decide
  exact ⟨h, round_trips.2.2.1 _ _ _ 2 h (by decide)⟩

/-! ## Conversion through a third character set

The characters that two sets have in common are in UTF-8, and in UTF-16 if one of the two is
ISO-8859-1 or ASCII. So a conversion through one of these gives what the direct one gives
(`pivot_agrees`). -/

variable {A B P : CharSet} {a : ℕ} {w : List UInt8}

/-- How a set is read and written if the other one is another. -/
def CharSet.format : CharSet → Format
  | ascii => .ascii
  | utf8 => .utf8
  | iso8859 => .iso8859
  | utf16 => .utf16

theorem CdType.formats (h : type.charSets = (A, B)) (hne : A ≠ B) :
    type.source = A.format ∧ type.target = B.format := by
  cases type <;> cases h <;> first | exact ⟨rfl, rfl⟩ | exact absurd rfl hne

theorem ascii_word_eq_some : ascii.word a = some w ↔ a < 0x80 ∧ a < 0x100 ∧ w = [.ofNat a] := by
  rw [ascii, Code.restrict_word_eq_some, iso8859_word_eq_some]

theorem length_word_le (h : A.format.code.word a = some w) : w.length ≤ 3 := by
  cases A with
  | ascii =>
    obtain ⟨-, -, rfl⟩ := ascii_word_eq_some.1 h
    exact Nat.le_add_left 1 2
  | utf8 => exact length_le_of_utf8_word h
  | iso8859 =>
    obtain ⟨-, rfl⟩ := iso8859_word_eq_some.1 h
    exact Nat.le_add_left 1 2
  | utf16 =>
    obtain ⟨-, -, rfl⟩ := utf16_word_eq_some.1 h
    exact Nat.le_add_left 2 1

theorem lt_of_word (h : A.format.code.word a = some w) (h8 : A ≠ .utf8) (h16 : A ≠ .utf16) :
    a < 0x100 := by
  cases A with
  | ascii => exact (ascii_word_eq_some.1 h).2.1
  | iso8859 => exact (iso8859_word_eq_some.1 h).1
  | utf8 => exact absurd rfl h8
  | utf16 => exact absurd rfl h16

theorem exists_word {v : List UInt8} (hP : P = .utf8 ∨ P = .utf16) (hne : A ≠ B) (hA : P ≠ A)
    (hB : P ≠ B) (hw : A.format.code.word a = some w) (hv : B.format.code.word a = some v) :
    ∃ x, P.format.code.word a = some x := by
  rcases hP with rfl | rfl
  · refine exists_utf8_word ?_
    by_cases h16 : A = .utf16
    · subst h16
      exact (utf16_word_eq_some.1 hw).2.1
    · have := lt_of_word hw hA.symm h16
      omega
  · have hlt : a < 0x100 := by
      by_cases h8 : A = .utf8
      · exact lt_of_word hv (fun h => hne (h8.trans h.symm)) hB.symm
      · exact lt_of_word hw h8 hA.symm
    exact ⟨_, utf16_word_eq_some.2 ⟨fun h => absurd h.1 (by omega), by omega, rfl⟩⟩

/-- **Conversion through UTF-8 or UTF-16 agrees with direct conversion**, with room for three bytes
for each byte of the input. -/
theorem pivot_agrees (hne : A ≠ B) (hP : P = .utf8 ∨ P = .utf16) (hA : P ≠ A) (hB : P ≠ B)
    {direct first second : CdType} (hdirect : direct.charSets = (A, B))
    (hfirst : first.charSets = (A, P)) (hsecond : second.charSets = (P, B)) {s out : List UInt8}
    {k k₁ k₂ : ℕ} (hk : 3 * s.length ≤ k) (hk₁ : 3 * s.length ≤ k₁) (hk₂ : 3 * s.length ≤ k₂) :
    Converts direct s k out ↔ ∃ mid, Converts first s k₁ mid ∧ Converts second mid k₂ out := by
  obtain ⟨hs, ht⟩ := CdType.formats hdirect hne
  obtain ⟨hs₁, ht₁⟩ := CdType.formats hfirst hA.symm
  obtain ⟨hs₂, ht₂⟩ := CdType.formats hsecond hB
  simp only [converts_iff, hs, ht, hs₁, ht₁, hs₂, ht₂]
  have hlen : ∀ {C : CharSet} {t}, Transcodes A.format.code C.format.code s t →
      t.length ≤ 3 * s.length := fun h => h.length_le length_word_le
  have htrans : Transcodes A.format.code B.format.code s out ↔ ∃ mid,
      Transcodes A.format.code P.format.code s mid ∧
        Transcodes P.format.code B.format.code mid out :=
    Transcodes.trans_iff (exists_word hP hne hA hB)
  constructor
  · rintro ⟨h, -⟩
    obtain ⟨mid, hmid, hout⟩ := htrans.1 h
    exact ⟨mid, ⟨hmid, (hlen hmid).trans hk₁⟩, hout, (hlen h).trans hk₂⟩
  · rintro ⟨mid, ⟨hmid, -⟩, hout, -⟩
    have h := htrans.2 ⟨mid, hmid, hout⟩
    exact ⟨h, (hlen h).trans hk⟩

/-- A letter with an accent, from ISO-8859-1 to UTF-16 and through UTF-8. -/
theorem pivot_agrees_accent : Converts .iso8859Utf16 [0xE9] 3 [0xE9, 0] ∧
    ∃ mid, Converts .iso8859Utf8 [0xE9] 3 mid ∧ Converts .utf8Utf16 mid 3 [0xE9, 0] := by
  have h : Converts .iso8859Utf16 [0xE9] 3 [0xE9, 0] := by
    unfold Converts
    decide
  exact ⟨h, (pivot_agrees (A := .iso8859) (B := .utf16) (P := .utf8) (by decide) (.inl rfl)
    (by decide) (by decide) rfl rfl rfl (by decide) (by decide) (by decide)).1 h⟩

theorem CdType.reverse {type' : CdType} (h : type.charSets = (A, B)) (h' : type'.charSets = (B, A)) :
    type'.source = type.target ∧ type'.target = type.source := by
  cases type <;> cases h <;> cases type' <;> cases h' <;> exact ⟨rfl, rfl⟩

/-- **Whatever spellings name the two sets, what the descriptor for them converts is converted back
by the descriptor for the sets in the other order.** -/
theorem iconvOpen_back {fromcode tocode fromcode' tocode' : CStr} (hA : A.isCs (some fromcode))
    (hB : B.isCs (some tocode)) (hB' : B.isCs (some fromcode')) (hA' : A.isCs (some tocode')) :
    ∃ cd cd', iconvOpen (some tocode) (some fromcode) true = .ok cd ∧
      iconvOpen (some tocode') (some fromcode') true = .ok cd' ∧
      ∀ s k out k', Converts cd s k out → s.length ≤ k' → Converts cd' out k' s := by
  obtain ⟨cd, hopen, hsets⟩ := iconvOpen_eq hA hB
  obtain ⟨cd', hopen', hsets'⟩ := iconvOpen_eq hB' hA'
  obtain ⟨hsource, htarget⟩ := CdType.reverse hsets hsets'
  exact ⟨cd, cd', hopen, hopen', fun s k out k' h hk => h.back hsource htarget hk⟩

theorem iconvOpen_back_latin1 :
    ∃ cd cd', iconvOpen (some (str "utf-8")) (some (str "Latin1")) true = .ok cd ∧
      iconvOpen (some (str "iso8859-1")) (some (str "UTF8")) true = .ok cd' ∧
      ∀ s k out k', Converts cd s k out → s.length ≤ k' → Converts cd' out k' s :=
  iconvOpen_back (A := .iso8859) (B := .utf8) rfl rfl rfl rfl

end Vlibc.Iconv
