import Mathlib.Data.List.FinRange
import Mathlib.Data.List.GetD
import Vlibc.Strings

/-!
# The text of a digest

How the hashes of `crypt.c` that start with `$1$`, `$5$` and `$6$` end: the bytes of a digest, in an
order of their own, as characters of six bits. The digest can be told from them
(`digest_text_injective`).
-/

namespace Vlibc.Crypt

open Nat

/-- The digits in which a word is written. -/
def ascii64 : List UInt8 :=
  (str "./0123456789ABCDEFGHIJKLMNOPQRSTUVWXYZabcdefghijklmnopqrstuvwxyz").bytes

/-- `_crypt_to64`: the lowest `n` groups of six bits. -/
def cryptTo64 : (v n : ℕ) → List UInt8
  | _, 0 => []
  | v, n + 1 => ascii64.getD (v &&& 0x3f) 0 :: cryptTo64 (v >>> 6) n

/-- Three bytes as a word of 24 bits. -/
def word (b2 b1 b0 : UInt8) : ℕ := (b2.toNat <<< 16) ||| (b1.toNat <<< 8) ||| b0.toNat

/-- `b64_from_24bit`, whose loop is that of `_crypt_to64`. -/
def b64From24bit (b2 b1 b0 : UInt8) (n : ℕ) : List UInt8 := cryptTo64 (word b2 b1 b0) n

/-- The bytes of a digest at the places that are listed, three in four characters. -/
def triples {m : ℕ} (final : Vector UInt8 m) (places : List (Fin m × Fin m × Fin m)) :
    List UInt8 :=
  places.flatMap fun (i, j, k) => b64From24bit final[i] final[j] final[k] 4

/-- Which bytes of an MD5 digest are taken together, in the order of the source. -/
def md5Places : List (Fin 16 × Fin 16 × Fin 16) :=
  [(0, 6, 12), (1, 7, 13), (2, 8, 14), (3, 9, 15), (4, 10, 5)]

/-- The same for SHA-256. -/
def sha256Places : List (Fin 32 × Fin 32 × Fin 32) :=
  [(0, 10, 20), (21, 1, 11), (12, 22, 2), (3, 13, 23), (24, 4, 14), (15, 25, 5), (6, 16, 26),
    (27, 7, 17), (18, 28, 8), (9, 19, 29)]

/-- The same for SHA-512. -/
def sha512Places : List (Fin 64 × Fin 64 × Fin 64) :=
  [(0, 21, 42), (22, 43, 1), (44, 2, 23), (3, 24, 45), (25, 46, 4), (47, 5, 26), (6, 27, 48),
    (28, 49, 7), (50, 8, 29), (9, 30, 51), (31, 52, 10), (53, 11, 32), (12, 33, 54), (34, 55, 13),
    (56, 14, 35), (15, 36, 57), (37, 58, 16), (59, 17, 38), (18, 39, 60), (40, 61, 19),
    (62, 20, 41)]

/-- The end of `crypt_md5`. -/
def md5Text (final : Vector UInt8 16) : List UInt8 :=
  triples final md5Places ++ cryptTo64 final[11].toNat 2

/-- The end of `crypt_sha256`. -/
def sha256Text (alt_result : Vector UInt8 32) : List UInt8 :=
  triples alt_result sha256Places ++ b64From24bit 0 alt_result[31] alt_result[30] 3

/-- The end of `crypt_sha512`. -/
def sha512Text (alt_result : Vector UInt8 64) : List UInt8 :=
  triples alt_result sha512Places ++ b64From24bit 0 0 alt_result[63] 2

@[simp] theorem length_cryptTo64 (v n : ℕ) : (cryptTo64 v n).length = n := by
  induction n generalizing v with
  | zero => rfl
  | succ n ih => rw [cryptTo64, List.length_cons, ih]

theorem nodup_ascii64 : ascii64.Nodup := by decide

theorem mod_eq_of_cryptTo64_eq {n v w : ℕ} (h : cryptTo64 v n = cryptTo64 w n) :
    v % 64 ^ n = w % 64 ^ n := by
  induction n generalizing v w with
  | zero => rw [pow_zero, mod_one, mod_one]
  | succ n ih =>
    have hlow (v : ℕ) : v &&& 0x3f = v % 64 := and_two_pow_sub_one_eq_mod v 6
    have hlt (v : ℕ) : v % 64 < ascii64.length := mod_lt v (succ_pos 63)
    rw [cryptTo64, cryptTo64, List.cons.injEq, hlow, hlow, List.getD_eq_getElem _ _ (hlt v),
      List.getD_eq_getElem _ _ (hlt w), nodup_ascii64.getElem_inj_iff] at h
    have htail := ih h.2
    rw [shiftRight_eq_div_pow, shiftRight_eq_div_pow] at htail
    rw [pow_succ', mod_mul, mod_mul, h.1]
    exact congrArg (w % 64 + 64 * ·) htail

theorem word_eq (b2 b1 b0 : UInt8) :
    word b2 b1 b0 = b2.toNat * 2 ^ 16 + (b1.toNat * 2 ^ 8 + b0.toNat) := by
  have h0 := b0.toNat_lt
  have h1 := b1.toNat_lt
  have hlow : b1.toNat <<< 8 + b0.toNat < 2 ^ 16 := by
    rw [shiftLeft_eq]
    omega
  rw [word, Nat.or_assoc, ← shiftLeft_add_eq_or_of_lt h0, ← shiftLeft_add_eq_or_of_lt hlow,
    shiftLeft_eq, shiftLeft_eq]

/-- The text of a word has its bytes if it has enough characters. -/
theorem b64From24bit_inj {b2 b1 b0 c2 c1 c0 : UInt8} {n : ℕ} (hb : word b2 b1 b0 < 64 ^ n)
    (hc : word c2 c1 c0 < 64 ^ n) (h : b64From24bit b2 b1 b0 n = b64From24bit c2 c1 c0 n) :
    b2 = c2 ∧ b1 = c1 ∧ b0 = c0 := by
  have hword := mod_eq_of_cryptTo64_eq h
  rw [mod_eq_of_lt hb, mod_eq_of_lt hc, word_eq, word_eq] at hword
  have := b1.toNat_lt
  have := b0.toNat_lt
  have := c1.toNat_lt
  have := c0.toNat_lt
  refine ⟨?_, ?_, ?_⟩ <;> apply UInt8.toNat_inj.1 <;> omega

theorem word_lt (b2 b1 b0 : UInt8) : word b2 b1 b0 < 64 ^ 4 := by
  have := b2.toNat_lt
  have := b1.toNat_lt
  have := b0.toNat_lt
  rw [word_eq]
  omega

section Texts

variable {m : ℕ} {d e : Vector UInt8 m}

theorem triples_inj {places : List (Fin m × Fin m × Fin m)}
    (h : triples d places = triples e places) :
    ∀ p ∈ places, d[p.1] = e[p.1] ∧ d[p.2.1] = e[p.2.1] ∧ d[p.2.2] = e[p.2.2] := by
  induction places with
  | nil => exact fun p hp => absurd hp List.not_mem_nil
  | cons q places ih =>
    obtain ⟨hq, hplaces⟩ := List.append_inj h (by simp [b64From24bit])
    intro p hp
    rcases List.mem_cons.1 hp with rfl | hp
    · exact b64From24bit_inj (word_lt ..) (word_lt ..) hq
    · exact ih hplaces p hp

/-- A text has the bytes at its places, and the digest if only the places of `last` are missing
and the text that follows has those. -/
theorem eq_of_triples_eq {places : List (Fin m × Fin m × Fin m)} (last : List (Fin m))
    {t u : List UInt8} (hlen : t.length = u.length)
    (h : triples d places ++ t = triples e places ++ u)
    (hlast : t = u → ∀ i ∈ last, d[i] = e[i])
    (hall : (List.finRange m).all fun i =>
      last.contains i || places.any fun p => p.1 = i || p.2.1 = i || p.2.2 = i) : d = e := by
  obtain ⟨hplaces, htu⟩ := List.append_inj' h hlen
  apply Vector.ext
  intro i hi
  have hi' := List.all_eq_true.1 hall ⟨i, hi⟩ (List.mem_finRange _)
  simp only [Bool.or_eq_true, List.contains_iff_mem, List.any_eq_true, decide_eq_true_eq] at hi'
  rcases hi' with hi' | ⟨⟨j, k, l⟩, hp, hi'⟩
  · exact hlast htu _ hi'
  · obtain ⟨h1, h2, h3⟩ := triples_inj hplaces _ hp
    rcases hi' with (rfl | rfl) | rfl
    · exact h1
    · exact h2
    · exact h3

end Texts

/-- **The texts of digests are injective**: each byte of a digest can be read from its text. -/
theorem digest_text_injective : Function.Injective md5Text ∧ Function.Injective sha256Text ∧
    Function.Injective sha512Text := by
  refine ⟨fun d e h => ?_, fun d e h => ?_, fun d e h => ?_⟩
  · refine eq_of_triples_eq [11] (by simp) h ?_ (by decide)
    intro ht
    have hmod := mod_eq_of_cryptTo64_eq ht
    rw [mod_eq_of_lt (d[11].toNat_lt.trans (by decide)),
      mod_eq_of_lt (e[11].toNat_lt.trans (by decide))] at hmod
    simpa using UInt8.toNat_inj.1 hmod
  · refine eq_of_triples_eq [31, 30] (by simp [b64From24bit]) h ?_ (by decide)
    intro ht
    have hlt (b1 b0 : UInt8) : word 0 b1 b0 < 64 ^ 3 := by
      have := b1.toNat_lt
      have := b0.toNat_lt
      rw [word_eq, UInt8.toNat_zero]
      omega
    simpa using (b64From24bit_inj (hlt ..) (hlt ..) ht).2
  · refine eq_of_triples_eq [63] (by simp [b64From24bit]) h ?_ (by decide)
    intro ht
    have hlt (b0 : UInt8) : word 0 0 b0 < 64 ^ 2 := by
      have := b0.toNat_lt
      rw [word_eq, UInt8.toNat_zero]
      omega
    simpa using (b64From24bit_inj (hlt _) (hlt _) ht).2.2

end Vlibc.Crypt
