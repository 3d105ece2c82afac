import Vlibc.Inet.Pton
import Vlibc.Stdlib.Reads

/-!
# Dotted quads

`Quad` is the text of an IPv4 address, and `LooseQuad` is what `parse_ipv4` takes for one: each
number may have white space and a sign before it and any number of digits or none, and a blank and
anything may stand behind the last one (`parseIpv4_eq_some_iff`). So `inet_pton` is right about the
texts that are not loose, and about dotted quads (`inetPton_quad_iff`).
-/

namespace Vlibc.Inet

open Stdlib List Option BitVec

variable {s t r : List UInt8} {a b c d n : ℕ}

/-- One to three decimal digits that make a number up to 255. -/
def Octet (t : List UInt8) (n : ℕ) : Prop :=
  1 ≤ t.length ∧ t.length ≤ 3 ∧ (∀ c ∈ t, isDigitOf 10 c = true) ∧ n = horner 10 0 (digitVals t) ∧
    n ≤ 255

/-- Four of them, separated by single dots. -/
def Quad (s : List UInt8) (a b c d : ℕ) : Prop :=
  ∃ t₁ t₂ t₃ t₄, s = t₁ ++ dot :: (t₂ ++ dot :: (t₃ ++ dot :: t₄)) ∧
    Octet t₁ a ∧ Octet t₂ b ∧ Octet t₃ c ∧ Octet t₄ d

/-- A number up to 255 as `strtol` reads it, or nothing. -/
def LooseOctet (t : List UInt8) (n : ℕ) : Prop := n ≤ 255 ∧ (Loose 10 t n ∨ t = [] ∧ n = 0)

/-- The same at the end, where a blank and anything may follow. -/
def LooseLast (s : List UInt8) (n : ℕ) : Prop :=
  n ≤ 255 ∧ ∃ t tail, s = t ++ tail ∧
    (tail = [] ∨ tail.head? = some ' '.toUInt8 ∨ tail.head? = some '\t'.toUInt8) ∧
    (Loose 10 t n ∨ t = [] ∧ n = 0 ∧ ∀ text rest, tail = text ++ rest → ¬ Subject 10 text)

/-- Four octets with dots between them, as the code reads them. -/
def LooseQuad (s : List UInt8) (a b c d : ℕ) : Prop :=
  ∃ t₁ t₂ t₃ s₄, s = t₁ ++ dot :: (t₂ ++ dot :: (t₃ ++ dot :: s₄)) ∧
    LooseOctet t₁ a ∧ LooseOctet t₂ b ∧ LooseOctet t₃ c ∧ LooseLast s₄ d

theorem Octet.loose (h : Octet t n) : Loose 10 t n := by
  obtain ⟨hpos, -, hds, rfl, -⟩ := h
  have hne : t ≠ [] := length_pos_iff.1 hpos
  exact ⟨[], [], t, rfl, by simp, .inl rfl, .digits hne hds⟩

theorem Octet.looseOctet (h : Octet t n) : LooseOctet t n := ⟨h.2.2.2.2, .inl h.loose⟩

theorem Octet.looseLast (h : Octet t n) : LooseLast t n :=
  ⟨h.2.2.2.2, t, [], (append_nil t).symm, .inl rfl, .inl h.loose⟩

theorem Quad.loose (h : Quad s a b c d) : LooseQuad s a b c d := by
  obtain ⟨t₁, t₂, t₃, t₄, rfl, h₁, h₂, h₃, h₄⟩ := h
  exact ⟨t₁, t₂, t₃, t₄, rfl, h₁.looseOctet, h₂.looseOctet, h₃.looseOctet, h₄.looseLast⟩

theorem base_ten : 2 ≤ 10 ∧ 10 ≤ 36 := by decide

theorem stops_dot (r : List UInt8) : Stops 10 (dot :: r) := by
  rintro c ⟨⟩
  decide

theorem LooseOctet.strtol_eq (h : LooseOctet t n) (r : List UInt8) :
    strtol (t ++ dot :: r) 10 = ⟨BitVec.ofNat 64 n, dot :: r, none⟩ := by
  obtain ⟨hle, h | ⟨rfl, rfl⟩⟩ := h
  · exact strtol_of_loose base_ten h (stops_dot r) (by omega)
  · exact strtol_of_none base_ten rfl

theorem octet_eq_some_iff {v : BitVec 64} :
    octet s = some (v, r) ↔
      ∃ t n, s = t ++ dot :: r ∧ LooseOctet t n ∧ v = BitVec.ofNat 64 n := by
  unfold octet
  constructor
  · intro h
    dsimp only at h
    split_ifs at h with hbad
    cases h
    obtain ⟨hneg, hbig, hhead⟩ := not_or.1 hbad |>.imp_right not_or.1
    obtain ⟨t, n, rest, hs, hle, heq, ht⟩ := strtol_le base_ten (m := 255) (by decide)
      (not_or.2 ⟨hneg, hbig⟩)
    have heq : strtol s 10 = ⟨BitVec.ofNat 64 n, rest, none⟩ := heq
    rw [heq] at hhead ⊢
    obtain ⟨r, rfl⟩ := head?_eq_some_iff.1 (not_not.1 hhead)
    exact ⟨t, n, hs, ⟨hle, ht.imp_right fun ht => ⟨ht.1, ht.2.1⟩⟩, rfl⟩
  · rintro ⟨t, n, rfl, ht, rfl⟩
    have hvalue := toInt_ofNat_of_lt (show n < 2 ^ 63 by have := ht.1; omega)
    rw [ht.strtol_eq, if_neg]
    · rfl
    · have := ht.1
      simp only [hvalue, head?_cons, ne_eq, not_true_eq_false, or_false]
      omega

theorem digits_ten_eq_nil_iff :
    (scan s 10).digits = [] ↔ ∀ text rest, s = text ++ rest → ¬ Subject 10 text := by
  have hvalid : ValidBase 10 := .inr ⟨by decide, by decide⟩
  rw [digits_eq_nil_iff hvalid]
  constructor
  · rintro (hlone | hnone) text rest hs hsubject
    · rcases hlone with ⟨h, -⟩ | ⟨h | h, -⟩ <;> cases h
    · exact hnone rest ((exists_subject_iff 10 s rest).1 ⟨text, hs, hsubject⟩)
  · intro hnone
    refine .inr fun rest hrest => ?_
    obtain ⟨text, hs, hsubject⟩ := (exists_subject_iff 10 s rest).2 hrest
    exact hnone text rest hs hsubject

theorem lastOctet_eq_some_iff {v : BitVec 64} :
    lastOctet s = some v ↔ ∃ n, LooseLast s n ∧ v = BitVec.ofNat 64 n := by
  unfold lastOctet
  constructor
  · intro h
    dsimp only at h
    split_ifs at h with hbad
    cases h
    obtain ⟨hneg, hbig, hend⟩ := not_or.1 hbad |>.imp_right not_or.1
    obtain ⟨t, n, rest, hs, hle, heq, ht⟩ := strtol_le base_ten (m := 255) (by decide)
      (not_or.2 ⟨hneg, hbig⟩)
    have heq : strtol s 10 = ⟨BitVec.ofNat 64 n, rest, none⟩ := heq
    rw [heq] at hend ⊢
    refine ⟨n, ⟨hle, t, rest, hs, by tauto, ht.imp_right ?_⟩, rfl⟩
    rintro ⟨rfl, rfl, hdigits⟩
    rw [nil_append] at hs
    exact ⟨rfl, rfl, digits_ten_eq_nil_iff.1 (hs ▸ hdigits)⟩
  · rintro ⟨n, ⟨hle, t, tail, rfl, htail, ht⟩, rfl⟩
    have hvalue := toInt_ofNat_of_lt (show n < 2 ^ 63 by omega)
    have heq : strtol (t ++ tail) 10 = ⟨BitVec.ofNat 64 n, tail, none⟩ := by
      rcases ht with ht | ⟨rfl, rfl, hnone⟩
      · refine strtol_of_loose base_ten ht ?_ (by omega)
        intro c hc
        rcases htail with rfl | htail | htail
        · cases hc
        · cases htail.symm.trans hc
          decide
        · cases htail.symm.trans hc
          decide
      · exact strtol_of_none base_ten (digits_ten_eq_nil_iff.2 hnone)
    rw [heq, if_neg]
    rintro (hneg | hbig | ⟨hne, hspace, htab⟩)
    · dsimp only at hneg
      omega
    · dsimp only at hbig
      omega
    · rcases htail with htail | htail | htail
      · exact hne htail
      · exact hspace htail
      · exact htab htail

/-! ## The address -/

/-- Four bytes in one word, the first one highest. -/
def bigEndian (x y z w : BitVec 8) : BitVec 32 :=
  x.setWidth 32 <<< 24 ||| y.setWidth 32 <<< 16 ||| z.setWidth 32 <<< 8 ||| w.setWidth 32

theorem getLsbD_bigEndian (x y z w : BitVec 8) (i : ℕ) : (bigEndian x y z w).getLsbD i =
    if i < 8 then w.getLsbD i else if i < 16 then z.getLsbD (i - 8)
    else if i < 24 then y.getLsbD (i - 16) else x.getLsbD (i - 24) := by
  simp only [bigEndian, getLsbD_or, getLsbD_shiftLeft, getLsbD_setWidth]
  grind

theorem htonl_bigEndian (x y z w : BitVec 8) :
    htonl (bigEndian x y z w) = [.ofBitVec x, .ofBitVec y, .ofBitVec z, .ofBitVec w] := by
  have hbytes : (bigEndian x y z w >>> 24).setWidth 8 = x ∧ (bigEndian x y z w >>> 16).setWidth 8 = y ∧
      (bigEndian x y z w >>> 8).setWidth 8 = z ∧ (bigEndian x y z w).setWidth 8 = w := by
    refine ⟨?_, ?_, ?_, ?_⟩ <;> ext i hi <;>
      simp only [getElem_setWidth, getLsbD_ushiftRight, getLsbD_bigEndian] <;> grind
  obtain ⟨hx, hy, hz, hw⟩ := hbytes
  rw [htonl, hx, hy, hz, hw]

/-- The address of four octets. -/
def address (a b c d : ℕ) : BitVec 32 := bigEndian (.ofNat 8 a) (.ofNat 8 b) (.ofNat 8 c) (.ofNat 8 d)

theorem setWidth_ofNat (h : n ≤ 255) (w : ℕ) :
    (BitVec.ofNat 64 n).setWidth w = (BitVec.ofNat 8 n).setWidth w := by
  apply eq_of_toNat_eq
  rw [toNat_setWidth, toNat_setWidth, toNat_ofNat, toNat_ofNat,
    Nat.mod_eq_of_lt (show n < 2 ^ 64 by omega), Nat.mod_eq_of_lt (show n < 2 ^ 8 by omega)]

theorem parseIpv4_eq_some_iff {ip : BitVec 32} :
    parseIpv4 s = some ip ↔ ∃ a b c d, LooseQuad s a b c d ∧ ip = address a b c d := by
  simp only [parseIpv4, bind_eq_bind, bind_eq_some_iff, Prod.exists, octet_eq_some_iff,
    lastOctet_eq_some_iff, Option.pure_def, some.injEq]
  constructor
  · rintro ⟨_, _, ⟨t₁, a, rfl, h₁, rfl⟩, _, _, ⟨t₂, b, rfl, h₂, rfl⟩, _, _, ⟨t₃, c, rfl, h₃, rfl⟩, _,
      ⟨d, h₄, rfl⟩, rfl⟩
    refine ⟨a, b, c, d, ⟨t₁, t₂, t₃, _, rfl, h₁, h₂, h₃, h₄⟩, ?_⟩
    rw [setWidth_ofNat h₁.1, setWidth_ofNat h₂.1, setWidth_ofNat h₃.1, setWidth_ofNat h₄.1]
    rfl
  · rintro ⟨a, b, c, d, ⟨t₁, t₂, t₃, s₄, rfl, h₁, h₂, h₃, h₄⟩, rfl⟩
    refine ⟨_, _, ⟨t₁, a, rfl, h₁, rfl⟩, _, _, ⟨t₂, b, rfl, h₂, rfl⟩, _, _, ⟨t₃, c, rfl, h₃, rfl⟩, _,
      ⟨d, h₄, rfl⟩, ?_⟩
    rw [setWidth_ofNat h₁.1, setWidth_ofNat h₂.1, setWidth_ofNat h₃.1, setWidth_ofNat h₄.1]
    rfl

/-- **`inet_pton` accepts exactly the dotted quads and stores their numbers**, if the text is a dotted
quad or not even a loose one. -/
theorem inetPton_quad_iff (s : CStr) (dst : List UInt8) :
    (((inetPton AF_INET (some s) (some dst)).code = 1 ↔ ∃ a b c d, Quad s.bytes a b c d) ∧
      ∀ a b c d, Quad s.bytes a b c d → (inetPton AF_INET (some s) (some dst)).dst =
        [.ofNat a, .ofNat b, .ofNat c, .ofNat d] ++ dst.drop 4) ↔
    ((∃ a b c d, LooseQuad s.bytes a b c d) → ∃ a b c d, Quad s.bytes a b c d) := by
  have hcode : (inetPton AF_INET (some s) (some dst)).code = 1 ↔
      ∃ a b c d, LooseQuad s.bytes a b c d := by
    rw [inetPton, if_pos rfl]
    cases hparse : parseIpv4 s.bytes with
    | none =>
      refine iff_of_false (show ¬ (0 : ℤ) = 1 by decide) ?_
      rintro ⟨a, b, c, d, h⟩
      cases hparse.symm.trans (parseIpv4_eq_some_iff.2 ⟨a, b, c, d, h, rfl⟩)
    | some ip =>
      obtain ⟨a, b, c, d, h, -⟩ := parseIpv4_eq_some_iff.1 hparse
      exact iff_of_true rfl ⟨a, b, c, d, h⟩
  rw [hcode]
  constructor
  · rintro ⟨hexact, -⟩
    exact hexact.1
  · refine fun hexact => ⟨⟨hexact, ?_⟩, ?_⟩
    · rintro ⟨a, b, c, d, h⟩
      exact ⟨a, b, c, d, h.loose⟩
    · intro a b c d h
      have hparse := parseIpv4_eq_some_iff.2 ⟨a, b, c, d, h.loose, rfl⟩
      rw [inetPton, if_pos rfl, hparse]
      dsimp only
      rw [address, htonl_bigEndian]
      rfl

theorem Quad.mem (h : Quad s a b c d) {x : UInt8} (hx : x ∈ s) : x = dot ∨ isDigitOf 10 x = true := by
  obtain ⟨t₁, t₂, t₃, t₄, rfl, h₁, h₂, h₃, h₄⟩ := h
  simp only [mem_append, mem_cons] at hx
  rcases hx with hx | hx | hx | hx | hx | hx | hx
  · exact .inr (h₁.2.2.1 x hx)
  · exact .inl hx
  · exact .inr (h₂.2.2.1 x hx)
  · exact .inl hx
  · exact .inr (h₃.2.2.1 x hx)
  · exact .inl hx
  · exact .inr (h₄.2.2.1 x hx)

/-- Behind a blank anything is accepted. -/
theorem inetPton_accepts_junk :
    inetPton AF_INET (some (str "1.2.3.4 junk")) (some [0, 0, 0, 0]) = ⟨1, [1, 2, 3, 4], none⟩ ∧
      ¬ ∃ a b c d, Quad (str "1.2.3.4 junk").bytes a b c d := by
  refine ⟨by decide, ?_⟩
  rintro ⟨a, b, c, d, h⟩
  exact absurd (h.mem (x := ' '.toUInt8) (by decide)) (by decide)

end Vlibc.Inet
