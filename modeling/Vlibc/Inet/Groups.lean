import Vlibc.Inet.Quad

/-!
# What `parse_ipv6` accepts

The texts, with the words that are stored for them (`parseIpv6_eq_some_iff`). A group is any text that
`strtol` reads as a number up to `ffff`; a colon may stand behind the last one, and `::` may stand for no
word at all. A dotted quad is read as a group, up to the first dot, and three numbers, so that it makes
three words.
-/

namespace Vlibc.Inet

open Stdlib List Option Function Nat BitVec

variable {s t r : List UInt8} {n : ℕ} {ws : List ℕ}

section Grammar

variable (field : List UInt8 → ℕ → Prop) (last : List UInt8 → List ℕ → Prop)

/-- Groups that are separated by single colons, with their words. `last` is the text of the last one. -/
inductive Groups : List UInt8 → List ℕ → Prop
  | last {t : List UInt8} {ws : List ℕ} (h : last t ws) : Groups t ws
  | cons {t s : List UInt8} {n : ℕ} {ws : List ℕ} (ht : field t n) (hs : Groups s ws) :
    Groups (t ++ colon :: s) (n :: ws)

/-- A text for one word. -/
def One (t : List UInt8) (ws : List ℕ) : Prop := ∃ n, field t n ∧ ws = [n]

/-- Something or nothing. -/
def Part (groups : List UInt8 → List ℕ → Prop) (s : List UInt8) (ws : List ℕ) : Prop :=
  s = [] ∧ ws = [] ∨ groups s ws

/-- Groups before `::` and groups behind it, for at most `most` words. -/
def Short (pre post : List UInt8 → List ℕ → Prop) (most : ℕ) (s : List UInt8) (ws₁ ws₂ : List ℕ) :
    Prop :=
  ∃ s₁ s₂, s = s₁ ++ colon :: colon :: s₂ ∧ Part pre s₁ ws₁ ∧ post s₂ ws₂ ∧ ws₁.length < 8 ∧
    ws₁.length + ws₂.length ≤ most

end Grammar

/-- Eight words: zeros fill the place of `::`. -/
def filled (ws₁ ws₂ : List ℕ) : List ℕ :=
  ws₁ ++ List.replicate (8 - (ws₁.length + ws₂.length)) 0 ++ ws₂

/-- What is taken for a group. -/
def LooseGroup (t : List UInt8) (n : ℕ) : Prop := Loose 16 t n ∧ n ≤ 0xffff

/-- What is taken for a dotted quad, and its three words. -/
def LooseDotted (s : List UInt8) (ws : List ℕ) : Prop :=
  ∃ t₁ t₂ t₃ s₄ h b c d, s = t₁ ++ dot :: (t₂ ++ dot :: (t₃ ++ dot :: s₄)) ∧
    (LooseGroup t₁ h ∨ t₁ = [] ∧ h = 0) ∧ LooseOctet t₂ b ∧ LooseOctet t₃ c ∧ LooseLast s₄ d ∧
    ws = [h, b, 256 * c + d]

/-- The last group: it may have a colon behind it, or be in dotted form. -/
def LooseEnd (s : List UInt8) (ws : List ℕ) : Prop :=
  One LooseGroup s ws ∨ (∃ t, s = t ++ [colon] ∧ One LooseGroup t ws) ∨ LooseDotted s ws

/-- **The texts that `parse_ipv6` accepts**, with the words that it stores. -/
def LooseDenotes (s : List UInt8) (ws : List ℕ) : Prop :=
  Groups LooseGroup LooseEnd s ws ∧ ws.length = 8 ∨
    ∃ ws₁ ws₂, ws = filled ws₁ ws₂ ∧
      Short (Groups LooseGroup (One LooseGroup)) (Part (Groups LooseGroup LooseEnd)) 8 s ws₁ ws₂

/-! ## One turn of the loop -/

/-- The words of an address. -/
def wordsOf (ws : List ℕ) : List (BitVec 16) := ws.map (BitVec.ofNat 16)

theorem base_sixteen : 2 ≤ 16 ∧ 16 ≤ 36 := by decide

theorem stops_sixteen {c : UInt8} (hc : c = dot ∨ c = colon) (r : List UInt8) : Stops 16 (c :: r) := by
  rintro x ⟨⟩
  rcases hc with rfl | rfl
  · decide
  · decide

theorem loose_not_mem {base : ℕ} (hbase : base = 10 ∨ base = 16) (h : Loose base t n) {c : UInt8}
    (hc : c ∈ t) : c ≠ dot ∧ c ≠ colon := by
  have hmem := h.mem hc
  constructor
  · rintro rfl
    rcases hbase with rfl | rfl <;> exact absurd hmem (by decide)
  · rintro rfl
    rcases hbase with rfl | rfl <;> exact absurd hmem (by decide)

theorem LooseGroup.strtol_eq (h : LooseGroup t n) (hr : Stops 16 r) :
    strtol (t ++ r) 16 = ⟨BitVec.ofNat 64 n, r, none⟩ :=
  strtol_of_loose base_sixteen h.1 hr (by have := h.2; omega)

variable {words : List (BitVec 16)} {zpos : Option ℕ} {fuel : ℕ} {buf : List UInt8} {e : List UInt8}

theorem parseLoop_number (hs : s ≠ []) (hcolon : s.head? ≠ some colon)
    (hwords : words.length < 8) (hval : strtol s 16 = ⟨BitVec.ofNat 64 n, e, none⟩) (hn : n ≤ 0xffff) :
    parseLoop (fuel + 1) s words zpos =
      if e.head? = some dot then
        if 6 < words.length + 1 then none
        else (parseIpv4 e).map fun ipv4 : BitVec 32 => ([], words ++ [BitVec.ofNat 16 n] ++
          [(ipv4 >>> 16).setWidth 16, ipv4.setWidth 16], zpos)
      else if e.head? = some colon then
        parseLoop fuel e.tail (words ++ [BitVec.ofNat 16 n]) zpos
      else if e ≠ [] then none
      else parseLoop fuel e (words ++ [BitVec.ofNat 16 n]) zpos := by
  have hvalue := toInt_ofNat_of_lt (show n < 2 ^ 63 by omega)
  have hword : (BitVec.ofNat 64 n).setWidth 16 = BitVec.ofNat 16 n :=
    setWidth_ofNat_of_le (by decide) n
  rw [parseLoop, if_neg (by simp [hs, hwords]), if_neg hcolon, hval]
  dsimp only
  rw [hvalue, if_neg (by omega), hword, length_append, length_singleton]

theorem head?_ne_colon (h : LooseGroup t n) (r : List UInt8) : (t ++ r).head? ≠ some colon := by
  obtain ⟨c, t, rfl⟩ := exists_cons_of_ne_nil h.1.ne_nil
  intro hc
  exact (loose_not_mem (.inr rfl) h.1 mem_cons_self).2 (some.inj hc)

theorem parseLoop_group (h : LooseGroup t n) (hwords : words.length < 8) (r : List UInt8) :
    parseLoop (fuel + 1) (t ++ colon :: r) words zpos =
      parseLoop fuel r (words ++ [BitVec.ofNat 16 n]) zpos := by
  rw [parseLoop_number (by simp) (head?_ne_colon h _) hwords
    (h.strtol_eq (stops_sixteen (.inr rfl) r)) h.2]
  rfl

theorem parseLoop_last (h : LooseGroup t n) (hwords : words.length < 8) :
    parseLoop (fuel + 1) t words zpos = parseLoop fuel [] (words ++ [BitVec.ofNat 16 n]) zpos := by
  have hcolon := head?_ne_colon h []
  have hval := h.strtol_eq (stops_nil 16)
  rw [append_nil] at hcolon hval
  rw [parseLoop_number h.1.ne_nil hcolon hwords hval h.2]
  rfl

theorem ofNat_word {c d : ℕ} (hc : c ≤ 255) (hd : d ≤ 255) : BitVec.ofNat 16 (256 * c + d) =
    (BitVec.ofNat 8 c).setWidth 16 <<< 8 ||| (BitVec.ofNat 8 d).setWidth 16 := by
  apply eq_of_toNat_eq
  have hor := shiftLeft_add_eq_or_of_lt (b := d) (i := 8) (by omega) c
  rw [Nat.shiftLeft_eq] at hor
  simp only [toNat_ofNat, toNat_or, toNat_shiftLeft, toNat_setWidth, Nat.shiftLeft_eq]
  rw [mod_eq_of_lt (show c < 2 ^ 8 by omega), mod_eq_of_lt (show d < 2 ^ 8 by omega),
    mod_eq_of_lt (show c < 2 ^ 16 by omega), mod_eq_of_lt (show d < 2 ^ 16 by omega),
    mod_eq_of_lt (show c * 2 ^ 8 < 2 ^ 16 by omega), ← hor, mod_eq_of_lt (by omega)]
  omega

theorem words_address {b c d : ℕ} (hb : b ≤ 255) (hc : c ≤ 255) (hd : d ≤ 255) :
    (address 0 b c d >>> 16).setWidth 16 = BitVec.ofNat 16 b ∧
      (address 0 b c d).setWidth 16 = BitVec.ofNat 16 (256 * c + d) := by
  have hb' := ofNat_word (zero_le 255) hb
  rw [Nat.mul_zero, zero_add] at hb'
  rw [hb', ofNat_word hc hd, address]
  constructor
  · ext i hi
    simp only [getElem_setWidth, getLsbD_ushiftRight, getLsbD_bigEndian,
      getElem_or, getElem_shiftLeft]
    grind
  · ext i hi
    simp only [getElem_setWidth, getLsbD_bigEndian, getElem_or, getElem_shiftLeft]
    grind

theorem LooseDotted.length_eq (h : LooseDotted s ws) : ws.length = 3 := by
  obtain ⟨_, _, _, _, _, _, _, _, -, -, -, -, -, rfl⟩ := h
  rfl

theorem parseLoop_dotted (h : LooseDotted s ws) (hwords : words.length < 8) :
    parseLoop (fuel + 1) s words zpos =
      if words.length ≤ 5 then some ([], words ++ wordsOf ws, zpos) else none := by
  obtain ⟨t₁, t₂, t₃, s₄, h, b, c, d, rfl, h₁, h₂, h₃, h₄, rfl⟩ := h
  have hquad : LooseQuad (dot :: (t₂ ++ dot :: (t₃ ++ dot :: s₄))) 0 b c d :=
    ⟨[], t₂, t₃, s₄, rfl, ⟨by decide, .inr ⟨rfl, rfl⟩⟩, h₂, h₃, h₄⟩
  obtain ⟨hhigh, hlow⟩ := words_address h₂.1 h₃.1 h₄.1
  have hparse := parseIpv4_eq_some_iff.2 ⟨0, b, c, d, hquad, rfl⟩
  have hnumber : strtol (t₁ ++ dot :: (t₂ ++ dot :: (t₃ ++ dot :: s₄))) 16 =
      ⟨BitVec.ofNat 64 h, dot :: (t₂ ++ dot :: (t₃ ++ dot :: s₄)), none⟩ := by
    rcases h₁ with h₁ | ⟨rfl, rfl⟩
    · exact h₁.strtol_eq (stops_sixteen (.inl rfl) _)
    · exact strtol_of_none base_sixteen rfl
  have hcolon : (t₁ ++ dot :: (t₂ ++ dot :: (t₃ ++ dot :: s₄))).head? ≠ some colon := by
    rcases h₁ with h₁ | ⟨rfl, rfl⟩
    · exact head?_ne_colon h₁ _
    · exact fun h => absurd (some.inj h) (by decide)
  have hle : h ≤ 0xffff := h₁.elim (·.2) (fun h₁ => by omega)
  rw [parseLoop_number (by simp) hcolon hwords hnumber hle, if_pos head?_cons, hparse]
  dsimp only [map_some]
  rw [hhigh, hlow, List.append_assoc]
  by_cases hroom : words.length ≤ 5
  · rw [if_neg (by omega), if_pos hroom]
    rfl
  · rw [if_pos (by omega), if_neg hroom]

theorem LooseOctet.eq_nil (h : LooseOctet t n) (heq : t ++ r = dot :: e) :
    t = [] ∧ n = 0 := by
  rcases h.2 with h | h
  · obtain ⟨c, t, rfl⟩ := exists_cons_of_ne_nil h.ne_nil
    exact absurd (cons.inj heq).1 (loose_not_mem (.inl rfl) h mem_cons_self).1
  · exact h

theorem exists_looseDotted {ip : BitVec 32} (hn : n ≤ 0xffff)
    (ht : Loose 16 t n ∨ t = [] ∧ n = 0) (hip : parseIpv4 (dot :: e) = some ip) :
    ∃ ws, LooseDotted (t ++ dot :: e) ws ∧
      wordsOf ws = BitVec.ofNat 16 n :: [(ip >>> 16).setWidth 16, ip.setWidth 16] := by
  obtain ⟨a, b, c, d, hquad, rfl⟩ := parseIpv4_eq_some_iff.1 hip
  obtain ⟨t₁, t₂, t₃, s₄, he, h₁, h₂, h₃, h₄⟩ := hquad
  obtain ⟨rfl, rfl⟩ := h₁.eq_nil he.symm
  obtain ⟨hhigh, hlow⟩ := words_address h₂.1 h₃.1 h₄.1
  refine ⟨[n, b, 256 * c + d], ⟨t, t₂, t₃, s₄, n, b, c, d, ?_, ?_, h₂, h₃, h₄, rfl⟩, ?_⟩
  · rw [he]
    rfl
  · exact ht.imp_left fun ht => ⟨ht, hn⟩
  · rw [hhigh, hlow]
    rfl

/-- **What one turn can do.** -/
theorem parseLoop_cases {res : List UInt8 × List (BitVec 16) × Option ℕ}
    (h : parseLoop (fuel + 1) s words zpos = some res) :
    ((s = [] ∨ 8 ≤ words.length) ∧ res = (s, words, zpos)) ∨
    (words.length < 8 ∧
      ((∃ r, s = colon :: r ∧ r.head? ≠ some colon ∧ zpos = none ∧
        parseLoop fuel r words (some words.length) = some res) ∨
      (∃ t n r, s = t ++ colon :: r ∧ LooseGroup t n ∧
        parseLoop fuel r (words ++ [BitVec.ofNat 16 n]) zpos = some res) ∨
      (∃ n, LooseGroup s n ∧ parseLoop fuel [] (words ++ [BitVec.ofNat 16 n]) zpos = some res) ∨
      ∃ ws, LooseDotted s ws ∧ words.length ≤ 5 ∧ res = ([], words ++ wordsOf ws, zpos))) := by
  by_cases hend : s = [] ∨ 8 ≤ words.length
  · rw [parseLoop, if_pos hend] at h
    exact .inl ⟨hend, (some.inj h).symm⟩
  obtain ⟨hs, hwords⟩ := not_or.1 hend
  have hwords := not_le.1 hwords
  refine .inr ⟨hwords, ?_⟩
  by_cases hcolon : s.head? = some colon
  · rw [parseLoop, if_neg hend, if_pos hcolon] at h
    obtain ⟨r, rfl⟩ := head?_eq_some_iff.1 hcolon
    split_ifs at h with hz hr
    exact .inl ⟨r, rfl, hr, not_not.1 hz, h⟩
  refine .inr ?_
  by_cases hrange : (strtol s 16).value.toInt < 0 ∨ 0xffff < (strtol s 16).value.toInt
  · rw [parseLoop, if_neg hend, if_neg hcolon] at h
    rw [if_pos hrange] at h
    cases h
  obtain ⟨t, n, e, hs', hn, hval, ht⟩ := strtol_le base_sixteen (m := 0xffff) (by decide) hrange
  rw [parseLoop_number hs hcolon hwords hval hn] at h
  split_ifs at h with hdot hroom hcolon' hnil
  · obtain ⟨e, rfl⟩ := head?_eq_some_iff.1 hdot
    obtain ⟨ip, hip, rfl⟩ := map_eq_some_iff.1 h
    obtain ⟨ws, hdotted, hws⟩ := exists_looseDotted hn (ht.imp_right fun ht => ⟨ht.1, ht.2.1⟩) hip
    refine .inr (.inr ⟨ws, hs' ▸ hdotted, by omega, ?_⟩)
    rw [hws, List.append_assoc]
    rfl
  · obtain ⟨r, rfl⟩ := head?_eq_some_iff.1 hcolon'
    rcases ht with ht | ⟨rfl, -⟩
    · exact .inl ⟨t, n, r, hs', ⟨ht, hn⟩, h⟩
    · exact absurd (by rw [hs']; rfl) hcolon
  · obtain rfl := not_not.1 hnil
    rw [append_nil] at hs'
    subst hs'
    rcases ht with ht | ⟨rfl, -⟩
    · exact .inr (.inl ⟨n, ⟨ht, hn⟩, h⟩)
    · exact absurd rfl hs

/-! ## The loop -/

/-- Groups with a colon behind each of them. -/
inductive Terminated (field : List UInt8 → ℕ → Prop) : List UInt8 → List ℕ → Prop
  | nil : Terminated field [] []
  | cons {t s : List UInt8} {n : ℕ} {ws : List ℕ} (ht : field t n) (hs : Terminated field s ws) :
    Terminated field (t ++ colon :: s) (n :: ws)

variable {field : List UInt8 → ℕ → Prop}

theorem Groups.terminated (h : Groups field (One field) s ws) :
    Terminated field (s ++ [colon]) ws := by
  induction h with
  | last h =>
    obtain ⟨n, ht, rfl⟩ := h
    exact .cons ht .nil
  | cons ht hs ih =>
    rw [List.append_assoc, List.cons_append]
    exact .cons ht ih

theorem Terminated.groups (h : Terminated field s ws) :
    s = [] ∧ ws = [] ∨ ∃ s', s = s' ++ [colon] ∧ Groups field (One field) s' ws := by
  induction h with
  | nil => exact .inl ⟨rfl, rfl⟩
  | @cons t s n ws ht hs ih =>
    refine .inr ?_
    rcases ih with ⟨rfl, rfl⟩ | ⟨s', rfl, hs'⟩
    · exact ⟨t, rfl, .last ⟨n, ht, rfl⟩⟩
    · exact ⟨t ++ colon :: s', by rw [List.append_assoc, List.cons_append], .cons ht hs'⟩

theorem parseLoop_nil (fuel : ℕ) (words : List (BitVec 16)) (zpos : Option ℕ) :
    parseLoop (fuel + 1) [] words zpos = some ([], words, zpos) := by
  rw [parseLoop, if_pos (.inl rfl)]

theorem parseLoop_terminated {p : List UInt8} (h : Terminated LooseGroup p ws)
    (hroom : words.length + ws.length ≤ 8) (fuel : ℕ) (r : List UInt8) :
    parseLoop (fuel + ws.length) (p ++ r) words zpos =
      parseLoop fuel r (words ++ wordsOf ws) zpos := by
  induction h generalizing words with
  | nil =>
    rw [wordsOf, map_nil, append_nil]
    rfl
  | @cons t s n ws ht hs ih =>
    rw [length_cons] at hroom
    rw [List.append_assoc, List.cons_append, length_cons, ← add_assoc,
      parseLoop_group ht (by omega), ih]
    · rw [List.append_assoc]
      rfl
    · rw [length_append, length_singleton]
      omega

theorem parseLoop_groups (h : Groups LooseGroup LooseEnd s ws)
    (hroom : words.length + ws.length ≤ 8) (hfuel : ws.length < fuel) :
    parseLoop fuel s words zpos = some ([], words ++ wordsOf ws, zpos) := by
  obtain ⟨fuel, rfl⟩ := exists_eq_add_one.2 (zero_lt_of_lt hfuel)
  induction h generalizing words fuel with
  | last h =>
    obtain ⟨n, ht, rfl⟩ | ⟨t, rfl, n, ht, rfl⟩ | hdotted := h
    · obtain ⟨fuel, rfl⟩ := exists_eq_add_one.2 (show 0 < fuel by simpa using hfuel)
      rw [parseLoop_last ht (by simpa using hroom), parseLoop_nil]
      rfl
    · obtain ⟨fuel, rfl⟩ := exists_eq_add_one.2 (show 0 < fuel by simpa using hfuel)
      rw [parseLoop_group ht (by simpa using hroom), parseLoop_nil]
      rfl
    · have hlen := hdotted.length_eq
      rw [parseLoop_dotted hdotted (by omega), if_pos (by omega)]
  | @cons t s n ws ht hs ih =>
    rw [length_cons] at hroom hfuel
    obtain ⟨fuel, rfl⟩ := exists_eq_add_one.2 (show 0 < fuel by omega)
    rw [parseLoop_group ht (by omega), ih _ _ (by omega)]
    · rw [List.append_assoc]
      rfl
    · rw [length_append, length_singleton]
      omega

/-- **What has been read when the loop comes to the end of the text**: groups, or groups with `::`
among them. By induction on the turns. -/
theorem parseLoop_spec {words' : List (BitVec 16)} {zpos' : Option ℕ} (hwords : words.length ≤ 8)
    (h : parseLoop fuel s words zpos = some ([], words', zpos')) :
    (zpos' = zpos ∧ ∃ ws, Part (Groups LooseGroup LooseEnd) s ws ∧ words' = words ++ wordsOf ws ∧
      words.length + ws.length ≤ 8) ∨
    (zpos = none ∧ ∃ p ws₁ s₂ ws₂, s = p ++ colon :: s₂ ∧ Terminated LooseGroup p ws₁ ∧
      Part (Groups LooseGroup LooseEnd) s₂ ws₂ ∧ zpos' = some (words.length + ws₁.length) ∧
      words' = words ++ wordsOf (ws₁ ++ ws₂) ∧ words.length + ws₁.length < 8 ∧
      words.length + (ws₁.length + ws₂.length) ≤ 8) := by
  induction fuel generalizing s words zpos with
  | zero => cases h
  | succ fuel ih =>
    obtain ⟨-, hres⟩ | ⟨hlt, ⟨r, rfl, -, rfl, hrun⟩ | ⟨t, n, r, rfl, ht, hrun⟩ | ⟨n, ht, hrun⟩ |
      ⟨ws, hdotted, hroom, hres⟩⟩ := parseLoop_cases h
    · cases hres
      exact .inl ⟨rfl, [], .inl ⟨rfl, rfl⟩, (append_nil _).symm, hwords⟩
    · obtain ⟨hz, ws, hs, hw, hroom⟩ | ⟨hz, -⟩ := ih hwords hrun
      · refine .inr ⟨rfl, [], [], r, ws, rfl, .nil, hs, hz, hw, hlt, ?_⟩
        rwa [length_nil, zero_add]
      · cases hz
    · have hlen : (words ++ [BitVec.ofNat 16 n]).length = words.length + 1 := by simp
      obtain ⟨hz, ws, hs, rfl, hroom⟩ | ⟨hz, p, ws₁, s₂, ws₂, rfl, hp, hs, hz', rfl, hlt', hroom⟩ :=
        ih (by omega) hrun
      · refine .inl ⟨hz, n :: ws, .inr ?_, List.append_assoc .., by rw [length_cons]; omega⟩
        rcases hs with ⟨rfl, rfl⟩ | hs
        · exact .last (.inr (.inl ⟨t, rfl, n, ht, rfl⟩))
        · exact .cons ht hs
      · refine .inr ⟨hz, t ++ colon :: p, n :: ws₁, s₂, ws₂, ?_, .cons ht hp, hs, ?_,
          List.append_assoc .., ?_, ?_⟩
        · rw [List.append_assoc, List.cons_append]
        · rw [hz', hlen, length_cons, add_assoc, add_comm 1]
        · rw [length_cons]
          omega
        · rw [length_cons]
          omega
    · cases fuel with
      | zero => cases hrun
      | succ fuel =>
        rw [parseLoop_nil] at hrun
        cases hrun
        exact .inl ⟨rfl, [n], .inr (.last (.inl ⟨n, ht, rfl⟩)), rfl, hlt⟩
    · cases hres
      have hlen := hdotted.length_eq
      exact .inl ⟨rfl, ws, .inr (.last (.inr (.inr hdotted))), rfl, by omega⟩

theorem shiftLoop_apply (fill zpos n : ℕ) (a : ℕ → BitVec 16) (i : ℕ) :
    shiftLoop fill zpos n a i = if zpos + fill ≤ i ∧ i < zpos + n + fill then a (i - fill) else a i := by
  induction n generalizing a with
  | zero => rw [shiftLoop, if_neg (by omega)]
  | succ n ih =>
    rw [shiftLoop, ih]
    by_cases hi : i = zpos + n + fill
    · rw [if_neg (by omega), if_pos (by omega), hi, update_self, Nat.add_sub_cancel]
    · by_cases hin : zpos + fill ≤ i ∧ i < zpos + n + fill
      · rw [if_pos hin, if_pos (by omega), update_of_ne (by omega)]
      · rw [if_neg hin, if_neg (by omega), update_of_ne hi]

theorem clearLoop_apply (i n : ℕ) (a : ℕ → BitVec 16) (j : ℕ) :
    clearLoop i n a j = if i ≤ j ∧ j < i + n then 0 else a j := by
  induction n generalizing i a with
  | zero => rw [clearLoop, if_neg (by omega)]
  | succ n ih =>
    rw [clearLoop, ih]
    by_cases hj : j = i
    · rw [hj, if_neg (by omega), if_pos (by omega), update_self]
    · rw [update_of_ne hj]
      exact if_congr (by omega) rfl rfl

theorem out_congr {a a' : ℕ → BitVec 16} (h : ∀ i < 8, a i = a' i) : out a = out a' := by
  rw [out, out]
  apply flatMap_congr
  intro i hi
  rw [h i (mem_range.1 hi)]

theorem array_wordsOf (ws : List ℕ) (i : ℕ) : array (wordsOf ws) i = BitVec.ofNat 16 (ws.getD i 0) :=
  List.getD_map (f := BitVec.ofNat 16) ..

theorem finish_some {ws₁ ws₂ : List ℕ} (h : ws₁.length + ws₂.length ≤ 8) :
    finish (wordsOf (ws₁ ++ ws₂)) (some ws₁.length) =
      some (out (array (wordsOf (filled ws₁ ws₂)))) := by
  have hcur : (wordsOf (ws₁ ++ ws₂)).length = ws₁.length + ws₂.length := by simp [wordsOf]
  rw [finish, hcur, Nat.add_sub_cancel_left, filled]
  obtain ⟨fill, hfill⟩ : ∃ fill, fill = 8 - (ws₁.length + ws₂.length) := ⟨_, rfl⟩
  rw [← hfill]
  congr 1
  apply out_congr
  intro i hi
  rw [clearLoop_apply, shiftLoop_apply, array_wordsOf, array_wordsOf, array_wordsOf]
  have hlen : (ws₁ ++ List.replicate fill 0).length = ws₁.length + fill := by simp
  by_cases hclear : ws₁.length ≤ i ∧ i < ws₁.length + fill
  · rw [if_pos hclear, getD_append _ _ _ _ (by omega), getD_append_right _ _ _ _ hclear.1,
      getD_replicate _ (by omega)]
    rfl
  · rw [if_neg hclear]
    by_cases hlow : i < ws₁.length
    · rw [if_neg (by omega), getD_append _ _ _ _ hlow, getD_append _ _ _ _ (by omega),
        getD_append _ _ _ _ hlow]
    · rw [if_pos (by omega), getD_append_right _ _ _ _ (by omega),
        getD_append_right _ _ _ _ (by omega), hlen]
      congr 2
      omega

/-! ## The whole text -/

theorem LooseEnd.head? (h : LooseEnd s ws) : s.head? ≠ some colon := by
  obtain ⟨n, ht, -⟩ | ⟨t, rfl, n, ht, -⟩ | ⟨t₁, t₂, t₃, s₄, h, b, c, d, rfl, h₁, -⟩ := h
  · have := head?_ne_colon ht []
    rwa [append_nil] at this
  · exact head?_ne_colon ht _
  · rcases h₁ with h₁ | ⟨rfl, -⟩
    · exact head?_ne_colon h₁ _
    · exact fun h => absurd (some.inj h) (by decide)

theorem Groups.head?_ne {last : List UInt8 → List ℕ → Prop}
    (hlast : ∀ s ws, last s ws → s.head? ≠ some colon) (h : Groups LooseGroup last s ws) :
    s.head? ≠ some colon := by
  cases h with
  | last h => exact hlast _ _ h
  | cons ht hs => exact head?_ne_colon ht _

theorem Groups.head?_append_ne (h : Groups LooseGroup (One LooseGroup) s ws) (r : List UInt8) :
    (s ++ r).head? ≠ some colon := by
  cases h with
  | last h =>
    obtain ⟨n, ht, -⟩ := h
    exact head?_ne_colon ht r
  | cons ht hs =>
    rw [List.append_assoc]
    exact head?_ne_colon ht _

theorem Part.head?_ne (h : Part (Groups LooseGroup LooseEnd) s ws) : s.head? ≠ some colon := by
  rcases h with ⟨rfl, -⟩ | h
  · exact fun h => by cases h
  · exact h.head?_ne fun s ws => LooseEnd.head?

theorem finish_none : finish words none = some buf ↔ words.length = 8 ∧ buf = out (array words) := by
  change (if words.length ≠ 8 then none else some (out (array words))) = some buf ↔ _
  split_ifs with hlen
  · exact iff_of_false (fun h => by cases h) fun h => hlen h.1
  · rw [some.injEq, eq_comm]
    exact ⟨fun h => ⟨not_not.1 hlen, h⟩, fun h => h.2⟩

theorem length_wordsOf (ws : List ℕ) : (wordsOf ws).length = ws.length := length_map _

theorem Part.parseLoop_eq (h : Part (Groups LooseGroup LooseEnd) s ws)
    (hroom : words.length + ws.length ≤ 8) (hfuel : ws.length < fuel) :
    parseLoop fuel s words zpos = some ([], words ++ wordsOf ws, zpos) := by
  rcases h with ⟨rfl, rfl⟩ | h
  · obtain ⟨fuel, rfl⟩ := exists_eq_add_one.2 (zero_lt_of_lt hfuel)
    rw [parseLoop_nil, wordsOf, map_nil, append_nil]
  · exact parseLoop_groups h hroom hfuel

theorem parseLoop_colon (hwords : words.length < 8) (hr : r.head? ≠ some colon) :
    parseLoop (fuel + 1) (colon :: r) words none = parseLoop fuel r words (some words.length) := by
  rw [parseLoop, if_neg (by simp [hwords]), if_pos head?_cons, if_neg (not_not.2 rfl),
    tail_cons, if_neg hr]

theorem LooseDenotes.of_parseIpv6 (h : parseIpv6 s = some buf) :
    ∃ ws, LooseDenotes s ws ∧ buf = out (array (wordsOf ws)) := by
  obtain ⟨⟨s', zpos⟩, hstart, hloop⟩ := bind_eq_some_iff.1 h
  obtain ⟨⟨rest, words, zpos'⟩, hrun, hfinish⟩ := bind_eq_some_iff.1 hloop
  dsimp only at hfinish
  split_ifs at hfinish with hrest
  obtain rfl := not_not.1 hrest
  have hspec := parseLoop_spec (show ([] : List (BitVec 16)).length ≤ 8 from zero_le 8) hrun
  simp only [length_nil, zero_add, nil_append] at hspec
  rw [start] at hstart
  split_ifs at hstart with hcolon hcolon'
  · -- the text begins with `::`
    cases hstart
    obtain ⟨r, rfl⟩ := head?_eq_some_iff.1 hcolon
    obtain ⟨r, rfl⟩ := head?_eq_some_iff.1 (not_not.1 hcolon')
    obtain ⟨rfl, ws, hs, rfl, hlen⟩ | ⟨hz, -⟩ := hspec
    · have hfilled : finish (wordsOf ([] ++ ws)) (some ([] : List ℕ).length) =
          some (out (array (wordsOf (filled [] ws)))) := finish_some (by simpa using hlen)
      refine ⟨filled [] ws, .inr ⟨[], ws, rfl, [], r, rfl, .inl ⟨rfl, rfl⟩, hs, by decide,
        by simpa using hlen⟩, ?_⟩
      exact some.inj (hfinish.symm.trans hfilled)
    · cases hz
  · cases hstart
    obtain ⟨rfl, ws, hs, rfl, hlen⟩ | ⟨-, p, ws₁, s₂, ws₂, rfl, hp, hs, rfl, rfl, hlt, hlen⟩ := hspec
    · -- there is no `::`
      obtain ⟨h8, rfl⟩ := finish_none.1 hfinish
      rw [length_wordsOf] at h8
      refine ⟨ws, .inl ⟨?_, h8⟩, rfl⟩
      rcases hs with ⟨-, rfl⟩ | hs
      · cases h8
      · exact hs
    · obtain ⟨rfl, rfl⟩ | ⟨s₁, rfl, hpre⟩ := hp.groups
      · exact absurd rfl hcolon
      · refine ⟨filled ws₁ ws₂, .inr ⟨ws₁, ws₂, rfl, s₁, s₂, ?_, .inr hpre, hs, hlt, hlen⟩,
          some.inj (hfinish.symm.trans (finish_some hlen))⟩
        rw [List.append_assoc]
        rfl

theorem parseIpv6_of_start {p : List UInt8 × Option ℕ}
    {q : List UInt8 × List (BitVec 16) × Option ℕ} (hstart : start s = some p)
    (hrun : parseLoop 10 p.1 [] p.2 = some q) (hend : q.1 = []) :
    parseIpv6 s = finish q.2.1 q.2.2 := by
  rw [parseIpv6, hstart]
  dsimp only [bind_eq_bind, bind_some]
  rw [hrun]
  dsimp only [bind_some]
  rw [if_neg (not_not.2 hend)]

/-- **`parse_ipv6` accepts these texts**, and stores these words. -/
theorem LooseDenotes.parseIpv6_eq (h : LooseDenotes s ws) :
    parseIpv6 s = some (out (array (wordsOf ws))) := by
  obtain ⟨hs, h8⟩ | ⟨ws₁, ws₂, rfl, s₁, s₂, rfl, hpre, hpost, hlt, hlen⟩ := h
  · have hstart : start s = some (s, none) := by
      rw [start, if_neg (hs.head?_ne fun _ _ => LooseEnd.head?)]
    have hrun : parseLoop 10 s [] none = some ([], [] ++ wordsOf ws, none) :=
      parseLoop_groups hs (by simp [h8]) (by omega)
    rw [parseIpv6_of_start hstart hrun rfl]
    exact finish_none.2 ⟨by rw [nil_append, length_wordsOf, h8], rfl⟩
  · rcases hpre with ⟨rfl, rfl⟩ | hpre
    · have hlen' : ws₂.length ≤ 8 := by simpa using hlen
      have hstart : start ([] ++ colon :: colon :: s₂) = some (s₂, some 0) := rfl
      have hrun : parseLoop 10 s₂ [] (some 0) = some ([], [] ++ wordsOf ws₂, some 0) :=
        hpost.parseLoop_eq (by simpa using hlen') (by omega)
      have hfilled : finish (wordsOf ([] ++ ws₂)) (some ([] : List ℕ).length) =
          some (out (array (wordsOf (filled [] ws₂)))) := finish_some hlen
      rw [parseIpv6_of_start hstart hrun rfl, ← hfilled]
      rfl
    · have hstart : start (s₁ ++ colon :: colon :: s₂) = some (s₁ ++ colon :: colon :: s₂, none) := by
        rw [start, if_neg (hpre.head?_append_ne _)]
      have hrun : parseLoop 10 (s₁ ++ colon :: colon :: s₂) [] none =
          some ([], wordsOf (ws₁ ++ ws₂), some ws₁.length) := by
        obtain ⟨k, hk⟩ : ∃ k, 10 = k + 1 + ws₁.length := ⟨9 - ws₁.length, by omega⟩
        have hsplit : s₁ ++ colon :: colon :: s₂ = (s₁ ++ [colon]) ++ colon :: s₂ := by
          rw [List.append_assoc]
          rfl
        rw [hsplit, hk, parseLoop_terminated hpre.terminated (by simpa using hlt.le), nil_append,
          parseLoop_colon (by rwa [length_wordsOf]) hpost.head?_ne,
          hpost.parseLoop_eq (by rwa [length_wordsOf]) (by omega), length_wordsOf]
        simp [wordsOf]
      rw [parseIpv6_of_start hstart hrun rfl]
      exact finish_some hlen

/-- **The texts that `parse_ipv6` accepts**, and what it stores for them. -/
theorem parseIpv6_eq_some_iff :
    parseIpv6 s = some buf ↔ ∃ ws, LooseDenotes s ws ∧ buf = out (array (wordsOf ws)) := by
  refine ⟨LooseDenotes.of_parseIpv6, ?_⟩
  rintro ⟨ws, h, rfl⟩
  exact h.parseIpv6_eq

end Vlibc.Inet
