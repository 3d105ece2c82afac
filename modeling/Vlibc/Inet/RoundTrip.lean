import Vlibc.Inet.Ntop

/-!
# From an address to its text and back

The text that `inet_ntop` writes leaves out the first longest run of at least two zero words
(`text6_eq`). `inet_pton` reads the address back; but where the run reaches the last word a third
colon is written behind it, and then the text is none (`ntop_pton_iff`).
-/

namespace Vlibc.Inet

open List Option

variable {a s t : List UInt8} {ws : List ℕ} {words : List (BitVec 16)}

/-- The words of an address, from its bytes. -/
def addressWords : List UInt8 → List ℕ
  | x :: y :: a => (256 * x.toNat + y.toNat) :: addressWords a
  | _ => []

variable {n : ℕ}

theorem exists_pair (ha : a.length = 2 * (n + 1)) :
    ∃ x y r, a = x :: y :: r ∧ r.length = 2 * n := by
  obtain ⟨x, a, rfl⟩ := exists_cons_of_length_eq_add_one (show a.length = 2 * n + 1 + 1 by omega)
  have ha : a.length = 2 * n + 1 := by
    rw [length_cons] at ha
    omega
  obtain ⟨y, r, rfl⟩ := exists_cons_of_length_eq_add_one ha
  exact ⟨x, y, r, rfl, Nat.succ.inj ha⟩

theorem addressBytes_addressWords (ha : a.length = 2 * n) : addressBytes (addressWords a) = a := by
  induction n generalizing a with
  | zero =>
    rw [length_eq_zero_iff.1 ha]
    rfl
  | succ n ih =>
    obtain ⟨x, y, r, rfl, hr⟩ := exists_pair ha
    have hy := y.toNat_lt
    have hhigh : (256 * x.toNat + y.toNat) / 256 = x.toNat := by omega
    have hlow : (256 * x.toNat + y.toNat) % 256 = y.toNat := by omega
    rw [addressWords, addressBytes, flatMap_cons, hhigh, hlow, UInt8.ofNat_toNat, UInt8.ofNat_toNat,
      ← addressBytes, ih hr]
    rfl

theorem toNat_word (x y : UInt8) :
    (x.toBitVec.setWidth 16 <<< 8 ||| y.toBitVec.setWidth 16).toNat = 256 * x.toNat + y.toNat := by
  have hx := x.toNat_lt
  have hy := y.toNat_lt
  have hword := ofNat_word (c := x.toNat) (d := y.toNat) (by omega) (by omega)
  have hbyte (b : UInt8) : BitVec.ofNat 8 b.toNat = b.toBitVec :=
    (BitVec.ofNat_toNat 8 b.toBitVec).trans (BitVec.setWidth_eq _)
  rw [hbyte, hbyte] at hword
  rw [← hword, BitVec.toNat_ofNat, Nat.mod_eq_of_lt (by omega)]

theorem toNat_words (ha : a.length = 2 * n) :
    ((List.range n).map fun i => (a.getD (i * 2) 0).toBitVec.setWidth 16 <<< 8 |||
      (a.getD (i * 2 + 1) 0).toBitVec.setWidth 16).map BitVec.toNat = addressWords a := by
  rw [List.map_map]
  simp only [Function.comp_def, toNat_word]
  induction n generalizing a with
  | zero =>
    rw [length_eq_zero_iff.1 ha]
    rfl
  | succ n ih =>
    obtain ⟨x, y, r, rfl, hr⟩ := exists_pair ha
    rw [range_succ_eq_map, map_cons, List.map_map, addressWords, ← ih hr]
    congr 1
    apply map_congr_left
    intro i _
    have hi : i.succ * 2 = i * 2 + 1 + 1 := by omega
    simp only [Function.comp_apply, hi, getD_cons_succ]

theorem toNat_wordsAt (ha : a.length = 16) : (wordsAt a).map BitVec.toNat = addressWords a :=
  toNat_words (n := 8) ha

theorem length_wordsAt (a : List UInt8) : (wordsAt a).length = 8 := by
  rw [wordsAt, length_map, length_range]

theorem length_addressWords (ha : a.length = 16) : (addressWords a).length = 8 := by
  rw [← toNat_wordsAt ha, length_map, length_wordsAt]

/-- The word `i` is zero. -/
def isZero (ws : List ℕ) (i : ℕ) : Prop := ws[i]? = some 0

theorem isZero_toNat (words : List (BitVec 16)) :
    (fun i => words[i]? = some 0) = isZero (words.map BitVec.toNat) := by
  funext i
  rw [isZero, getElem?_map]
  cases words[i]? with
  | none => simp
  | some w =>
    have hzero : w = 0 ↔ w.toNat = 0 := ⟨fun h => by rw [h]; rfl, fun h => BitVec.eq_of_toNat_eq h⟩
    rw [map_some, some.injEq, some.injEq, hzero]

/-! ## The text -/

theorem text6_eq (ha : a.length = 16) : ∃ b n, Longest (isZero (addressWords a)) 8 b n ∧
    text6 a =
      if n < 2 then joined (wordsAt a)
      else joined ((wordsAt a).take b) ++ colon :: colon :: (joined ((wordsAt a).drop (b + n)) ++
        if b + n = 8 then [colon] else []) := by
  obtain ⟨b, n, hlongest, hbest⟩ := bestRun_eq (wordsAt a)
  rw [isZero_toNat, toNat_wordsAt ha, length_wordsAt] at hlongest
  refine ⟨b, n, hlongest, ?_⟩
  rw [text6, hbest]
  by_cases hn : n < 2
  · rw [if_pos hn, if_pos hn, printLoop_none (length_wordsAt a) rfl]
  · rw [if_neg hn, if_neg hn, printLoop_some (length_wordsAt a) rfl (not_lt.1 hn) hlongest.le]
    dsimp only
    split_ifs
    · rw [append_assoc]
      rfl
    · rw [append_nil]

/-- How often two colons stand side by side. -/
def doubles : List UInt8 → ℕ
  | c :: d :: s => (if c = colon ∧ d = colon then 1 else 0) + doubles (d :: s)
  | _ => 0

theorem doubles_append {c d : UInt8} (hc : s.getLast? = some c) (hd : t.head? = some d) :
    doubles (s ++ t) = doubles s + (if c = colon ∧ d = colon then 1 else 0) + doubles t := by
  obtain ⟨t, rfl⟩ := head?_eq_some_iff.1 hd
  induction s with
  | nil => cases hc
  | cons x s ih =>
    cases s with
    | nil =>
      obtain rfl : x = c := some.inj hc
      change _ = 0 + _ + doubles (d :: t)
      rw [zero_add]
      rfl
    | cons y s =>
      rw [getLast?_cons_cons] at hc
      rw [cons_append, cons_append, doubles, doubles, ← cons_append, ih hc]
      omega

theorem doubles_of_not_mem (h : colon ∉ s) : doubles s = 0 := by
  induction s with
  | nil => rfl
  | cons c s ih =>
    obtain ⟨hc, hs⟩ := not_or.1 (mt mem_cons.2 h)
    cases s with
    | nil => rfl
    | cons d s => rw [doubles, if_neg fun h => hc h.1.symm, ih hs]

theorem Hex.not_mem (h : Hex t n) : colon ∉ t := by
  intro hc
  exact absurd (h.2.2.1 colon hc) (by decide)

theorem Hex.ne_nil (h : Hex t n) : t ≠ [] := length_pos_iff.1 h.1

/-- What does not begin or end with a colon, and has no two colons side by side. -/
def Single (s : List UInt8) : Prop :=
  doubles s = 0 ∧ (∃ c, s.head? = some c ∧ c ≠ colon) ∧ ∃ c, s.getLast? = some c ∧ c ≠ colon

theorem Hex.single (h : Hex t n) : Single t := by
  have hmem {c : UInt8} (hc : c ∈ t) : c ≠ colon := by
    rintro rfl
    exact h.not_mem hc
  exact ⟨doubles_of_not_mem h.not_mem, ⟨_, head?_eq_some_head h.ne_nil, hmem (head_mem h.ne_nil)⟩,
    _, getLast?_eq_some_getLast h.ne_nil, hmem (getLast_mem h.ne_nil)⟩

theorem HexGroups.single (h : HexGroups s ws) : Single s := by
  induction h with
  | last h =>
    obtain ⟨n, ht, -⟩ := h
    exact ht.single
  | @cons t s n ws ht hs ih =>
    obtain ⟨hdt, ⟨c, hc, hcne⟩, ⟨d, hd, hdne⟩⟩ := ht.single
    obtain ⟨hds, ⟨e, he, hene⟩, ⟨f, hf, hfne⟩⟩ := ih
    refine ⟨?_, ⟨c, ?_, hcne⟩, f, ?_, hfne⟩
    · have hcolon : doubles (colon :: s) = 0 := by
        obtain ⟨s, rfl⟩ := head?_eq_some_iff.1 he
        rw [doubles, if_neg fun h => hene h.2, hds]
      rw [doubles_append hd head?_cons, hdt, if_neg fun h => hdne h.1, hcolon]
    · rw [head?_append, hc]
      rfl
    · rw [getLast?_append_of_ne_nil _ (cons_ne_nil _ _), getLast?_cons, hf]
      rfl

theorem doubles_short {ws₁ ws₂ : List ℕ} (h₁ : Part HexGroups s ws₁) (h₂ : Part HexGroups t ws₂) :
    doubles (s ++ colon :: colon :: t) = 1 := by
  have hright : doubles (colon :: colon :: t) = 1 := by
    rcases h₂ with ⟨rfl, -⟩ | h₂
    · rfl
    · obtain ⟨hdt, ⟨c, hc, hcne⟩, -⟩ := h₂.single
      obtain ⟨t, rfl⟩ := head?_eq_some_iff.1 hc
      rw [doubles, doubles, if_pos ⟨rfl, rfl⟩, if_neg fun h => hcne h.2, hdt]
  rcases h₁ with ⟨rfl, -⟩ | h₁
  · exact hright
  · obtain ⟨hds, -, ⟨c, hc, hcne⟩⟩ := h₁.single
    rw [doubles_append hc head?_cons, hds, if_neg fun h => hcne h.1, hright]

/-- **The text of an address with `::` in the place of its first longest run of zero words**, if that has
at least two of them. -/
def Compressed (ws : List ℕ) (text : List UInt8) : Prop :=
  (∀ base len, 2 ≤ len → Longest (isZero ws) ws.length base len →
    ∃ s₁ s₂, text = s₁ ++ colon :: colon :: s₂ ∧ Part HexGroups s₁ (ws.take base) ∧
      Part HexGroups s₂ (ws.drop (base + len))) ∧
  ((∀ base len, Longest (isZero ws) ws.length base len → len < 2) → HexGroups text ws) ∧
  doubles text ≤ 1

theorem length_colonWords_le (words : List (BitVec 16)) :
    (colonWords words).length ≤ 5 * words.length := by
  induction words with
  | nil => exact Nat.zero_le _
  | cons w words ih =>
    have hw := (hex_hex16 w).2.1
    rw [colonWords, flatMap_cons, length_append, length_cons, length_cons, ← colonWords]
    omega

theorem length_joined_le (words : List (BitVec 16)) : (joined words).length ≤ 5 * words.length := by
  cases words with
  | nil => exact Nat.zero_le _
  | cons w words =>
    have hw := (hex_hex16 w).2.1
    have hwords := length_colonWords_le words
    rw [joined, length_append, length_cons]
    omega

theorem length_text6_lt (ha : a.length = 16) : (text6 a).length < INET6_ADDRSTRLEN := by
  obtain ⟨b, n, hlongest, htext⟩ := text6_eq ha
  have hle := hlongest.le
  have hwhole := length_joined_le (wordsAt a)
  have hbefore := length_joined_le ((wordsAt a).take b)
  have hafter := length_joined_le ((wordsAt a).drop (b + n))
  rw [length_take] at hbefore
  rw [length_drop] at hafter
  rw [length_wordsAt] at hwhole hbefore hafter
  have hlast : (if b + n = 8 then [colon] else []).length ≤ 1 := by split <;> decide
  rw [htext, INET6_ADDRSTRLEN]
  split_ifs with hn
  · omega
  · simp only [length_append, length_cons, length_nil]
    omega
  · simp only [length_append, length_cons, length_nil]
    omega

theorem mem_joined {c : UInt8} (hc : c ∈ joined words) : c = colon ∨ Stdlib.isDigitOf 16 c = true := by
  have hcolon : ∀ words : List (BitVec 16), c ∈ colonWords words →
      c = colon ∨ Stdlib.isDigitOf 16 c = true := by
    intro words hc
    obtain ⟨w, -, hw⟩ := mem_flatMap.1 hc
    exact (mem_cons.1 hw).imp_right ((hex_hex16 w).2.2.1 c)
  cases words with
  | nil => cases hc
  | cons w words =>
    rcases mem_append.1 hc with hc | hc
    · exact .inr ((hex_hex16 w).2.2.1 c hc)
    · exact hcolon words hc

theorem not_mem_text6 (ha : a.length = 16) : 0 ∉ text6 a := by
  obtain ⟨b, n, -, htext⟩ := text6_eq ha
  have hchar : ∀ c ∈ text6 a, c = colon ∨ Stdlib.isDigitOf 16 c = true := by
    intro c hc
    rw [htext] at hc
    split at hc
    · exact mem_joined hc
    · simp only [mem_append, mem_cons] at hc
      rcases hc with hc | hc | hc | hc | hc
      · exact mem_joined hc
      · exact .inl hc
      · exact .inl hc
      · exact mem_joined hc
      · split at hc
        · exact .inl (mem_singleton.1 hc)
        · cases hc
  exact fun h => absurd (hchar 0 h) (by decide)

theorem inetNtop_eq {size : ℕ} (ha : a.length = 16) (hsize : INET6_ADDRSTRLEN ≤ size) :
    inetNtop AF_INET6 (some a) true size = .ok (text6 a) := by
  have hpos : ¬ (true = false ∨ size = 0) := by
    unfold INET6_ADDRSTRLEN at hsize
    simp
    omega
  rw [inetNtop, if_neg hpos, if_neg (by decide), if_pos rfl, if_neg (not_lt.2 hsize),
    snprintf_string (length_text6_lt ha) hsize]

/-! ## Reading it back -/

theorem filled_take_drop {b n : ℕ} (hlen : ws.length = 8) (hle : b + n ≤ 8) (hrun : Run (isZero ws) b n) :
    filled (ws.take b) (ws.drop (b + n)) = ws := by
  have hcount : 8 - ((ws.take b).length + (ws.drop (b + n)).length) = n := by
    rw [length_take, length_drop]
    omega
  have hzeros : (ws.drop b).take n = List.replicate n 0 := by
    apply eq_replicate_iff.2
    refine ⟨by rw [length_take, length_drop]; omega, fun w hw => ?_⟩
    obtain ⟨i, hi, rfl⟩ := mem_iff_getElem.1 hw
    rw [length_take, length_drop] at hi
    have hzero : ws[b + i]? = some 0 := hrun (b + i) (by omega) (by omega)
    rw [getElem_take, getElem_drop]
    exact (getElem_eq_iff _).2 hzero
  rw [filled, hcount, ← hzeros, ← drop_drop, append_assoc, take_append_drop, take_append_drop]

theorem text6_cases (ha : a.length = 16) :
    ∃ b n, Longest (isZero (addressWords a)) 8 b n ∧
      ((n < 2 ∧ HexGroups (text6 a) (addressWords a)) ∨
        (2 ≤ n ∧ ∃ s₁ s₂, Part HexGroups s₁ ((addressWords a).take b) ∧
          Part HexGroups s₂ ((addressWords a).drop (b + n)) ∧
          text6 a = s₁ ++ colon :: colon :: (s₂ ++ if b + n = 8 then [colon] else []))) := by
  obtain ⟨b, n, hlongest, htext⟩ := text6_eq ha
  refine ⟨b, n, hlongest, ?_⟩
  rw [htext, ← toNat_wordsAt ha]
  by_cases hn : n < 2
  · have hne : wordsAt a ≠ [] := length_pos_iff.1 (by rw [length_wordsAt]; decide)
    rw [if_pos hn]
    exact .inl ⟨hn, hexGroups_joined hne⟩
  · refine .inr ⟨not_lt.1 hn, joined ((wordsAt a).take b), joined ((wordsAt a).drop (b + n)), ?_, ?_,
      if_neg hn⟩
    · rw [← map_take]
      exact part_joined _
    · rw [← map_drop]
      exact part_joined _

theorem HexGroups.ne_nil (h : HexGroups s ws) : ws ≠ [] := by
  cases h with
  | last h =>
    obtain ⟨n, -, rfl⟩ := h
    exact cons_ne_nil n []
  | cons ht hs => exact cons_ne_nil _ _

theorem Part.eq_nil (h : Part HexGroups s []) : s = [] :=
  h.elim And.left fun h => absurd rfl h.ne_nil

theorem doubles_three {ws₁ : List ℕ} (h₁ : Part HexGroups s ws₁) :
    doubles (s ++ [colon, colon, colon]) = 2 := by
  rcases h₁ with ⟨rfl, -⟩ | h₁
  · rfl
  · obtain ⟨hds, -, ⟨c, hc, hcne⟩⟩ := h₁.single
    rw [doubles_append hc head?_cons, hds, if_neg fun h => hcne h.1]
    rfl

/-- A run of zero words that is written as `::` and does not reach the end, or no such run. -/
theorem text6_of_ends (ha : a.length = 16)
    (hend : ∀ base len, 2 ≤ len → Longest (isZero (addressWords a)) 8 base len → base + len ≠ 8) :
    ∃ b n, Longest (isZero (addressWords a)) 8 b n ∧
      ((n < 2 ∧ HexGroups (text6 a) (addressWords a)) ∨
        (2 ≤ n ∧ ∃ s₁ s₂, Part HexGroups s₁ ((addressWords a).take b) ∧
          Part HexGroups s₂ ((addressWords a).drop (b + n)) ∧
          text6 a = s₁ ++ colon :: colon :: s₂)) := by
  obtain ⟨b, n, hlongest, hgroups | ⟨hn, s₁, s₂, h₁, h₂, heq⟩⟩ := text6_cases ha
  · exact ⟨b, n, hlongest, .inl hgroups⟩
  · rw [if_neg (hend b n hn hlongest), append_nil] at heq
    exact ⟨b, n, hlongest, .inr ⟨hn, s₁, s₂, h₁, h₂, heq⟩⟩

theorem looseDenotes_text6 (ha : a.length = 16)
    (hend : ∀ base len, 2 ≤ len → Longest (isZero (addressWords a)) 8 base len → base + len ≠ 8) :
    LooseDenotes (text6 a) (addressWords a) := by
  have hwords := length_addressWords ha
  obtain ⟨b, n, hlongest, ⟨-, hgroups⟩ | ⟨hn, s₁, s₂, h₁, h₂, heq⟩⟩ := text6_of_ends ha hend
  · exact .of_hex hgroups hwords
  · have hle := hlongest.le
    have hshort : Short HexGroups (Part HexGroups) 7 (text6 a) ((addressWords a).take b)
        ((addressWords a).drop (b + n)) := by
      refine ⟨s₁, s₂, heq, h₁, h₂, ?_, ?_⟩
      · rw [length_take]
        omega
      · rw [length_take, length_drop]
        omega
    have hloose := LooseDenotes.of_short hshort
    rwa [filled_take_drop hwords hle hlongest.run] at hloose

theorem compressed_text6 (ha : a.length = 16)
    (hend : ∀ base len, 2 ≤ len → Longest (isZero (addressWords a)) 8 base len → base + len ≠ 8) :
    Compressed (addressWords a) (text6 a) := by
  have hwords := length_addressWords ha
  rw [Compressed, hwords]
  obtain ⟨b, n, hlongest, ⟨hn, hgroups⟩ | ⟨hn, s₁, s₂, h₁, h₂, heq⟩⟩ := text6_of_ends ha hend
  · refine ⟨?_, fun _ => hgroups, ?_⟩
    · intro base len hlen hlongest'
      obtain ⟨-, rfl⟩ := hlongest.unique hlongest'
      omega
    · rw [hgroups.single.1]
      exact Nat.zero_le 1
  · refine ⟨?_, ?_, ?_⟩
    · intro base len hlen hlongest'
      obtain ⟨rfl, rfl⟩ := hlongest.unique hlongest'
      exact ⟨s₁, s₂, heq, h₁, h₂⟩
    · intro hnone
      exact absurd (hnone b n hlongest) (by omega)
    · rw [heq, doubles_short h₁ h₂]

theorem doubles_text6 {base len : ℕ} (ha : a.length = 16) (hlen : 2 ≤ len)
    (h : Longest (isZero (addressWords a)) 8 base len) (hend : base + len = 8) :
    doubles (text6 a) = 2 := by
  have hwords := length_addressWords ha
  obtain ⟨b, n, hlongest, hcases⟩ := text6_cases ha
  obtain ⟨rfl, rfl⟩ := hlongest.unique h
  obtain ⟨hn, -⟩ | ⟨-, s₁, s₂, h₁, h₂, heq⟩ := hcases
  · omega
  · rw [hend, drop_of_length_le hwords.le] at h₂
    obtain rfl := h₂.eq_nil
    rw [heq, if_pos hend, nil_append, doubles_three h₁]

/-- **An address is written as its compressed text and read back**, if and only if its first longest run
of at least two zero words does not reach the end. -/
theorem ntop_pton_iff {size : ℕ} (ha : a.length = 16) (hsize : INET6_ADDRSTRLEN ≤ size)
    (dst : List UInt8) :
    (∃ t : CStr, inetNtop AF_INET6 (some a) true size = .ok t.bytes ∧
      inetPton AF_INET6 (some t) (some dst) = ⟨1, a ++ dst.drop 16, none⟩ ∧
      t.bytes.length + 1 ≤ INET6_ADDRSTRLEN ∧ Compressed (addressWords a) t.bytes) ↔
    ∀ base len, 2 ≤ len → Longest (isZero (addressWords a)) 8 base len → base + len ≠ 8 := by
  rw [inetNtop_eq ha hsize]
  constructor
  · rintro ⟨t, htext, -, -, -, -, hdoubles⟩ base len hlen hlongest hend
    injection htext with htext
    rw [← htext, doubles_text6 ha hlen hlongest hend] at hdoubles
    omega
  · intro hend
    refine ⟨⟨text6 a, not_mem_text6 ha⟩, rfl, ?_, length_text6_lt ha, compressed_text6 ha hend⟩
    rw [LooseDenotes.inetPton_eq (looseDenotes_text6 ha hend), addressBytes_addressWords (n := 8) ha]

/-- The address `2001:db8::1`, whose last word is not zero. -/
theorem ntop_pton_iff_documentation :
    let a : List UInt8 := [0x20, 0x01, 0x0d, 0xb8, 0, 0, 0, 0, 0, 0, 0, 0, 0, 0, 0, 1]
    ∃ t : CStr, inetNtop AF_INET6 (some a) true 46 = .ok t.bytes ∧
      inetPton AF_INET6 (some t) (some []) = ⟨1, a ++ [].drop 16, none⟩ ∧
      t.bytes.length + 1 ≤ INET6_ADDRSTRLEN ∧ Compressed (addressWords a) t.bytes := by
  refine (ntop_pton_iff rfl (le_refl 46) []).2 fun base len hlen hlongest hend => ?_
  have hlast := hlongest.run 7 (by omega) (by omega)
  exact absurd hlast (by unfold isZero; decide)

/-- The address `::` is written with three colons, and not read back. -/
theorem ntop_three_colons :
    inetNtop AF_INET6 (some (List.replicate 16 0)) true 46 = .ok (str ":::").bytes ∧
      inetPton AF_INET6 (some (str ":::")) (some []) = ⟨0, [], none⟩ := by
  refine ⟨?_, by decide⟩
  rw [inetNtop_eq (by decide) (le_refl 46)]
  congr 1

end Vlibc.Inet
