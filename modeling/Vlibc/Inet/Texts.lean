import Vlibc.Inet.Groups

/-!
# The text of an IPv6 address

`Denotes` is the text of an address and the words of the address: eight groups of one to four
hexadecimal digits, or fewer with `::`, and a dotted quad for the last two. `parse_ipv6` accepts more
(`LooseDenotes`), and it reads a dotted quad as three words instead of two. So a text with a dotted quad
and without `::` is rejected, and one with `::` gives the right words only if the word that is read too
much falls among zeros (`inetPton_text_iff`).
-/

namespace Vlibc.Inet

open Stdlib List BitVec

variable {s t : List UInt8} {n : ℕ} {ws ws₁ ws₂ : List ℕ}

/-- One to four hexadecimal digits. -/
def Hex (t : List UInt8) (n : ℕ) : Prop :=
  1 ≤ t.length ∧ t.length ≤ 4 ∧ (∀ c ∈ t, isDigitOf 16 c = true) ∧ n = horner 16 0 (digitVals t)

/-- The dotted form of two words. -/
def Dotted (t : List UInt8) (ws : List ℕ) : Prop :=
  ∃ a b c d, Quad t a b c d ∧ ws = [256 * a + b, 256 * c + d]

/-- Groups of hexadecimal digits. -/
def HexGroups : List UInt8 → List ℕ → Prop := Groups Hex (One Hex)

/-- Groups of hexadecimal digits with a dotted quad at the end. -/
def DottedGroups : List UInt8 → List ℕ → Prop := Groups Hex Dotted

/-- **The text of an address**, and its words. -/
def Denotes (s : List UInt8) (ws : List ℕ) : Prop :=
  (HexGroups s ws ∨ DottedGroups s ws) ∧ ws.length = 8 ∨
    ∃ ws₁ ws₂, ws = filled ws₁ ws₂ ∧
      (Short HexGroups (Part HexGroups) 7 s ws₁ ws₂ ∨ Short HexGroups DottedGroups 7 s ws₁ ws₂)

/-- The bytes of an address, from its words. -/
def addressBytes (ws : List ℕ) : List UInt8 := ws.flatMap fun w => [.ofNat (w / 256), .ofNat (w % 256)]

theorem length_filled (h : ws₁.length + ws₂.length ≤ 8) : (filled ws₁ ws₂).length = 8 := by
  rw [filled, length_append, length_append, length_replicate]
  omega

theorem LooseDenotes.length_eq (h : LooseDenotes s ws) : ws.length = 8 := by
  obtain ⟨-, h8⟩ | ⟨ws₁, ws₂, rfl, s₁, s₂, -, -, -, -, hlen⟩ := h
  · exact h8
  · exact length_filled hlen

theorem out_array (h : ws.length = 8) : out (array (wordsOf ws)) = addressBytes ws := by
  have hrange : (List.range 8).map (fun i => ws.getD i 0) = ws := by
    apply ext_getElem (by simp [h])
    intro i hi hi'
    rw [getElem_map, getElem_range, getD_eq_getElem _ _ hi']
  have hhigh (w : ℕ) : UInt8.ofBitVec ((BitVec.ofNat 16 w >>> 8).setWidth 8) = .ofNat (w / 256) := by
    apply UInt8.toBitVec_inj.1
    apply eq_of_toNat_eq
    change ((BitVec.ofNat 16 w >>> 8).setWidth 8).toNat = w / 256 % 2 ^ 8
    rw [toNat_setWidth, toNat_ushiftRight, toNat_ofNat, Nat.shiftRight_eq_div_pow]
    omega
  have hlow (w : ℕ) : UInt8.ofBitVec ((BitVec.ofNat 16 w &&& 0xff).setWidth 8) = .ofNat (w % 256) := by
    apply UInt8.toBitVec_inj.1
    apply eq_of_toNat_eq
    change ((BitVec.ofNat 16 w &&& 0xff).setWidth 8).toNat = w % 256 % 2 ^ 8
    have hmask : (w % 2 ^ 16) &&& 255 = w % 2 ^ 16 % 2 ^ 8 := Nat.and_two_pow_sub_one_eq_mod _ 8
    rw [toNat_setWidth, toNat_and, toNat_ofNat]
    change (w % 2 ^ 16 &&& 255) % 2 ^ 8 = _
    omega
  conv_rhs => rw [← hrange]
  rw [out, addressBytes, flatMap_map]
  simp only [array_wordsOf, hhigh, hlow]

theorem addressBytes_inj (h : ∀ w ∈ ws, w ≤ 0xffff) (h' : ∀ w ∈ ws₁, w ≤ 0xffff)
    (heq : addressBytes ws = addressBytes ws₁) : ws = ws₁ := by
  induction ws generalizing ws₁ with
  | nil =>
    cases ws₁ with
    | nil => rfl
    | cons w ws₁ => cases heq
  | cons v ws ih =>
    cases ws₁ with
    | nil => cases heq
    | cons w ws₁ =>
      rw [addressBytes, addressBytes, flatMap_cons, flatMap_cons] at heq
      obtain ⟨hword, hrest⟩ := append_inj heq rfl
      have hv := h v mem_cons_self
      have hw := h' w mem_cons_self
      have hvw : v = w := by
        have hhigh := congrArg UInt8.toNat (cons.inj hword).1
        have hlow := congrArg UInt8.toNat (cons.inj (cons.inj hword).2).1
        rw [UInt8.toNat_ofNat', UInt8.toNat_ofNat'] at hhigh hlow
        omega
      rw [hvw, ih (fun x hx => h x (.tail _ hx)) (fun x hx => h' x (.tail _ hx)) hrest]

/-! ## What is read of them -/

theorem digitVals_lt {base : ℕ} (h : ∀ c ∈ t, isDigitOf base c = true) : ∀ d ∈ digitVals t, d < base := by
  intro d hd
  obtain ⟨c, hc, rfl⟩ := mem_map.1 hd
  have := of_decide_eq_true (h c hc)
  omega

theorem Hex.loose (h : Hex t n) : LooseGroup t n := by
  obtain ⟨hpos, hle, hds, rfl⟩ := h
  have hne : t ≠ [] := length_pos_iff.1 hpos
  refine ⟨⟨[], [], t, rfl, by simp, .inl rfl, .digits hne hds⟩, Nat.le_of_lt_succ ?_⟩
  calc horner 16 0 (digitVals t) < 16 ^ (digitVals t).length :=
        horner_lt (by decide) (digitVals_lt hds)
    _ ≤ 16 ^ 4 := Nat.pow_le_pow_right (by decide) (by rwa [digitVals, length_map])

theorem HexGroups.loose (h : HexGroups s ws) : Groups LooseGroup (One LooseGroup) s ws := by
  induction h with
  | last h =>
    obtain ⟨n, ht, rfl⟩ := h
    exact .last ⟨n, ht.loose, rfl⟩
  | cons ht hs ih => exact .cons ht.loose ih

theorem Groups.atEnd (h : Groups LooseGroup (One LooseGroup) s ws) :
    Groups LooseGroup LooseEnd s ws := by
  induction h with
  | last h => exact .last (.inl h)
  | cons ht hs ih => exact .cons ht ih

/-- The digits of a number up to 255, read in base 16: a group, which is 0 if the number is. -/
theorem Octet.group (h : Octet t n) : ∃ m, LooseGroup t m ∧ (m = 0 ↔ n = 0) := by
  obtain ⟨hpos, hle, hds, rfl, -⟩ := h
  refine ⟨horner 16 0 (digitVals t), Hex.loose ⟨hpos, by omega, fun c hc => ?_, rfl⟩, ?_⟩
  · have := of_decide_eq_true (hds c hc)
    exact decide_eq_true (by omega)
  · rw [horner_eq_zero_iff (by decide), horner_eq_zero_iff (by decide)]

/-- **A dotted quad is read as three words**: its first number in base 16, its second one, and the other
two. -/
theorem DottedGroups.loose (h : DottedGroups s ws) :
    ∃ gs a b e m, ws = gs ++ [256 * a + b, e] ∧ b ≤ 255 ∧ (m = 0 ↔ a = 0) ∧
      Groups LooseGroup LooseEnd s (gs ++ [m, b, e]) := by
  induction h with
  | last h =>
    obtain ⟨a, b, c, d, ⟨t₁, t₂, t₃, t₄, rfl, h₁, h₂, h₃, h₄⟩, rfl⟩ := h
    obtain ⟨m, hm, hzero⟩ := h₁.group
    refine ⟨[], a, b, 256 * c + d, m, rfl, h₂.2.2.2.2, hzero, .last (.inr (.inr ?_))⟩
    exact ⟨t₁, t₂, t₃, t₄, m, b, c, d, rfl, .inl hm, h₂.looseOctet, h₃.looseOctet, h₄.looseLast, rfl⟩
  | @cons t s n ws ht hs ih =>
    obtain ⟨gs, a, b, e, m, rfl, hb, hzero, hs'⟩ := ih
    exact ⟨n :: gs, a, b, e, m, rfl, hb, hzero, .cons ht.loose hs'⟩

theorem Dotted.loose (h : Dotted s ws) : ∃ ws', LooseDotted s ws' := by
  obtain ⟨a, b, c, d, ⟨t₁, t₂, t₃, t₄, rfl, h₁, h₂, h₃, h₄⟩, rfl⟩ := h
  obtain ⟨m, hm, -⟩ := h₁.group
  exact ⟨_, t₁, t₂, t₃, t₄, m, b, c, d, rfl, .inl hm, h₂.looseOctet, h₃.looseOctet, h₄.looseLast, rfl⟩

theorem DottedGroups.parseLoop_eq_none {words : List (BitVec 16)} {zpos : Option ℕ} {fuel : ℕ}
    (h : DottedGroups s ws) (hlen : words.length + ws.length = 8) :
    parseLoop fuel s words zpos = none := by
  induction h generalizing words fuel with
  | last h =>
    obtain ⟨ws', h'⟩ := h.loose
    obtain ⟨a, b, c, d, -, rfl⟩ := h
    cases fuel with
    | zero => rfl
    | succ fuel =>
      have hlen : words.length + 2 = 8 := hlen
      rw [parseLoop_dotted h' (by omega), if_neg (by omega)]
  | cons ht hs ih =>
    cases fuel with
    | zero => rfl
    | succ fuel =>
      rw [length_cons] at hlen
      rw [parseLoop_group ht.loose (by omega)]
      apply ih
      rw [length_append, length_singleton]
      omega

theorem DottedGroups.parseIpv6_eq_none (h : DottedGroups s ws) (hlen : ws.length = 8) :
    parseIpv6 s = none := by
  obtain ⟨gs, a, b, e, m, -, -, -, hloose⟩ := h.loose
  have hstart : start s = some (s, none) := by
    rw [start, if_neg (hloose.head?_ne fun _ _ => LooseEnd.head?)]
  have hrun : parseLoop 10 s [] none = none :=
    h.parseLoop_eq_none (by rw [length_nil, zero_add, hlen])
  rw [parseIpv6, hstart]
  dsimp only [Option.bind_eq_bind, Option.bind_some]
  rw [hrun]
  rfl

theorem LooseDenotes.of_hex (h : HexGroups s ws) (hlen : ws.length = 8) : LooseDenotes s ws :=
  .inl ⟨h.loose.atEnd, hlen⟩

theorem Part.loose (h : Part HexGroups s ws) : Part (Groups LooseGroup (One LooseGroup)) s ws :=
  h.imp_right HexGroups.loose

theorem LooseDenotes.of_short (h : Short HexGroups (Part HexGroups) 7 s ws₁ ws₂) :
    LooseDenotes s (filled ws₁ ws₂) := by
  obtain ⟨s₁, s₂, rfl, h₁, h₂, hlt, hlen⟩ := h
  exact .inr ⟨ws₁, ws₂, rfl, s₁, s₂, rfl, h₁.loose, h₂.imp_right fun h => h.loose.atEnd, hlt, by omega⟩

/-- With a dotted quad, the words that are read have its first two numbers as words of their own. -/
theorem LooseDenotes.of_dotted (h : Short HexGroups DottedGroups 7 s ws₁ ws₂) :
    ∃ gs a b e m, ws₂ = gs ++ [256 * a + b, e] ∧ b ≤ 255 ∧ (m = 0 ↔ a = 0) ∧
      ws₁.length + gs.length + 2 ≤ 7 ∧ LooseDenotes s (filled ws₁ (gs ++ [m, b, e])) := by
  obtain ⟨s₁, s₂, rfl, h₁, h₂, hlt, hlen⟩ := h
  obtain ⟨gs, a, b, e, m, rfl, hb, hzero, hloose⟩ := h₂.loose
  have hlen : ws₁.length + gs.length + 2 ≤ 7 := by
    rw [length_append] at hlen
    simpa [add_assoc] using hlen
  refine ⟨gs, a, b, e, m, rfl, hb, hzero, hlen, .inr ⟨ws₁, _, rfl, s₁, s₂, rfl, h₁.loose, .inr hloose,
    hlt, ?_⟩⟩
  rw [length_append]
  simp only [length_cons, length_nil]
  omega

theorem eq_replicate_of_cons_eq {gs : List ℕ} {m : ℕ} (h : 0 :: gs = gs ++ [m]) :
    gs = List.replicate gs.length 0 ∧ m = 0 := by
  induction gs with
  | nil => exact ⟨rfl, (cons.inj h).1.symm⟩
  | cons g gs ih =>
    obtain ⟨rfl, htail⟩ := cons.inj h
    obtain ⟨hgs, hm⟩ := ih htail
    exact ⟨by rw [length_cons, List.replicate_succ, ← hgs], hm⟩

/-- **The two readings agree** if and only if the first number is 0 and so are the groups behind `::`. -/
theorem filled_eq_iff {gs : List ℕ} {a b e m : ℕ} (hzero : m = 0 ↔ a = 0)
    (hlen : ws₁.length + gs.length + 2 ≤ 7) :
    filled ws₁ (gs ++ [m, b, e]) = filled ws₁ (gs ++ [256 * a + b, e]) ↔
      gs = List.replicate gs.length 0 ∧ a = 0 := by
  obtain ⟨k, hk⟩ : ∃ k, 8 - (ws₁.length + gs.length + 2) = k + 1 :=
    ⟨5 - (ws₁.length + gs.length), by omega⟩
  have hleft : filled ws₁ (gs ++ [m, b, e]) =
      ws₁ ++ List.replicate k 0 ++ (gs ++ [m] ++ [b, e]) := by
    have hlength : (gs ++ [m, b, e]).length = gs.length + 3 := length_append
    rw [filled, hlength, show 8 - (ws₁.length + (gs.length + 3)) = k by omega, List.append_assoc gs]
    rfl
  have hright : filled ws₁ (gs ++ [256 * a + b, e]) =
      ws₁ ++ List.replicate k 0 ++ (0 :: gs ++ [256 * a + b, e]) := by
    have hlength : (gs ++ [256 * a + b, e]).length = gs.length + 2 := length_append
    rw [filled, hlength, show 8 - (ws₁.length + (gs.length + 2)) = k + 1 by omega,
      List.replicate_succ', ← List.append_assoc ws₁, List.append_assoc _ [0]]
    rfl
  rw [hleft, hright, append_cancel_left_eq]
  constructor
  · intro heq
    obtain ⟨hgs, hend⟩ := append_inj heq (by simp)
    obtain ⟨hreplicate, hm⟩ := eq_replicate_of_cons_eq hgs.symm
    exact ⟨hreplicate, hzero.1 hm⟩
  · rintro ⟨hgs, rfl⟩
    rw [hzero.2 rfl, Nat.mul_zero, zero_add, hgs, ← List.replicate_succ', List.replicate_succ]

variable {field : List UInt8 → ℕ → Prop}

theorem Groups.forall_le {last : List UInt8 → List ℕ → Prop}
    (hfield : ∀ t n, field t n → n ≤ 0xffff) (hlast : ∀ t ws, last t ws → ∀ w ∈ ws, w ≤ 0xffff)
    (h : Groups field last s ws) : ∀ w ∈ ws, w ≤ 0xffff := by
  induction h with
  | last h => exact hlast _ _ h
  | cons ht hs ih => exact forall_mem_cons.2 ⟨hfield _ _ ht, ih⟩

theorem One.forall_le (hfield : ∀ t n, field t n → n ≤ 0xffff)
    (t : List UInt8) (ws : List ℕ) (h : One field t ws) : ∀ w ∈ ws, w ≤ 0xffff := by
  obtain ⟨n, ht, rfl⟩ := h
  exact forall_mem_singleton.2 (hfield t n ht)

theorem LooseEnd.forall_le (h : LooseEnd s ws) : ∀ w ∈ ws, w ≤ 0xffff := by
  obtain h | ⟨t, -, h⟩ | ⟨t₁, t₂, t₃, s₄, m, b, c, d, -, h₁, h₂, h₃, h₄, rfl⟩ := h
  · exact One.forall_le (fun t n h => h.2) _ _ h
  · exact One.forall_le (fun t n h => h.2) _ _ h
  · have hm : m ≤ 0xffff := h₁.elim (·.2) fun h₁ => by omega
    have hb := h₂.1
    have hc := h₃.1
    have hd := h₄.1
    simp only [forall_mem_cons]
    exact ⟨hm, by omega, by omega, by simp⟩

theorem DottedGroups.forall_le (h : DottedGroups s ws) : ∀ w ∈ ws, w ≤ 0xffff := by
  refine Groups.forall_le (fun t n h => h.loose.2) ?_ h
  rintro t _ ⟨a, b, c, d, ⟨_, _, _, _, -, h₁, h₂, h₃, h₄⟩, rfl⟩
  have ha := h₁.2.2.2.2
  have hb := h₂.2.2.2.2
  have hc := h₃.2.2.2.2
  have hd := h₄.2.2.2.2
  simp only [forall_mem_cons]
  exact ⟨by omega, by omega, by simp⟩

theorem filled_forall_le (h₁ : ∀ w ∈ ws₁, w ≤ 0xffff) (h₂ : ∀ w ∈ ws₂, w ≤ 0xffff) :
    ∀ w ∈ filled ws₁ ws₂, w ≤ 0xffff := by
  intro w hw
  rw [filled, mem_append, mem_append] at hw
  rcases hw with (hw | hw) | hw
  · exact h₁ w hw
  · rw [eq_of_mem_replicate hw]
    exact Nat.zero_le _
  · exact h₂ w hw

theorem Part.forall_le {groups : List UInt8 → List ℕ → Prop}
    (hgroups : ∀ s ws, groups s ws → ∀ w ∈ ws, w ≤ 0xffff) (h : Part groups s ws) :
    ∀ w ∈ ws, w ≤ 0xffff := by
  rcases h with ⟨-, rfl⟩ | h
  · simp
  · exact hgroups s ws h

theorem LooseDenotes.forall_le (h : LooseDenotes s ws) : ∀ w ∈ ws, w ≤ 0xffff := by
  have hgroup : ∀ t n, LooseGroup t n → n ≤ 0xffff := fun t n h => h.2
  have hgroups : ∀ s ws, Groups LooseGroup LooseEnd s ws → ∀ w ∈ ws, w ≤ 0xffff :=
    fun s ws h => h.forall_le hgroup fun t ws => LooseEnd.forall_le
  obtain ⟨hs, -⟩ | ⟨ws₁, ws₂, rfl, s₁, s₂, -, h₁, h₂, -, -⟩ := h
  · exact hgroups s ws hs
  · exact filled_forall_le (h₁.forall_le fun s ws h => h.forall_le hgroup (One.forall_le hgroup))
      (h₂.forall_le hgroups)

/-! ## `inet_pton` -/

theorem length_addressBytes (ws : List ℕ) : (addressBytes ws).length = 2 * ws.length := by
  induction ws with
  | nil => rfl
  | cons w ws ih =>
    rw [addressBytes, flatMap_cons, length_append, ← addressBytes, ih, length_cons]
    simp only [length_cons, length_nil]
    omega

theorem LooseDenotes.inetPton_eq {s : CStr} (h : LooseDenotes s.bytes ws) (dst : List UInt8) :
    inetPton AF_INET6 (some s) (some dst) = ⟨1, addressBytes ws ++ dst.drop 16, none⟩ := by
  rw [inetPton, if_neg (by decide), if_pos rfl, h.parseIpv6_eq]
  dsimp only
  rw [store, out_array h.length_eq, length_addressBytes, h.length_eq]

theorem inetPton_of_forall_not {s : CStr} (h : ∀ ws, ¬ LooseDenotes s.bytes ws) (dst : List UInt8) :
    inetPton AF_INET6 (some s) (some dst) = ⟨0, dst, none⟩ := by
  have hnone : parseIpv6 s.bytes = none := by
    cases hparse : parseIpv6 s.bytes with
    | none => rfl
    | some buf =>
      obtain ⟨ws, hws, -⟩ := parseIpv6_eq_some_iff.1 hparse
      exact absurd hws (h ws)
  rw [inetPton, if_neg (by decide), if_pos rfl, hnone]

theorem inetPton_code_iff (s : CStr) (dst : List UInt8) :
    (inetPton AF_INET6 (some s) (some dst)).code = 1 ↔ ∃ ws, LooseDenotes s.bytes ws := by
  by_cases h : ∃ ws, LooseDenotes s.bytes ws
  · obtain ⟨ws, hws⟩ := h
    rw [hws.inetPton_eq]
    exact iff_of_true rfl ⟨ws, hws⟩
  · rw [inetPton_of_forall_not (not_exists.1 h)]
    exact iff_of_false (show ¬ (0 : ℤ) = 1 by decide) h

/-- A dotted quad that does no harm: there is `::`, and behind it all groups and the first number of the
quad are 0. -/
def Harmless (s : List UInt8) : Prop :=
  (∀ ws, DottedGroups s ws → ws.length ≠ 8) ∧
    ∀ ws₁ ws₂, Short HexGroups DottedGroups 7 s ws₁ ws₂ →
      ∃ k b e, ws₂ = List.replicate k 0 ++ [b, e] ∧ b ≤ 255

theorem Denotes.loose (h : Denotes s ws) (hharmless : Harmless s) : LooseDenotes s ws := by
  obtain ⟨hs | hs, h8⟩ | ⟨ws₁, ws₂, rfl, hs | hs⟩ := h
  · exact .of_hex hs h8
  · exact absurd h8 (hharmless.1 ws hs)
  · exact .of_short hs
  · obtain ⟨gs, a, b, e, m, rfl, hb, hzero, hlen, hloose⟩ := LooseDenotes.of_dotted hs
    obtain ⟨k, b', e', heq, hb'⟩ := hharmless.2 _ _ hs
    obtain ⟨rfl, hend⟩ := append_inj' heq rfl
    have ha : a = 0 := by
      have := (cons.inj hend).1
      omega
    have hsame := (filled_eq_iff (b := b) (e := e) hzero hlen).2 ⟨by rw [length_replicate], ha⟩
    rwa [hsame] at hloose

/-- **`inet_pton` accepts exactly the texts of IPv6 addresses and stores what they denote**, if and only
if the text is not merely a loose one, and a dotted quad in it does no harm. -/
theorem inetPton_text_iff (s : CStr) (dst : List UInt8) :
    (((inetPton AF_INET6 (some s) (some dst)).code = 1 ↔ ∃ ws, Denotes s.bytes ws) ∧
      (∀ ws, Denotes s.bytes ws →
        (inetPton AF_INET6 (some s) (some dst)).dst = addressBytes ws ++ dst.drop 16) ∧
      ((inetPton AF_INET6 (some s) (some dst)).code ≠ 1 →
        (inetPton AF_INET6 (some s) (some dst)).dst = dst)) ↔
    ((∃ ws, LooseDenotes s.bytes ws) → ∃ ws, Denotes s.bytes ws) ∧ Harmless s.bytes := by
  rw [ne_eq, inetPton_code_iff]
  constructor
  · rintro ⟨hiff, hstored, -⟩
    refine ⟨hiff.1, ?_, ?_⟩
    · intro ws hws h8
      obtain ⟨ws', hloose⟩ := hiff.2 ⟨ws, .inl ⟨.inr hws, h8⟩⟩
      cases hloose.parseIpv6_eq.symm.trans (hws.parseIpv6_eq_none h8)
    · intro ws₁ ws₂ hs
      have hdst := hstored _ (.inr ⟨ws₁, ws₂, rfl, .inr hs⟩)
      obtain ⟨gs, a, b, e, m, rfl, hb, hzero, hlen, hloose⟩ := LooseDenotes.of_dotted hs
      rw [hloose.inetPton_eq] at hdst
      have hbytes := append_cancel_right hdst
      have hle : ∀ w ∈ filled ws₁ (gs ++ [256 * a + b, e]), w ≤ 0xffff := by
        obtain ⟨s₁, s₂, -, h₁, h₂, -, -⟩ := hs
        refine filled_forall_le (h₁.forall_le fun s ws h => ?_) h₂.forall_le
        exact h.loose.forall_le (fun t n h => h.2) (One.forall_le fun t n h => h.2)
      have hwords := addressBytes_inj hloose.forall_le hle hbytes
      obtain ⟨hgs, rfl⟩ := (filled_eq_iff hzero hlen).1 hwords
      exact ⟨gs.length, b, e, by rw [← hgs, Nat.mul_zero, zero_add], hb⟩
  · rintro ⟨hvalid, hharmless⟩
    refine ⟨⟨hvalid, ?_⟩, ?_, ?_⟩
    · rintro ⟨ws, hws⟩
      exact ⟨ws, hws.loose hharmless⟩
    · intro ws hws
      rw [(hws.loose hharmless).inetPton_eq]
    · intro hnot
      rw [inetPton_of_forall_not (not_exists.1 hnot)]

/-- The text `::1.2.3.4` denotes `::102:304`, and `::1:2:304` is stored. -/
theorem inetPton_misreads_quad :
    Denotes (str "::1.2.3.4").bytes [0, 0, 0, 0, 0, 0, 0x102, 0x304] ∧
      inetPton AF_INET6 (some (str "::1.2.3.4")) (some (List.replicate 16 0xff)) =
        ⟨1, addressBytes [0, 0, 0, 0, 0, 1, 2, 0x304], none⟩ := by
  refine ⟨.inr ⟨[], [0x102, 0x304], rfl, .inr ⟨[], (str "1.2.3.4").bytes, by decide,
    .inl ⟨rfl, rfl⟩, .last ⟨1, 2, 3, 4, ?_, rfl⟩, by decide, by decide⟩⟩, by decide⟩
  refine ⟨[49], [50], [51], [52], by decide, ?_, ?_, ?_, ?_⟩
  all_goals exact ⟨by decide, by decide, by decide +kernel, by decide +kernel, by decide⟩

end Vlibc.Inet
