import Vlibc.Inet.Ntop

/-!
# IPv4 addresses as texts

`inet_aton` and `inet_ntoa` of `inet_aton.c`, which has the same `parse_ipv4` as `inet_pton.c`. The
text of an address is a dotted quad, so that both functions that read one give the address back
(`ipv4_round_trip`).
-/

namespace Vlibc.Inet

open Printf List Option BitVec

/-- `inet_aton`: what it returns, and the address; `none` is a null pointer. -/
def inetAton (cp : Option CStr) (inp : Option (List UInt8)) : ℤ × List UInt8 :=
  match cp, inp with
  | some cp, some inp =>
    match parseIpv4 cp.bytes with
    | none => (0, inp)
    | some ip => (1, store inp (htonl ip))
  | _, inp => (0, inp.getD [])

/-- `inet_ntoa`: the string in `buf`. -/
def inetNtoa (s_addr : List UInt8) : List UInt8 :=
  let addr := ntohl s_addr
  let byte (k : ℕ) : Arg := .int (addr >>> k &&& 0xFF)
  snprintf INET_ADDRSTRLEN (str "%u.%u.%u.%u") [byte 24, byte 16, byte 8, byte 0]

/-- What `%u` writes for a byte. -/
def decimal (x : UInt8) : List UInt8 := ullToBase x.toNat 10 false 64

/-- The address with the bytes `x`, `y`, `z` and `w`. -/
def dotted (x y z w : UInt8) : List UInt8 :=
  decimal x ++ dot :: (decimal y ++ dot :: (decimal z ++ dot :: decimal w))

variable (x y z w : UInt8)

theorem octet_decimal : Octet (decimal x) x.toNat := by
  have hall : ∀ n < 256, 1 ≤ (ullToBase n 10 false 64).length ∧
      (ullToBase n 10 false 64).length ≤ 3 ∧
      (ullToBase n 10 false 64).all (Stdlib.isDigitOf 10) ∧
      n = horner 10 0 (Stdlib.digitVals (ullToBase n 10 false 64)) ∧ n ≤ 255 := by
    decide +kernel
  obtain ⟨hpos, hle, hdigits, hval⟩ := hall x.toNat x.toNat_lt
  exact ⟨hpos, hle, List.all_eq_true.1 hdigits, hval⟩

theorem quad_dotted : Quad (dotted x y z w) x.toNat y.toNat z.toNat w.toNat :=
  ⟨_, _, _, _, rfl, octet_decimal x, octet_decimal y, octet_decimal z, octet_decimal w⟩

theorem length_dotted_lt : (dotted x y z w).length < INET_ADDRSTRLEN := by
  have hle (b : UInt8) : (decimal b).length ≤ 3 := (octet_decimal b).2.1
  have := hle x
  have := hle y
  have := hle z
  have := hle w
  simp only [dotted, INET_ADDRSTRLEN, length_append, length_cons]
  omega

theorem zero_notMem_dotted : 0 ∉ dotted x y z w := by
  intro h
  exact absurd ((quad_dotted x y z w).mem h) (by decide)

theorem bytes_ntohl : ntohl [x, y, z, w] >>> 24 &&& 0xFF = x.toBitVec.setWidth 32 ∧
    ntohl [x, y, z, w] >>> 16 &&& 0xFF = y.toBitVec.setWidth 32 ∧
    ntohl [x, y, z, w] >>> 8 &&& 0xFF = z.toBitVec.setWidth 32 ∧
    ntohl [x, y, z, w] >>> 0 &&& 0xFF = w.toBitVec.setWidth 32 := by
  have hmask : (0xFF : BitVec 32) = BitVec.setWidth 32 (BitVec.allOnes 8) := by decide
  refine ⟨?_, ?_, ?_, ?_⟩ <;> ext i hi <;>
    simp only [hmask, getElem_and, getElem_ushiftRight, getElem_setWidth, ntohl,
      getLsbD_bigEndian, getLsbD_allOnes] <;> grind

/-- An octet as an argument of `%u`. -/
def arg (x : UInt8) : Arg := .int (x.toBitVec.setWidth 32)

/-- The specification `%u`. -/
def uSpec : Spec := ⟨{}, 0, -1, .none⟩

theorem pieces_u (p : List UInt8) : grammar.pieces ('%'.toUInt8 :: 'u'.toUInt8 :: p) =
    (grammar.pieces p).map (.spec uSpec 'u'.toUInt8 :: ·) :=
  grammar.pieces_spec (by rw [head?_cons]; decide) rfl

theorem text_u (args : List Arg) :
    (uSpec.directive 'u'.toUInt8).text (arg x :: args) = some (decimal x, args) := by
  have htoNat : ((x.toBitVec.setWidth 32).setWidth 64).toNat = x.toNat := by
    simp [toNat_setWidth]
  change some (numberText (uSpec.directive 'u'.toUInt8)
    { buf := ullToBase ((x.toBitVec.setWidth 32).setWidth 64).toNat 10 false 64 }, args) = _
  rw [htoNat]
  simp [numberText, Number.digits, Number.lead, Spec.directive, uSpec, decimal]

theorem expansion_dotted : expansion ((str "%u.%u.%u.%u").bytes ++ [0])
    [arg x, arg y, arg z, arg w] = some (dotted x y z w) := by
  have hbytes : (str "%u.%u.%u.%u").bytes = ['%'.toUInt8, 'u'.toUInt8, dot, '%'.toUInt8, 'u'.toUInt8,
    dot, '%'.toUInt8, 'u'.toUInt8, dot, '%'.toUInt8, 'u'.toUInt8] := by decide
  have hdot : dot ≠ grammar.mark := by decide
  have hlt := length_dotted_lt x y z w
  refine expansion_of_full (by decide) (by decide +kernel) ?_ ?_
  · rw [fullExpansion, hbytes]
    simp only [pieces_u, grammar.pieces_char hdot, grammar.pieces_nil, map_some,
      bind_some, textOf, text_u, append_nil, dotted]
  · unfold INET_ADDRSTRLEN at hlt
    unfold INT_MAX
    omega

theorem snprintf_dotted {size : ℕ} (hsize : INET_ADDRSTRLEN ≤ size) :
    snprintf size (str "%u.%u.%u.%u") [arg x, arg y, arg z, arg w] = dotted x y z w := by
  have hlt := length_dotted_lt x y z w
  rw [snprintf, expansion_dotted, getD_some, take_of_length_le (by omega)]

theorem htonl_address : htonl (address x.toNat y.toNat z.toNat w.toNat) = [x, y, z, w] := by
  rw [address, htonl_bigEndian]
  exact congrArg₂ _ x.ofNat_toNat (congrArg₂ _ y.ofNat_toNat (congrArg₂ _ z.ofNat_toNat
    (congrArg₂ _ w.ofNat_toNat rfl)))

/-- **The text of an IPv4 address is read back**: both functions that write it write the same, which
fits in `INET_ADDRSTRLEN` bytes, and both that read it store the address. -/
theorem ipv4_round_trip (x y z w : UInt8) : ∃ text : CStr,
    (∀ size, INET_ADDRSTRLEN ≤ size →
      inetNtop AF_INET (some [x, y, z, w]) true size = .ok text.bytes) ∧
    inetNtoa [x, y, z, w] = text.bytes ∧ text.bytes.length + 1 ≤ INET_ADDRSTRLEN ∧
    (∀ dst, inetPton AF_INET (some text) (some dst) = ⟨1, store dst [x, y, z, w], none⟩) ∧
    ∀ inp, inetAton (some text) (some inp) = (1, store inp [x, y, z, w]) := by
  obtain ⟨hx, hy, hz, hw⟩ := bytes_ntohl x y z w
  have hparse : parseIpv4 (dotted x y z w) = some (address x.toNat y.toNat z.toNat w.toNat) :=
    parseIpv4_eq_some_iff.2 ⟨_, _, _, _, (quad_dotted x y z w).loose, rfl⟩
  refine ⟨⟨dotted x y z w, zero_notMem_dotted x y z w⟩, fun size hsize => ?_, ?_,
    length_dotted_lt x y z w, fun dst => ?_, fun inp => ?_⟩
  · have hpos : ¬ (true = false ∨ size = 0) := by
      unfold INET_ADDRSTRLEN at hsize
      simp
      omega
    rw [inetNtop, if_neg hpos, if_pos rfl, if_neg (not_lt.2 hsize)]
    dsimp only
    rw [hx, hy, hz, hw]
    exact congrArg _ (snprintf_dotted x y z w hsize)
  · rw [inetNtoa]
    dsimp only
    rw [hx, hy, hz, hw]
    exact snprintf_dotted x y z w le_rfl
  · rw [inetPton, if_pos rfl, hparse]
    dsimp only
    rw [htonl_address]
  · rw [inetAton, hparse]
    dsimp only
    rw [htonl_address]

end Vlibc.Inet
