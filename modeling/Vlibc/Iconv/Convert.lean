import Vlibc.Iconv.Codes
import Vlibc.Memory.Malloc
import Vlibc.Strings

/-!
# `iconv`

The conversion descriptors of `iconv_open` and the loop of `iconv`. Of the four arguments that
`iconv` updates through pointers, `*inbuf` and `*outbuf` are offsets into the buffers; a call
returns their new values and the bytes that it has stored. Each case of the loop reads one character
with a decoder and writes it with an encoder (`step_eq`), so that a call converts from one code to
the other as far as there is room (`iconv_cases`).
-/

namespace Vlibc.Iconv

open List Option

/-- The types of descriptors, but for that of the host. -/
inductive CdType where
  | asciiAscii | asciiUtf8 | utf8Ascii | utf8Utf8
  | asciiIso8859 | iso8859Ascii | iso8859Iso8859 | iso8859Utf8 | utf8Iso8859
  | asciiUtf16 | utf16Ascii | utf8Utf16 | utf16Utf8
  | iso8859Utf16 | utf16Iso8859 | utf16Utf16
  deriving DecidableEq

/-! ## Opening a descriptor -/

/-- The test of a name for one of several, in upper or lower case. -/
def isCs (names : List CStr) (name : Option CStr) : Bool :=
  name.any fun n => names.any fun s => strcasecmp n s = 0

/-- `is_ascii_cs`. -/
def isAsciiCs : Option CStr → Bool := isCs [str "ASCII", str "US-ASCII"]

/-- `is_utf8_cs`. -/
def isUtf8Cs : Option CStr → Bool := isCs [str "UTF-8", str "UTF8"]

/-- `is_8859_1_cs`. -/
def is8859Cs : Option CStr → Bool :=
  isCs [str "ISO-8859-1", str "ISO8859-1", str "LATIN1", str "LATIN-1"]

/-- `is_utf16_cs`. -/
def isUtf16Cs : Option CStr → Bool := isCs [str "UTF-16", str "UTF16"]

/-- `iconv_open`; `mem` is whether `malloc` succeeds. -/
def iconvOpen (tocode fromcode : Option CStr) (mem : Bool) : Except ℕ CdType :=
  if tocode = none ∨ fromcode = none then .error EINVAL
  else if !mem then .error ENOMEM
  else if isAsciiCs fromcode && isAsciiCs tocode then .ok .asciiAscii
  else if isAsciiCs fromcode && isUtf8Cs tocode then .ok .asciiUtf8
  else if isUtf8Cs fromcode && isAsciiCs tocode then .ok .utf8Ascii
  else if isUtf8Cs fromcode && isUtf8Cs tocode then .ok .utf8Utf8
  else if isAsciiCs fromcode && is8859Cs tocode then .ok .asciiIso8859
  else if is8859Cs fromcode && isAsciiCs tocode then .ok .iso8859Ascii
  else if is8859Cs fromcode && is8859Cs tocode then .ok .iso8859Iso8859
  else if is8859Cs fromcode && isUtf8Cs tocode then .ok .iso8859Utf8
  else if isUtf8Cs fromcode && is8859Cs tocode then .ok .utf8Iso8859
  else if isAsciiCs fromcode && isUtf16Cs tocode then .ok .asciiUtf16
  else if isUtf16Cs fromcode && isAsciiCs tocode then .ok .utf16Ascii
  else if isUtf8Cs fromcode && isUtf16Cs tocode then .ok .utf8Utf16
  else if isUtf16Cs fromcode && isUtf8Cs tocode then .ok .utf16Utf8
  else if is8859Cs fromcode && isUtf16Cs tocode then .ok .iso8859Utf16
  else if isUtf16Cs fromcode && is8859Cs tocode then .ok .utf16Iso8859
  else if isUtf16Cs fromcode && isUtf16Cs tocode then .ok .utf16Utf16
  else .error EINVAL

/-- The character sets with a converter of their own. -/
inductive CharSet where
  | ascii | utf8 | iso8859 | utf16
  deriving DecidableEq

/-- The test for the name of a set. -/
def CharSet.isCs : CharSet → Option CStr → Bool
  | ascii => isAsciiCs
  | utf8 => isUtf8Cs
  | iso8859 => is8859Cs
  | utf16 => isUtf16Cs

/-- The sets that a descriptor was opened for, the one to convert from first. -/
def CdType.charSets : CdType → CharSet × CharSet
  | asciiAscii => (.ascii, .ascii)
  | asciiUtf8 => (.ascii, .utf8)
  | utf8Ascii => (.utf8, .ascii)
  | utf8Utf8 => (.utf8, .utf8)
  | asciiIso8859 => (.ascii, .iso8859)
  | iso8859Ascii => (.iso8859, .ascii)
  | iso8859Iso8859 => (.iso8859, .iso8859)
  | iso8859Utf8 => (.iso8859, .utf8)
  | utf8Iso8859 => (.utf8, .iso8859)
  | asciiUtf16 => (.ascii, .utf16)
  | utf16Ascii => (.utf16, .ascii)
  | utf8Utf16 => (.utf8, .utf16)
  | utf16Utf8 => (.utf16, .utf8)
  | iso8859Utf16 => (.iso8859, .utf16)
  | utf16Iso8859 => (.utf16, .iso8859)
  | utf16Utf16 => (.utf16, .utf16)

/-- Its names in lower case. -/
def CharSet.lower : CharSet → List (List UInt8)
  | ascii => [(str "ascii").bytes, (str "us-ascii").bytes]
  | utf8 => [(str "utf-8").bytes, (str "utf8").bytes]
  | iso8859 => [(str "iso-8859-1").bytes, (str "iso8859-1").bytes, (str "latin1").bytes,
      (str "latin-1").bytes]
  | utf16 => [(str "utf-16").bytes, (str "utf16").bytes]

theorem CharSet.isCs_iff (A : CharSet) (n : CStr) :
    A.isCs (some n) ↔ n.bytes.map Ctype.tolower ∈ A.lower := by
  have hcmp : ∀ names : List CStr, (∀ s ∈ names, s.bytes.length < 2 ^ 64 - 1) →
      (Iconv.isCs names (some n) ↔
        n.bytes.map Ctype.tolower ∈ names.map fun s => s.bytes.map Ctype.tolower) := by
    intro names hlen
    simp only [Iconv.isCs, any_some, List.any_eq_true, decide_eq_true_eq, List.mem_map]
    refine exists_congr fun s => and_congr_right fun hs => ?_
    rw [strcasecmp_eq_zero_iff n s (hlen s hs), eq_comm]
  cases A with
  | ascii | utf8 | iso8859 | utf16 => exact hcmp _ (by decide)

theorem CharSet.isCs_unique {A B : CharSet} {n : CStr} (hA : A.isCs (some n))
    (hB : B.isCs (some n)) : A = B := by
  have hnames : ∀ l ∈ A.lower, l ∈ B.lower → A = B := by
    cases A <;> cases B <;> decide
  exact hnames _ ((A.isCs_iff n).1 hA) ((B.isCs_iff n).1 hB)

theorem CharSet.tests_eq {A : CharSet} {n : CStr} (hA : A.isCs (some n)) :
    isAsciiCs (some n) = decide (ascii = A) ∧ isUtf8Cs (some n) = decide (utf8 = A) ∧
      is8859Cs (some n) = decide (iso8859 = A) ∧ isUtf16Cs (some n) = decide (utf16 = A) := by
  have h : ∀ C : CharSet, C.isCs (some n) = decide (C = A) := fun C => by
    rw [Bool.eq_iff_iff, decide_eq_true_eq]
    exact ⟨fun h => isCs_unique h hA, fun h => h ▸ hA⟩
  exact ⟨h ascii, h utf8, h iso8859, h utf16⟩

/-- **`iconv_open` finds the descriptor** for the two sets that are named. -/
theorem iconvOpen_eq {A B : CharSet} {tocode fromcode : CStr} (hA : A.isCs (some fromcode))
    (hB : B.isCs (some tocode)) :
    ∃ type, iconvOpen (some tocode) (some fromcode) true = .ok type ∧ type.charSets = (A, B) := by
  obtain ⟨f₁, f₂, f₃, f₄⟩ := CharSet.tests_eq hA
  obtain ⟨t₁, t₂, t₃, t₄⟩ := CharSet.tests_eq hB
  rw [iconvOpen, if_neg (by simp), f₁, f₂, f₃, f₄, t₁, t₂, t₃, t₄]
  cases A <;> cases B <;> exact ⟨_, rfl, rfl⟩

/-- One pass of the loop, on the `inleft` bytes at `src`, of which there is one at least: what `src`
is afterwards, and what has been written at `dst`. -/
def step (type : CdType) (src : List UInt8) (outleft : ℕ) : Except ℕ (List UInt8 × List UInt8) :=
  let c := src.headD 0
  match type with
  | .asciiAscii | .asciiUtf8 | .asciiIso8859 =>
    if c ≥ 0x80 then .error EILSEQ
    else if outleft < 1 then .error E2BIG
    else .ok (src.tail, [c])
  | .iso8859Ascii =>
    if c ≥ 0x80 then .error EILSEQ
    else if outleft < 1 then .error E2BIG
    else .ok (src.tail, [c])
  | .iso8859Iso8859 => if outleft < 1 then .error E2BIG else .ok (src.tail, [c])
  | .iso8859Utf8 =>
    if c < 0x80 then
      if outleft < 1 then .error E2BIG else .ok (src.tail, [c])
    else if outleft < 2 then .error E2BIG
    else .ok (src.tail, [.ofNat (0xC0 ||| c.toNat >>> 6), .ofNat (0x80 ||| (c.toNat &&& 0x3F))])
  | .utf8Ascii =>
    match decodeUtf8 src with
    | .short => .error EINVAL
    | .bad => .error EILSEQ
    | .done (cp, src) =>
      if cp > 0x7F then .error EILSEQ
      else if outleft < 1 then .error E2BIG
      else .ok (src, [.ofNat cp])
  | .utf8Iso8859 =>
    match decodeUtf8 src with
    | .short => .error EINVAL
    | .bad => .error EILSEQ
    | .done (cp, src) =>
      if cp > 0xFF then .error EILSEQ
      else if outleft < 1 then .error E2BIG
      else .ok (src, [.ofNat cp])
  | .utf8Utf8 => if outleft < 1 then .error E2BIG else .ok (src.tail, [c])
  | .asciiUtf16 =>
    if c ≥ 0x80 then .error EILSEQ
    else
      -- that `encode_utf16` returns -1 is not tested for
      match encodeUtf16 c.toNat outleft with
      | .short => .error E2BIG
      | .bad => .ok (src.tail, [])
      | .done v => .ok (src.tail, v)
  | .utf16Ascii =>
    match decodeUtf16 src with
    | .short => .error EINVAL
    | .bad => .error EILSEQ
    | .done (cp, src) =>
      if cp > 0x7F then .error EILSEQ
      else if outleft < 1 then .error E2BIG
      else .ok (src, [.ofNat cp])
  | .utf8Utf16 =>
    match decodeUtf8 src with
    | .short => .error EINVAL
    | .bad => .error EILSEQ
    | .done (cp, src) =>
      match encodeUtf16 cp outleft with
      | .bad => .error EILSEQ
      | .short => .error E2BIG
      | .done v => .ok (src, v)
  | .utf16Utf8 =>
    match decodeUtf16 src with
    | .short => .error EINVAL
    | .bad => .error EILSEQ
    | .done (cp, src) =>
      match encodeUtf8 cp outleft with
      | .bad => .error EILSEQ
      | .short => .error E2BIG
      | .done v => .ok (src, v)
  | .iso8859Utf16 =>
    match encodeUtf16 c.toNat outleft with
    | .short => .error E2BIG
    | .bad => .ok (src.tail, [])
    | .done v => .ok (src.tail, v)
  | .utf16Iso8859 =>
    match decodeUtf16 src with
    | .short => .error EINVAL
    | .bad => .error EILSEQ
    | .done (cp, src) =>
      if cp > 0xFF then .error EILSEQ
      else if outleft < 1 then .error E2BIG
      else .ok (src, [.ofNat cp])
  | .utf16Utf16 =>
    match src with
    | b0 :: b1 :: src => if outleft < 2 then .error E2BIG else .ok (src, [b0, b1])
    | _ => .error EINVAL

/-- The variables of the loop: the bytes from `src` on, the bytes written from `*outbuf` on,
`outleft` and `converted`. -/
structure Cursor where
  src : List UInt8
  dst : List UInt8
  outleft : ℕ
  converted : ℕ
  deriving DecidableEq

/-- The loop, for at most `fuel` passes, with `errno` if it is left by an error. -/
def loop (type : CdType) : ℕ → Cursor → Cursor × Option ℕ
  | 0, c => (c, none)
  | fuel + 1, c =>
    if c.src = [] then (c, none)
    else
      match step type c.src c.outleft with
      | .error e => (c, some e)
      | .ok (src, v) => loop type fuel ⟨src, c.dst ++ v, c.outleft - v.length, c.converted + 1⟩

/-- The values behind the four arguments. -/
structure Args where
  inbuf : ℕ
  inbytesleft : ℕ
  outbuf : ℕ
  outbytesleft : ℕ
  deriving DecidableEq

/-- What a call leaves: the number of characters, `none` for `(size_t)-1`; `errno`, if it was set;
the arguments; and the bytes that have been stored from `*outbuf` on. -/
structure Reply where
  ret : Option ℕ
  errno : Option ℕ
  args : Args
  stored : List UInt8
  deriving DecidableEq

/-- `iconv`. A pass takes a byte at least, so that `inleft` passes are enough. -/
def iconv (cd : Option CdType) (input : List UInt8) (a : Args) : Reply :=
  match cd with
  | none => ⟨none, some EINVAL, a, []⟩
  | some type =>
    let src := (input.drop a.inbuf).take a.inbytesleft
    match loop type a.inbytesleft ⟨src, [], a.outbytesleft, 0⟩ with
    | (c, some e) => ⟨none, some e, a, c.dst⟩
    | (c, none) =>
      ⟨some c.converted, none, ⟨a.inbuf + (src.length - c.src.length), c.src.length,
        a.outbuf + c.dst.length, c.outleft⟩, c.dst⟩

/-! ## Which codes a descriptor converts between -/

/-- How the loop reads and writes characters. UTF-8 is copied to UTF-8 byte by byte, and UTF-16 to
UTF-16 without a look for surrogates. -/
inductive Format where
  | ascii | iso8859 | utf8 | utf16 | unit16

namespace Format

/-- The code of a format. -/
def code : Format → Code ℕ UInt8
  | ascii => Iconv.ascii
  | iso8859 => Iconv.iso8859
  | utf8 => Iconv.utf8
  | utf16 => Iconv.utf16
  | unit16 => Iconv.unit16

/-- How a character is read. -/
def decode : Format → List UInt8 → Result (ℕ × List UInt8)
  | ascii => decodeAscii
  | iso8859 => decodeByte
  | utf8 => decodeUtf8
  | utf16 => decodeUtf16
  | unit16 => decodeUnit

/-- How a character is written, if there is room. -/
def encode : Format → ℕ → ℕ → Result (List UInt8)
  | ascii => encodeAscii
  | iso8859 => encodeByte
  | utf8 => encodeUtf8
  | utf16 => encodeUtf16
  | unit16 => encodeUnit

theorem decode_decodes (F : Format) : Decodes F.decode F.code := by
  cases F with
  | ascii => exact decodeAscii_decodes
  | iso8859 => exact decodeByte_decodes
  | utf8 => exact decodeUtf8_decodes
  | utf16 => exact decodeUtf16_decodes
  | unit16 => exact decodeUnit_decodes

theorem encode_encodes (F : Format) : Encodes F.encode F.code := by
  cases F with
  | ascii => exact encodeAscii_encodes
  | iso8859 => exact encodeByte_encodes
  | utf8 => exact encodeUtf8_encodes
  | utf16 => exact encodeUtf16_encodes
  | unit16 => exact encodeUnit_encodes

end Format

namespace CdType

/-- The format a descriptor reads. -/
def source : CdType → Format
  | asciiAscii | asciiUtf8 | asciiIso8859 | asciiUtf16 => .ascii
  | iso8859Ascii | iso8859Iso8859 | iso8859Utf8 | iso8859Utf16 | utf8Utf8 => .iso8859
  | utf8Ascii | utf8Iso8859 | utf8Utf16 => .utf8
  | utf16Ascii | utf16Iso8859 | utf16Utf8 => .utf16
  | utf16Utf16 => .unit16

/-- The format a descriptor writes. -/
def target : CdType → Format
  | asciiAscii | iso8859Ascii | utf8Ascii | utf16Ascii => .ascii
  | asciiIso8859 | iso8859Iso8859 | utf8Iso8859 | utf16Iso8859 | utf8Utf8 => .iso8859
  | asciiUtf8 | iso8859Utf8 | utf16Utf8 => .utf8
  | asciiUtf16 | iso8859Utf16 | utf8Utf16 => .utf16
  | utf16Utf16 => .unit16

end CdType

/-- How a pass ends with what the encoder returns. -/
def written (src : List UInt8) : Result (List UInt8) → Except ℕ (List UInt8 × List UInt8)
  | .bad => .error EILSEQ
  | .short => .error E2BIG
  | .done v => .ok (src, v)

/-- One pass of the loop: a character is read and written. -/
def pass (F G : Format) (src : List UInt8) (outleft : ℕ) : Except ℕ (List UInt8 × List UInt8) :=
  match F.decode src with
  | .short => .error EINVAL
  | .bad => .error EILSEQ
  | .done (cp, src) => written src (G.encode cp outleft)

section Cases

variable (c : UInt8) (src : List UInt8) (cp k : ℕ)

theorem written_encodeAscii : written src (encodeAscii cp k) =
    if cp > 0x7F then .error EILSEQ
    else if k < 1 then .error E2BIG else .ok (src, [.ofNat cp]) := by
  rw [encodeAscii]
  split_ifs <;> rfl

theorem written_encodeByte : written src (encodeByte cp k) =
    if cp > 0xFF then .error EILSEQ
    else if k < 1 then .error E2BIG else .ok (src, [.ofNat cp]) := by
  rw [encodeByte]
  split_ifs <;> rfl

theorem written_encodeUtf8 (h : cp < 0x800) : written src (encodeUtf8 cp k) =
    if cp < 0x80 then (if k < 1 then .error E2BIG else .ok (src, [.ofNat cp]))
    else if k < 2 then .error E2BIG
    else .ok (src, [.ofNat (0xC0 ||| cp >>> 6), .ofNat (0x80 ||| (cp &&& 0x3F))]) := by
  rw [encodeUtf8, if_pos h]
  split_ifs <;> rfl

theorem written_encodeUtf16 :
    (match encodeUtf16 c.toNat k with
      | .short => Except.error E2BIG
      | .bad => .ok (src, [])
      | .done v => .ok (src, v)) = written src (encodeUtf16 c.toNat k) := by
  have hc := c.toNat_lt
  rw [encodeUtf16, if_neg (by omega)]
  split_ifs <;> rfl

theorem pass_ascii (G : Format) : pass .ascii G (c :: src) k =
    if c ≥ 0x80 then .error EILSEQ else written src (G.encode c.toNat k) := by
  rw [pass, Format.decode, decodeAscii]
  split_ifs <;> rfl

end Cases

open CdType

/-- **Every case of the loop decodes a character and encodes it.** -/
theorem step_eq (type : CdType) (c : UInt8) (src : List UInt8) (k : ℕ) :
    step type (c :: src) k = pass type.source type.target (c :: src) k := by
  have hc := c.toNat_lt
  have hge : c ≥ 0x80 ↔ ¬ c.toNat < 0x80 := Nat.not_lt.symm
  have hbyte : written src (encodeByte c.toNat k) =
      if k < 1 then .error E2BIG else .ok (src, [c]) := by
    rw [written_encodeByte, if_neg (by omega), UInt8.ofNat_toNat]
  cases type with
  | asciiAscii =>
    change (if c ≥ 0x80 then _ else _) = pass .ascii .ascii _ _
    rw [pass_ascii]
    refine ite_congr rfl (fun _ => rfl) fun h => Eq.symm ?_
    have hlt := not_not.1 (mt hge.2 h)
    rw [Format.encode, written_encodeAscii, if_neg (by omega), UInt8.ofNat_toNat]
    rfl
  | asciiUtf8 =>
    change (if c ≥ 0x80 then _ else _) = pass .ascii .utf8 _ _
    rw [pass_ascii]
    refine ite_congr rfl (fun _ => rfl) fun h => Eq.symm ?_
    have hlt := not_not.1 (mt hge.2 h)
    rw [Format.encode, written_encodeUtf8 _ _ _ (by omega), if_pos hlt, UInt8.ofNat_toNat]
    rfl
  | asciiIso8859 =>
    change (if c ≥ 0x80 then _ else _) = pass .ascii .iso8859 _ _
    rw [pass_ascii]
    exact ite_congr rfl (fun _ => rfl) fun _ => hbyte.symm
  | asciiUtf16 =>
    change (if c ≥ 0x80 then _ else _) = pass .ascii .utf16 _ _
    rw [pass_ascii]
    exact ite_congr rfl (fun _ => rfl) fun _ => written_encodeUtf16 c src k
  | iso8859Ascii =>
    change _ = written src (encodeAscii c.toNat k)
    rw [written_encodeAscii, UInt8.ofNat_toNat]
    exact ite_congr (propext (hge.trans Nat.not_lt)) (fun _ => rfl) fun _ => rfl
  | iso8859Iso8859 | utf8Utf8 => exact hbyte.symm
  | iso8859Utf8 =>
    change _ = written src (encodeUtf8 c.toNat k)
    rw [written_encodeUtf8 _ _ _ (by omega), UInt8.ofNat_toNat]
    rfl
  | iso8859Utf16 => exact written_encodeUtf16 c src k
  | utf8Ascii =>
    simp only [step, pass, source, target, Format.decode, Format.encode, written_encodeAscii]
  | utf8Iso8859 =>
    simp only [step, pass, source, target, Format.decode, Format.encode, written_encodeByte]
  | utf16Ascii =>
    simp only [step, pass, source, target, Format.decode, Format.encode, written_encodeAscii]
  | utf16Iso8859 =>
    simp only [step, pass, source, target, Format.decode, Format.encode, written_encodeByte]
  | utf8Utf16 | utf16Utf8 => rfl
  | utf16Utf16 =>
    rcases src with _ | ⟨b1, src⟩
    · rfl
    · change _ = written src (encodeUnit (c.toNat + 256 * b1.toNat) k)
      obtain ⟨hle, hword⟩ := unit16_word_eq_some.1 (unit16_word_toNat c b1)
      rw [encodeUnit, if_neg (Nat.not_lt.2 hle), ← hword]
      simp only [step]
      split_ifs <;> rfl

/-- **A pass** converts the first character, or there is none that can be converted. -/
theorem pass_cases (F G : Format) (s : List UInt8) (k : ℕ) :
    (∃ a w v r, F.code.word a = some w ∧ G.code.word a = some v ∧ s = w ++ r ∧ v.length ≤ k ∧
      pass F G s k = .ok (r, v)) ∨
    Blocked F.code G.code s k ∧ ∃ e, pass F G s k = .error e := by
  cases hd : F.decode s with
  | short =>
    refine .inr ⟨fun a w v r hw _ e => ?_, EINVAL, by rw [pass, hd]⟩
    cases hd.symm.trans ((F.decode_decodes s a r).2 ⟨w, hw, e⟩)
  | bad =>
    refine .inr ⟨fun a w v r hw _ e => ?_, EILSEQ, by rw [pass, hd]⟩
    cases hd.symm.trans ((F.decode_decodes s a r).2 ⟨w, hw, e⟩)
  | done cp =>
    obtain ⟨a, r⟩ := cp
    obtain ⟨w, hw, rfl⟩ := (F.decode_decodes s a r).1 hd
    have hpass : pass F G (w ++ r) k = written r (G.encode a k) := by rw [pass, hd]
    rw [G.encode_encodes a k] at hpass
    cases hv : G.code.word a with
    | none =>
      refine .inr ⟨fun b w' v r' hw' hv' e => ?_, EILSEQ, by rw [hpass, hv]; rfl⟩
      obtain ⟨rfl, -, -⟩ := F.code.word_unique hw hw' e
      cases hv.symm.trans hv'
    | some v =>
      rw [hv, elim_some] at hpass
      by_cases hk : k < v.length
      · refine .inr ⟨fun b w' v' r' hw' hv' e => ?_, E2BIG, by rw [hpass, if_pos hk]; rfl⟩
        obtain ⟨rfl, -, -⟩ := F.code.word_unique hw hw' e
        rwa [← some.inj (hv.symm.trans hv')]
      · exact .inl ⟨a, w, v, r, hw, hv, rfl, not_lt.1 hk, by rw [hpass, if_neg hk]; rfl⟩

/-- **The loop** converts as far as it can, and is left by an error if something remains. -/
theorem loop_converted (type : CdType) (fuel : ℕ) (c : Cursor) (h : c.src.length ≤ fuel) :
    ∃ w v r n e, Converted type.source.code type.target.code c.src c.outleft w v r ∧
      loop type fuel c = (⟨r, c.dst ++ v, c.outleft - v.length, n⟩, e) ∧ (e = none ↔ r = []) := by
  induction fuel generalizing c with
  | zero =>
    obtain ⟨src, dst, k, n⟩ := c
    obtain rfl : src = [] := length_eq_zero_iff.1 (Nat.le_zero.1 h)
    exact ⟨[], [], [], n, none, .of_blocked blocked_nil, by simp [loop], by simp⟩
  | succ fuel ih =>
    obtain ⟨src, dst, k, n⟩ := c
    rcases src with _ | ⟨b, src⟩
    · exact ⟨[], [], [], n, none, .of_blocked blocked_nil, by simp [loop], by simp⟩
    have hloop : loop type (fuel + 1) ⟨b :: src, dst, k, n⟩ =
        match step type (b :: src) k with
        | .error e => (⟨b :: src, dst, k, n⟩, some e)
        | .ok (src, v) => loop type fuel ⟨src, dst ++ v, k - v.length, n + 1⟩ := by
      rw [loop, if_neg (cons_ne_nil b src)]
    rw [hloop, step_eq]
    obtain ⟨a, u, x, r, hu, hx, e, hk, hpass⟩ | ⟨hblock, e, hpass⟩ :=
      pass_cases type.source type.target (b :: src) k
    · rw [hpass]
      have hlen : r.length ≤ fuel := by
        have hne := length_pos_iff.2 (type.source.code.ne_nil hu)
        simp only [e, length_append] at h
        omega
      obtain ⟨w, v, r', n', e', hconv, hl, he⟩ := ih ⟨r, dst ++ x, k - x.length, n + 1⟩ hlen
      refine ⟨u ++ w, x ++ v, r', n', e', e ▸ hconv.cons hu hx hk, ?_, he⟩
      rw [length_append, ← Nat.sub_sub, ← append_assoc]
      exact hl
    · rw [hpass]
      exact ⟨[], [], b :: src, n, some e, .of_blocked hblock, by simp, by simp⟩

/-- The input that a call is given. -/
def Args.src (a : Args) (input : List UInt8) : List UInt8 :=
  (input.drop a.inbuf).take a.inbytesleft

/-- **A call** stores what it could convert. If all was converted, the arguments say so; otherwise
they are as they were. -/
theorem iconv_cases (type : CdType) (input : List UInt8) (a : Args) :
    ∃ w v r, Converted type.source.code type.target.code (a.src input) a.outbytesleft w v r ∧
      (iconv (some type) input a).stored = v ∧
      ((r = [] ∧ (iconv (some type) input a).ret ≠ none ∧
          (iconv (some type) input a).args = ⟨a.inbuf + (a.src input).length, 0,
            a.outbuf + v.length, a.outbytesleft - v.length⟩) ∨
        (r ≠ [] ∧ (iconv (some type) input a).ret = none ∧
          (iconv (some type) input a).args = a)) := by
  obtain ⟨w, v, r, n, e, hconv, hl, he⟩ := loop_converted type a.inbytesleft
    ⟨a.src input, [], a.outbytesleft, 0⟩ (length_take_le _ _)
  refine ⟨w, v, r, hconv, ?_⟩
  cases e with
  | none =>
    obtain rfl := he.1 rfl
    have hi : iconv (some type) input a = ⟨some n, none, ⟨a.inbuf + (a.src input).length, 0,
        a.outbuf + v.length, a.outbytesleft - v.length⟩, v⟩ := by
      simp only [iconv, Args.src] at hl ⊢
      simp [hl]
    rw [hi]
    exact ⟨rfl, .inl ⟨rfl, nofun, rfl⟩⟩
  | some e =>
    have hr : r ≠ [] := fun h => nomatch he.2 h
    have hi : iconv (some type) input a = ⟨none, some e, a, v⟩ := by
      simp only [iconv, Args.src] at hl ⊢
      simp [hl]
    rw [hi]
    exact ⟨rfl, .inr ⟨hr, rfl, rfl⟩⟩

end Vlibc.Iconv
