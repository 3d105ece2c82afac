import Vlibc.Stdlib.Strto

/-!
# Wide numbers

`wcstol` and its relatives of `wchar_conv.c`. They copy the string to a buffer of bytes and call the
functions of `strto.c`. In ASCII the copy has one byte for each character, so an offset in it is one
in the string (`wcsto_agrees`).

Other characters are left to the host's `wcstombs`, which may be any.
-/

namespace Vlibc.Stdlib

open List

/-- `has_non_ascii_wc`. -/
def hasNonAsciiWc (s : List UInt32) : Bool := s.any (0x80 ≤ ·)

/-- `wcstombs`, with no `n` if `dst` is `NULL`: what it returns, if not `-1`, and what it stores. -/
def wcstombs (host : Option ℕ → List UInt32 → Option ℕ × List UInt8) (n : Option ℕ)
    (src : List UInt32) : Option ℕ × List UInt8 :=
  if hasNonAsciiWc src then host n src
  else
    match n with
    | none => (some src.length, [])
    | some n => (some (min n src.length),
        (src.take n).map UInt32.toUInt8 ++ if src.length < n then [0] else [])

section Wide

variable (host : Option ℕ → List UInt32 → Option ℕ × List UInt8) (malloc : ℕ → Option ℕ)

/-- `wcs_to_mb_tmp`: the block, if the buffer is not `stack`, and what is in it; or `errno`. -/
def wcsToMbTmp (s : List UInt32) (stackSz : ℕ) : Except ℕ (Option ℕ × List UInt8) :=
  match (wcstombs host none s).1 with
  | none => .error EILSEQ
  | some len =>
    if len < stackSz then .ok (none, (wcstombs host (some (len + 1)) s).2)
    else
      match malloc (len + 1) with
      | none => .error ENOMEM
      | some buf => .ok (some buf, (wcstombs host (some (len + 1)) s).2)

/-- What is returned and stored in `*endptr` and `errno`, the block that was allocated, and those
that were freed. -/
structure WParsed where
  value : BitVec 64
  endptr : List UInt32
  errno : Option ℕ
  block : Option ℕ
  freed : List ℕ

/-- The body of the four functions. -/
def wcsto (strto : List UInt8 → ℤ → Parsed) (nptr : List UInt32) (base : ℤ) : WParsed :=
  match wcsToMbTmp host malloc nptr 128 with
  | .error e => ⟨0, nptr, some e, none, []⟩
  | .ok (block, bytes) =>
    let mb := bytes.takeWhile (· ≠ 0)
    let r := strto mb base
    ⟨r.value, nptr.drop (mb.length - r.endptr.length), r.errno, block,
      match block with | none => [] | some buf => [buf]⟩

/-- `wcstol`. -/
def wcstol := wcsto host malloc strtol

/-- `wcstoul`. -/
def wcstoul := wcsto host malloc strtoul

/-- `wcstoll`. -/
def wcstoll := wcsto host malloc strtoll

/-- `wcstoull`. -/
def wcstoull := wcsto host malloc strtoull

/-- The wide function answers for `s` as the other does for its bytes, and has freed its block. -/
structure Agrees (s : List UInt32) (w : WParsed) (r : Parsed) : Prop where
  value : w.value = r.value
  errno : w.errno = r.errno
  offset : s.length - w.endptr.length = s.length - r.endptr.length
  freed : w.freed = w.block.toList

variable {host malloc} {s : List UInt32}

theorem wcsToMbTmp_eq (hs : ∀ c ∈ s, c < 0x80) (hmalloc : ∀ n, (malloc n).isSome) (stackSz : ℕ) :
    ∃ block, wcsToMbTmp host malloc s stackSz = .ok (block, s.map UInt32.toUInt8 ++ [0]) := by
  have hascii : hasNonAsciiWc s = false := by simpa [hasNonAsciiWc] using hs
  have hlen : (wcstombs host none s).1 = some s.length := by simp [wcstombs, hascii]
  have hcopy : (wcstombs host (some (s.length + 1)) s).2 = s.map UInt32.toUInt8 ++ [0] := by
    simp [wcstombs, hascii, take_of_length_le]
  obtain ⟨buf, hbuf⟩ := Option.isSome_iff_exists.1 (hmalloc (s.length + 1))
  rw [wcsToMbTmp, hlen]
  dsimp only
  rw [hcopy, hbuf]
  split_ifs
  · exact ⟨none, rfl⟩
  · exact ⟨some buf, rfl⟩

theorem wcsto_eq (hs : ∀ c ∈ s, 0 < c ∧ c < 0x80) (hmalloc : ∀ n, (malloc n).isSome)
    (strto : List UInt8 → ℤ → Parsed) (base : ℤ) :
    Agrees s (wcsto host malloc strto s base) (strto (s.map UInt32.toUInt8) base) := by
  obtain ⟨block, hblock⟩ := @wcsToMbTmp_eq host _ _ (fun c hc => (hs c hc).2) hmalloc 128
  have hnul : ∀ b ∈ s.map UInt32.toUInt8, decide (b ≠ 0) = true := by
    intro b hb
    obtain ⟨c, hc, rfl⟩ := mem_map.1 hb
    obtain ⟨hpos, hlt⟩ : 0 < c.toNat ∧ c.toNat < 128 := hs c hc
    rw [decide_eq_true_iff, Ne, ← UInt8.toNat_inj, UInt32.toNat_toUInt8,
      Nat.mod_eq_of_lt (by omega)]
    exact hpos.ne'
  have htext : (s.map UInt32.toUInt8 ++ [0]).takeWhile (· ≠ 0) = s.map UInt32.toUInt8 := by
    rw [takeWhile_append_of_pos hnul]
    simp
  rw [wcsto, hblock]
  dsimp only
  rw [htext]
  refine ⟨rfl, rfl, ?_, by cases block <;> rfl⟩
  rw [length_drop, length_map]
  omega

end Wide

/-- **The wide functions agree with the others** on the bytes of every ASCII string. -/
theorem wcsto_agrees {host : Option ℕ → List UInt32 → Option ℕ × List UInt8}
    {malloc : ℕ → Option ℕ} {s : List UInt32} (hs : ∀ c ∈ s, 0 < c ∧ c < 0x80)
    (hmalloc : ∀ n, (malloc n).isSome) (base : ℤ) :
    Agrees s (wcstol host malloc s base) (strtol (s.map UInt32.toUInt8) base) ∧
      Agrees s (wcstoul host malloc s base) (strtoul (s.map UInt32.toUInt8) base) ∧
      Agrees s (wcstoll host malloc s base) (strtoll (s.map UInt32.toUInt8) base) ∧
      Agrees s (wcstoull host malloc s base) (strtoull (s.map UInt32.toUInt8) base) :=
  ⟨wcsto_eq hs hmalloc _ base, wcsto_eq hs hmalloc _ base, wcsto_eq hs hmalloc _ base,
    wcsto_eq hs hmalloc _ base⟩

/-- A number of 200 digits, which the buffer on the stack does not hold. -/
theorem wcsto_agrees_long :
    Agrees (replicate 200 49)
      (wcstol (fun _ _ => (none, [])) (fun _ => some 1) (replicate 200 49) 10)
      (strtol ((replicate 200 49).map UInt32.toUInt8) 10) :=
  (wcsto_agrees (fun c hc => by rw [eq_of_mem_replicate hc]; decide) (fun _ => rfl) 10).1

end Vlibc.Stdlib
