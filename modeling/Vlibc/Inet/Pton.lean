import Vlibc.Stdlib.Strto
import Vlibc.Strings

/-!
# `inet_pton`

The functions of `inet_pton.c`. The words of an IPv6 address that have been read are a list, whose
length is `cur`; there is no `zpos`, the position of `::`, as long as it is -1 in the source. Each
turn of the loop reads a word or sets `zpos`, so it has at most ten turns, the last one included
(`parseLoop_fuel`).
-/

namespace Vlibc.Inet

open Stdlib (strtol)

def AF_INET : ℤ := 2

def AF_INET6 : ℤ := 10

def dot : UInt8 := '.'.toUInt8

def colon : UInt8 := ':'.toUInt8

/-- One of the first three numbers, and what follows the dot behind it. -/
def octet (s : List UInt8) : Option (BitVec 64 × List UInt8) :=
  let a := strtol s 10
  if a.value.toInt < 0 ∨ 255 < a.value.toInt ∨ a.endptr.head? ≠ some dot then none
  else some (a.value, a.endptr.tail)

/-- The last of the four numbers; a blank may follow. -/
def lastOctet (s : List UInt8) : Option (BitVec 64) :=
  let d := strtol s 10
  if d.value.toInt < 0 ∨ 255 < d.value.toInt ∨
      (d.endptr ≠ [] ∧ d.endptr.head? ≠ some ' '.toUInt8 ∧ d.endptr.head? ≠ some '\t'.toUInt8) then none
  else some d.value

/-- `parse_ipv4`. -/
def parseIpv4 (s : List UInt8) : Option (BitVec 32) := do
  let (a, s) ← octet s
  let (b, s) ← octet s
  let (c, s) ← octet s
  let d ← lastOctet s
  return a.setWidth 32 <<< 24 ||| b.setWidth 32 <<< 16 ||| c.setWidth 32 <<< 8 ||| d.setWidth 32

/-! ## IPv6 -/

/-- The loop over the groups: what is left of the text, the words, and `zpos`. -/
def parseLoop : (fuel : ℕ) → (s : List UInt8) → (words : List (BitVec 16)) → (zpos : Option ℕ) →
    Option (List UInt8 × List (BitVec 16) × Option ℕ)
  | 0, _, _, _ => none
  | fuel + 1, s, words, zpos =>
    if s = [] ∨ 8 ≤ words.length then some (s, words, zpos)
    else if s.head? = some colon then
      if zpos ≠ none then none
      else if s.tail.head? = some colon then none
      else parseLoop fuel s.tail words (some words.length)
    else
      let val := strtol s 16
      if val.value.toInt < 0 ∨ 0xffff < val.value.toInt then none
      else
        let words := words ++ [val.value.setWidth 16]
        let s := val.endptr
        if s.head? = some dot then
          if 6 < words.length then none
          else (parseIpv4 s).map fun ipv4 : BitVec 32 =>
            ([], words ++ [(ipv4 >>> 16).setWidth 16, ipv4.setWidth 16], zpos)
        else if s.head? = some colon then parseLoop fuel s.tail words zpos
        else if s ≠ [] then none
        else parseLoop fuel s words zpos

/-- `words[8]`, of which the first have been read. -/
def array (words : List (BitVec 16)) (i : ℕ) : BitVec 16 := words.getD i 0

/-- The loop that moves `n` words from `zpos` on up by `fill`, the last one first. -/
def shiftLoop (fill zpos : ℕ) : (n : ℕ) → (ℕ → BitVec 16) → ℕ → BitVec 16
  | 0, words => words
  | n + 1, words =>
    shiftLoop fill zpos n (Function.update words (zpos + n + fill) (words (zpos + n)))

/-- The loop that clears the words of a gap. -/
def clearLoop : (i n : ℕ) → (ℕ → BitVec 16) → ℕ → BitVec 16
  | _, 0, words => words
  | i, n + 1, words => clearLoop (i + 1) n (Function.update words i 0)

/-- The sixteen bytes of an address. -/
def out (words : ℕ → BitVec 16) : List UInt8 :=
  (List.range 8).flatMap fun i =>
    [.ofBitVec ((words i >>> 8).setWidth 8), .ofBitVec ((words i &&& 0xff).setWidth 8)]

/-- Before the loop: `::` at the start. -/
def start (s : List UInt8) : Option (List UInt8 × Option ℕ) :=
  if s.head? = some colon then
    if s.tail.head? ≠ some colon then none else some (s.drop 2, some 0)
  else some (s, none)

/-- Behind the loop: the words that are missing. -/
def finish (words : List (BitVec 16)) (zpos : Option ℕ) : Option (List UInt8) :=
  let cur := words.length
  let fill := 8 - cur
  match zpos with
  | none => if cur ≠ 8 then none else some (out (array words))
  | some zpos => some (out (clearLoop zpos fill (shiftLoop fill zpos (cur - zpos) (array words))))

/-- `parse_ipv6`. -/
def parseIpv6 (s : List UInt8) : Option (List UInt8) := do
  let (s, zpos) ← start s
  let (s, words, zpos) ← parseLoop 10 s [] zpos
  if s ≠ [] then none else finish words zpos

/-- Memory that begins with the bytes. -/
def store (dst bytes : List UInt8) : List UInt8 := bytes ++ dst.drop bytes.length

/-- `htonl`, as bytes in memory. -/
def htonl (ip : BitVec 32) : List UInt8 :=
  [.ofBitVec ((ip >>> 24).setWidth 8), .ofBitVec ((ip >>> 16).setWidth 8),
    .ofBitVec ((ip >>> 8).setWidth 8), .ofBitVec (ip.setWidth 8)]

/-- What `inet_pton` returns, what `dst` is then, and `errno` if it is set. -/
structure Answer where
  code : ℤ
  dst : List UInt8
  errno : Option ℕ
  deriving DecidableEq

/-- `inet_pton`; `none` is a null pointer. -/
def inetPton (af : ℤ) (src : Option CStr) (dst : Option (List UInt8)) : Answer :=
  match src, dst with
  | some src, some dst =>
    if af = AF_INET then
      match parseIpv4 src.bytes with
      | none => ⟨0, dst, none⟩
      | some ip => ⟨1, store dst (htonl ip), none⟩
    else if af = AF_INET6 then
      match parseIpv6 src.bytes with
      | none => ⟨0, dst, none⟩
      | some buf => ⟨1, store dst buf, none⟩
    else ⟨-1, dst, some EAFNOSUPPORT⟩
  | _, dst => ⟨-1, dst.getD [], some EINVAL⟩

/-- The rounds that the loop can make. -/
def turns (words : List (BitVec 16)) (zpos : Option ℕ) : ℕ :=
  8 - words.length + (if zpos = none then 1 else 0) + 1

variable {words : List (BitVec 16)}

theorem turns_append (h : words.length < 8) (zpos : Option ℕ)
    (w : BitVec 16) : turns (words ++ [w]) zpos + 1 = turns words zpos := by
  rw [turns, turns, List.length_append, List.length_singleton]
  omega

theorem turns_some (words : List (BitVec 16)) (z : ℕ) :
    turns words (some z) + 1 = turns words none := by
  rw [turns, turns, if_neg (by simp), if_pos rfl]

/-- The fuel does not run out: with more of it the loop ends in the same way. -/
theorem parseLoop_fuel {fuel fuel' : ℕ} {zpos : Option ℕ}
    (h : turns words zpos ≤ fuel) (h' : turns words zpos ≤ fuel') (s : List UInt8) :
    parseLoop fuel s words zpos = parseLoop fuel' s words zpos := by
  induction fuel generalizing fuel' s words zpos with
  | zero =>
    rw [turns] at h
    omega
  | succ fuel ih =>
    obtain ⟨fuel', rfl⟩ := Nat.exists_eq_add_one.2 (show 0 < fuel' by rw [turns] at h'; omega)
    rw [parseLoop, parseLoop]
    split_ifs with hend hcolon hz hcolon
    · rfl
    · rfl
    · rfl
    · obtain rfl := not_not.1 hz
      have := turns_some words words.length
      exact ih (by omega) (by omega) _
    · have hword := turns_append (not_le.1 (not_or.1 hend).2) zpos ((strtol s 16).value.setWidth 16)
      have hrec : ∀ t, parseLoop fuel t (words ++ [(strtol s 16).value.setWidth 16]) zpos =
          parseLoop fuel' t (words ++ [(strtol s 16).value.setWidth 16]) zpos :=
        fun t => ih (by omega) (by omega) t
      dsimp only
      rw [hrec, hrec]

end Vlibc.Inet
