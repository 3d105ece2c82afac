import Vlibc.Foundations.LongestRun
import Vlibc.Inet.Texts
import Vlibc.Printf.Meaning

/-!
# `inet_ntop`

The functions of `inet_ntop.c`. `bestRun` finds the first longest run of at least two words
(`bestRun_eq`). The words are then written from the left, with `::` in the place of that run
(`printLoop_none`, `printLoop_some`).
-/

namespace Vlibc.Inet

open Stdlib List Option
open Printf (expansion)

def INET_ADDRSTRLEN : ℕ := 16

def INET6_ADDRSTRLEN : ℕ := 46

/-- A digit in hexadecimal. -/
def hexDigit (d : ℕ) : UInt8 :=
  if d < 10 then '0'.toUInt8 + .ofNat d else 'a'.toUInt8 + .ofNat d - 10

/-- The loop of `hex16` over the places of the digits. -/
def hexLoop (val : BitVec 16) : (started : Bool) → List ℕ → List UInt8
  | _, [] => []
  | started, i :: is =>
    let d := (val >>> i &&& 0xF).toNat
    if d ≠ 0 ∨ started ∨ i = 0 then hexDigit d :: hexLoop val true is
    else hexLoop val started is

/-- `hex16`: the digits that are written. -/
def hex16 (val : BitVec 16) : List UInt8 := hexLoop val false [12, 8, 4, 0]

/-- `words`. -/
def wordsAt (s6_addr : List UInt8) : List (BitVec 16) :=
  (List.range 8).map fun i =>
    (s6_addr.getD (i * 2) 0).toBitVec.setWidth 16 <<< 8 |||
      (s6_addr.getD (i * 2 + 1) 0).toBitVec.setWidth 16

/-- A run: its first position, unless it is -1, and its length. -/
structure ZeroRun where
  base : Option ℕ
  len : ℕ

/-- The scan from position `i` on: the best run and the current one at the end. -/
def scanLoop : (i : ℕ) → List (BitVec 16) → (best cur : ZeroRun) → ZeroRun × ZeroRun
  | _, [], best, cur => (best, cur)
  | i, w :: words, best, cur =>
    if w = 0 then
      if cur.base = none then scanLoop (i + 1) words best ⟨some i, 1⟩
      else scanLoop (i + 1) words best ⟨cur.base, cur.len + 1⟩
    else if cur.base ≠ none then
      scanLoop (i + 1) words (if best.len < cur.len then cur else best) ⟨none, 0⟩
    else scanLoop (i + 1) words best cur

/-- `best_base` and `best_len` behind the scan. -/
def bestRun (words : List (BitVec 16)) : ZeroRun :=
  let (best, cur) := scanLoop 0 words ⟨none, 0⟩ ⟨none, 0⟩
  let best := if cur.base ≠ none ∧ best.len < cur.len then cur else best
  if best.len < 2 then ⟨none, best.len⟩ else best

/-- The loop that writes the words, with at most `n` turns left. -/
def printLoop (words : List (BitVec 16)) (best : ZeroRun) : (n i : ℕ) → (buf : List UInt8) → List UInt8
  | 0, _, buf => buf
  | n + 1, i, buf =>
    if 8 ≤ i then buf
    else if best.base = some i then
      printLoop words best n (i + (best.len - 1) + 1) (buf ++ [colon, colon])
    else
      let buf := if 0 < i ∧ buf.getLast? ≠ some colon then buf ++ [colon] else buf
      printLoop words best n (i + 1) (buf ++ hex16 (words.getD i 0))

/-- The text of an IPv6 address in `buf`. -/
def text6 (s6_addr : List UInt8) : List UInt8 :=
  let words := wordsAt s6_addr
  let best := bestRun words
  let buf := printLoop words best 8 0 []
  match best.base with
  | none => buf
  | some base => if base + best.len = 8 then buf ++ [colon] else buf

/-- The string that `snprintf` leaves in a buffer of `size` bytes. -/
def snprintf (size : ℕ) (fmt : CStr) (args : List Printf.Arg) : List UInt8 :=
  ((expansion (fmt.bytes ++ [0]) args).getD []).take (size - 1)

/-- `ntohl` of the word whose bytes are at `s`. -/
def ntohl (s : List UInt8) : BitVec 32 :=
  bigEndian (s.getD 0 0).toBitVec (s.getD 1 0).toBitVec (s.getD 2 0).toBitVec (s.getD 3 0).toBitVec

/-- `inet_ntop`: the string in `dst`, or `errno` if `NULL` is returned. `none` is a null pointer, and
`dst` says whether there is a destination. -/
def inetNtop (af : ℤ) (src : Option (List UInt8)) (dst : Bool) (size : ℕ) : Except ℕ (List UInt8) :=
  match src with
  | none => .error EINVAL
  | some src =>
    if dst = false ∨ size = 0 then .error EINVAL
    else if af = AF_INET then
      if size < INET_ADDRSTRLEN then .error ENOSPC
      else
        let addr := ntohl src
        let byte (k : ℕ) : Printf.Arg := .int (addr >>> k &&& 0xFF)
        .ok (snprintf size (str "%u.%u.%u.%u") [byte 24, byte 16, byte 8, byte 0])
    else if af = AF_INET6 then
      if size < INET6_ADDRSTRLEN then .error ENOSPC
      else .ok (snprintf size (str "%s") [.str (some (text6 src))])
    else .error EAFNOSUPPORT

theorem hexDigit_spec : ∀ d < 16, isDigitOf 16 (hexDigit d) = true ∧ (digitVal (hexDigit d)).toNat = d := by
  decide

/-- The places of the digits of a word, from the highest on. -/
def places : ℕ → List ℕ
  | 0 => [0]
  | k + 1 => 4 * (k + 1) :: places k

theorem toNat_digit (val : BitVec 16) (i : ℕ) : (val >>> i &&& 0xF).toNat = val.toNat / 2 ^ i % 16 := by
  have hmask := Nat.and_two_pow_sub_one_eq_mod (val.toNat / 2 ^ i) 4
  rw [BitVec.toNat_and, BitVec.toNat_ushiftRight, Nat.shiftRight_eq_div_pow]
  exact hmask

/-- The last digits of a number, without the zeros before them unless a digit has been written. -/
theorem hexLoop_spec (val : BitVec 16) (started : Bool) (k : ℕ) :
    ∃ ds, hexLoop val started (places k) = ds.map hexDigit ∧ 1 ≤ ds.length ∧ ds.length ≤ k + 1 ∧
      (started = true → ds.length = k + 1) ∧ (∀ d ∈ ds, d < 16) ∧
      horner 16 0 ds = val.toNat % 16 ^ (k + 1) := by
  induction k generalizing started with
  | zero =>
    refine ⟨[val.toNat % 16], ?_, Nat.le_refl 1, Nat.le_refl 1, fun _ => rfl, ?_, ?_⟩
    · rw [places, hexLoop, if_pos (.inr (.inr rfl)), toNat_digit, hexLoop, Nat.pow_zero, Nat.div_one]
      rfl
    · exact forall_mem_singleton.2 (Nat.mod_lt _ (by decide))
    · simp
  | succ k ih =>
    have hsplit : val.toNat % 16 ^ (k + 1 + 1) =
        val.toNat / 16 ^ (k + 1) % 16 * 16 ^ (k + 1) + val.toNat % 16 ^ (k + 1) := by
      rw [Nat.pow_succ 16 (k + 1), Nat.mod_mul]
      ring
    have hplace : val.toNat / 2 ^ (4 * (k + 1)) % 16 = val.toNat / 16 ^ (k + 1) % 16 := by
      rw [Nat.pow_mul]
    rw [places, hexLoop, toNat_digit, hplace, hsplit]
    by_cases hwrite : val.toNat / 16 ^ (k + 1) % 16 ≠ 0 ∨ started = true ∨ 4 * (k + 1) = 0
    · rw [if_pos hwrite]
      obtain ⟨ds, hds, -, -, hlen, hlt, hvalue⟩ := ih true
      refine ⟨val.toNat / 16 ^ (k + 1) % 16 :: ds, ?_, ?_, ?_, ?_, ?_, ?_⟩
      · rw [hds, map_cons]
      · rw [length_cons]
        omega
      · rw [length_cons, hlen rfl]
      · intro _
        rw [length_cons, hlen rfl]
      · exact forall_mem_cons.2 ⟨Nat.mod_lt _ (by decide), hlt⟩
      · rw [horner_cons, horner_eq_add, hlen rfl, hvalue, Nat.zero_mul, Nat.zero_add]
    · rw [if_neg hwrite]
      obtain ⟨hzero, hnot⟩ := not_or.1 hwrite
      obtain ⟨ds, hds, hpos, hle, -, hlt, hvalue⟩ := ih started
      refine ⟨ds, hds, hpos, by omega, ?_, hlt, ?_⟩
      · intro hstarted
        exact absurd hstarted (not_or.1 hnot).1
      · rw [hvalue, not_not.1 hzero, Nat.zero_mul, Nat.zero_add]

theorem hex_hex16 (val : BitVec 16) : Hex (hex16 val) val.toNat := by
  obtain ⟨ds, hds, hpos, hle, -, hlt, hvalue⟩ := hexLoop_spec val false 3
  have hwritten : hex16 val = ds.map hexDigit := hds
  refine ⟨?_, ?_, ?_, ?_⟩
  · rwa [hwritten, length_map]
  · rwa [hwritten, length_map]
  · rw [hwritten]
    rintro c hc
    obtain ⟨d, hd, rfl⟩ := List.mem_map.1 hc
    exact (hexDigit_spec d (hlt d hd)).1
  · have hvals : digitVals (ds.map hexDigit) = ds := by
      rw [digitVals, List.map_map]
      exact (map_congr_left fun d hd => (hexDigit_spec d (hlt d hd)).2).trans (List.map_id ds)
    rw [hwritten, hvals, hvalue]
    exact (Nat.mod_eq_of_lt val.isLt).symm

/-! ## The scan -/

/-- The scan before position `i`: the current run, and the first longest one of those before it. -/
def Scanned (z : ℕ → Prop) (i : ℕ) (best cur : ZeroRun) : Prop :=
  ∃ b c, c + cur.len = i ∧ Run z c cur.len ∧ (c = 0 ∨ ¬ z (c - 1)) ∧ Longest z c b best.len ∧
    (best.base = some b ∨ best.base = none ∧ best.len = 0) ∧
    (cur.base = some c ∨ cur.base = none ∧ cur.len = 0)

variable {z : ℕ → Prop} {i : ℕ} {best cur : ZeroRun}

theorem scanned_zero (z : ℕ → Prop) : Scanned z 0 ⟨none, 0⟩ ⟨none, 0⟩ :=
  ⟨0, 0, rfl, run_zero z 0, .inl rfl, longest_zero z, .inr ⟨rfl, rfl⟩, .inr ⟨rfl, rfl⟩⟩

theorem Scanned.zero (h : Scanned z i best cur) (hz : z i) :
    Scanned z (i + 1) best (if cur.base = none then ⟨some i, 1⟩ else ⟨cur.base, cur.len + 1⟩) := by
  obtain ⟨b, c, hi, hrun, hc, hlongest, hbest, hcur⟩ := h
  have hlen : (if cur.base = none then (⟨some i, 1⟩ : ZeroRun) else ⟨cur.base, cur.len + 1⟩) =
      ⟨some c, cur.len + 1⟩ := by
    rcases hcur with hbase | ⟨hbase, hzero⟩
    · rw [hbase, if_neg (by simp)]
    · rw [if_pos hbase, hzero]
      congr 2
      omega
  rw [hlen]
  refine ⟨b, c, by rw [← hi]; rfl, ?_, hc, hlongest, hbest, .inl rfl⟩
  intro j hj hj'
  by_cases hlast : j = i
  · rwa [hlast]
  · exact hrun j hj (by dsimp only at hj'; omega)

theorem Scanned.merge (h : Scanned z i best cur) :
    ∃ b, Longest z i b (if best.len < cur.len then cur else best).len ∧
      ((if best.len < cur.len then cur else best).base = some b ∨
        (if best.len < cur.len then cur else best).base = none ∧
          (if best.len < cur.len then cur else best).len = 0) := by
  obtain ⟨b, c, hi, hrun, hc, hlongest, hbest, hcur⟩ := h
  have hmerge := hlongest.merge hc hrun
  rw [hi] at hmerge
  split_ifs at hmerge ⊢ with hlt
  · exact ⟨c, hmerge, hcur⟩
  · exact ⟨b, hmerge, hbest⟩

theorem Scanned.nonzero (h : Scanned z i best cur) (hz : ¬ z i) :
    Scanned z (i + 1) (if best.len < cur.len then cur else best) ⟨none, 0⟩ := by
  obtain ⟨b, hlongest, hbest⟩ := h.merge
  exact ⟨b, i + 1, rfl, run_zero z _, .inr hz, hlongest.succ hz, hbest, .inr ⟨rfl, rfl⟩⟩

/-- **The scan to the end.** By induction on the words that are left. -/
theorem scanLoop_scanned {pre rest : List (BitVec 16)}
    (h : Scanned (fun i => (pre ++ rest)[i]? = some 0) pre.length best cur) :
    Scanned (fun i => (pre ++ rest)[i]? = some 0) (pre ++ rest).length
      (scanLoop pre.length rest best cur).1 (scanLoop pre.length rest best cur).2 := by
  induction rest generalizing pre best cur with
  | nil =>
    rw [append_nil] at h ⊢
    exact h
  | cons w rest ih =>
    have hword : (pre ++ w :: rest)[pre.length]? = some w := by
      rw [getElem?_append_right (Nat.le_refl _), Nat.sub_self, getElem?_cons_zero]
    have hsplit : pre ++ w :: rest = pre ++ [w] ++ rest := by
      rw [append_assoc]
      rfl
    have hlen : pre.length + 1 = (pre ++ [w]).length := by
      rw [length_append, length_singleton]
    by_cases hw : w = 0
    · have hstep := h.zero (by rw [hword, hw])
      have hloop : scanLoop pre.length (w :: rest) best cur = scanLoop (pre.length + 1) rest best
          (if cur.base = none then ⟨some pre.length, 1⟩ else ⟨cur.base, cur.len + 1⟩) := by
        rw [scanLoop, if_pos hw]
        split <;> rfl
      rw [hloop]
      rw [hlen, hsplit] at hstep ⊢
      exact ih hstep
    · have hstep := h.nonzero (by rw [hword]; exact fun h => hw (some.inj h))
      have hloop : scanLoop pre.length (w :: rest) best cur = scanLoop (pre.length + 1) rest
          (if best.len < cur.len then cur else best) ⟨none, 0⟩ := by
        rw [scanLoop, if_neg hw]
        obtain ⟨b, c, -, -, -, -, -, hbase | ⟨hbase, hzero⟩⟩ := h
        · rw [if_pos (by simp [hbase])]
        · have hcur : cur = ⟨none, 0⟩ := by
            cases cur
            rw [← hbase, ← hzero]
          rw [if_neg (by simp [hbase]), hzero, if_neg (Nat.not_lt_zero _), ← hcur]
      rw [hloop]
      rw [hlen, hsplit] at hstep ⊢
      exact ih hstep

/-- **The first longest run of zero words** is found, unless it has less than two of them. -/
theorem bestRun_eq (words : List (BitVec 16)) :
    ∃ b n, Longest (fun i => words[i]? = some 0) words.length b n ∧
      bestRun words = ⟨if n < 2 then none else some b, n⟩ := by
  have hscan : Scanned (fun i => ([] ++ words)[i]? = some 0) ([] ++ words).length
      (scanLoop 0 words ⟨none, 0⟩ ⟨none, 0⟩).1 (scanLoop 0 words ⟨none, 0⟩ ⟨none, 0⟩).2 :=
    scanLoop_scanned (scanned_zero _)
  rw [nil_append] at hscan
  obtain ⟨b, hlongest, hbase⟩ := hscan.merge
  obtain ⟨-, c, -, -, -, -, -, hcur⟩ := hscan
  rw [bestRun]
  generalize scanLoop 0 words ⟨none, 0⟩ ⟨none, 0⟩ = r at hlongest hbase hcur
  obtain ⟨best, cur⟩ := r
  dsimp only at hlongest hbase hcur ⊢
  have hsame : (if cur.base ≠ none ∧ best.len < cur.len then cur else best) =
      if best.len < cur.len then cur else best := by
    rcases hcur with hcur | ⟨-, hzero⟩
    · simp [hcur]
    · rw [if_neg (by omega), if_neg (by omega)]
  rw [hsame]
  generalize (if best.len < cur.len then cur else best) = m at hlongest hbase
  refine ⟨b, m.len, hlongest, ?_⟩
  split_ifs with hlt
  · rfl
  · rcases hbase with hbase | ⟨-, hzero⟩
    · rw [← hbase]
    · omega

/-! ## The words -/

/-- Words, each behind a colon. -/
def colonWords (words : List (BitVec 16)) : List UInt8 := words.flatMap fun w => colon :: hex16 w

/-- Words with colons between them. -/
def joined : List (BitVec 16) → List UInt8
  | [] => []
  | w :: words => hex16 w ++ colonWords words

theorem hexGroups_joined {words : List (BitVec 16)} (hne : words ≠ []) :
    HexGroups (joined words) (words.map BitVec.toNat) := by
  induction words with
  | nil => exact absurd rfl hne
  | cons w words ih =>
    cases words with
    | nil =>
      rw [joined, colonWords, flatMap_nil, append_nil]
      exact .last ⟨_, hex_hex16 w, rfl⟩
    | cons v words =>
      have hrest := ih (cons_ne_nil v words)
      exact .cons (hex_hex16 w) hrest

theorem part_joined (words : List (BitVec 16)) : Part HexGroups (joined words) (words.map BitVec.toNat) := by
  cases words with
  | nil => exact .inl ⟨rfl, rfl⟩
  | cons w words => exact .inr (hexGroups_joined (cons_ne_nil w words))

theorem getLast?_hex16 (buf : List UInt8) (w : BitVec 16) : (buf ++ hex16 w).getLast? ≠ some colon := by
  obtain ⟨hpos, -, hds, -⟩ := hex_hex16 w
  have hne : hex16 w ≠ [] := length_pos_iff.1 hpos
  intro hlast
  rw [getLast?_append_of_ne_nil _ hne] at hlast
  have := hds colon (mem_of_getLast? hlast)
  cases this

variable {words : List (BitVec 16)} {buf : List UInt8}

theorem printLoop_word {n : ℕ} (hi : i < 8) (hbase : best.base ≠ some i) :
    printLoop words best (n + 1) i buf = printLoop words best n (i + 1)
      ((if 0 < i ∧ buf.getLast? ≠ some colon then buf ++ [colon] else buf) ++
        hex16 (words.getD i 0)) := by
  rw [printLoop, if_neg (by omega), if_neg hbase]

theorem take_drop_eq {k : ℕ} (hi : i < words.length) :
    (words.drop i).take (k + 1) = words.getD i 0 :: (words.drop (i + 1)).take k := by
  rw [drop_eq_getElem_cons hi, take_succ_cons, getD_eq_getElem _ _ hi]

theorem printLoop_colonWords (hwords : words.length = 8) (n k : ℕ) (hi : 0 < i) (hik : i + k ≤ 8)
    (hbase : ∀ j, i ≤ j → j < i + k → best.base ≠ some j) (hbuf : buf.getLast? ≠ some colon) :
    printLoop words best (n + k) i buf =
      printLoop words best n (i + k) (buf ++ colonWords ((words.drop i).take k)) := by
  induction k generalizing i buf with
  | zero => rw [take_zero, colonWords, flatMap_nil, append_nil]; rfl
  | succ k ih =>
    rw [← add_assoc, printLoop_word (by omega) (hbase i (le_refl i) (by omega)),
      if_pos ⟨hi, hbuf⟩, ih (by omega) (by omega) (fun j hj hj' => hbase j (by omega) (by omega))
        (getLast?_hex16 _ _), take_drop_eq (by omega)]
    congr 1
    · omega
    · rw [colonWords, colonWords, flatMap_cons, append_assoc, append_assoc]
      rfl

theorem printLoop_joined (hwords : words.length = 8) (n k : ℕ) (hik : i + k ≤ 8)
    (hbase : ∀ j, i ≤ j → j < i + k → best.base ≠ some j)
    (hbuf : i = 0 ∨ buf.getLast? = some colon) :
    printLoop words best (n + k) i buf =
      printLoop words best n (i + k) (buf ++ joined ((words.drop i).take k)) := by
  cases k with
  | zero => rw [take_zero, joined, append_nil]; rfl
  | succ k =>
    have hnot : ¬ (0 < i ∧ buf.getLast? ≠ some colon) := by
      rcases hbuf with rfl | hbuf
      · exact fun h => lt_irrefl 0 h.1
      · exact fun h => h.2 hbuf
    rw [← add_assoc, printLoop_word (by omega) (hbase i (le_refl i) (by omega)), if_neg hnot,
      printLoop_colonWords hwords n k (by omega) (by omega)
        (fun j hj hj' => hbase j (by omega) (by omega)) (getLast?_hex16 _ _),
      take_drop_eq (by omega), joined, append_assoc]
    congr 1
    omega

theorem printLoop_end (n : ℕ) (hi : 8 ≤ i) : printLoop words best n i buf = buf := by
  cases n with
  | zero => rfl
  | succ n => rw [printLoop, if_pos hi]

theorem printLoop_none (hwords : words.length = 8) (hbest : best.base = none) :
    printLoop words best 8 0 [] = joined words := by
  have h : printLoop words best (0 + 8) 0 [] =
      printLoop words best 0 (0 + 8) ([] ++ joined ((words.drop 0).take 8)) :=
    printLoop_joined hwords 0 8 (le_refl 8) (fun j _ _ => by simp [hbest]) (.inl rfl)
  rw [printLoop_end 0 (le_refl 8), drop_zero, nil_append, take_of_length_le (by omega)] at h
  exact h

theorem printLoop_some {b : ℕ} (hwords : words.length = 8) (hbest : best.base = some b)
    (hlen : 2 ≤ best.len) (hle : b + best.len ≤ 8) :
    printLoop words best 8 0 [] =
      joined (words.take b) ++ colon :: colon :: joined (words.drop (b + best.len)) := by
  have hbefore : printLoop words best (7 - b + 1 + b) 0 [] =
      printLoop words best (7 - b + 1) (0 + b) ([] ++ joined ((words.drop 0).take b)) :=
    printLoop_joined hwords _ b (by omega) (fun j _ hj => by rw [hbest]; simp; omega) (.inl rfl)
  have hrun : ∀ buf, printLoop words best (7 - b + 1) b buf =
      printLoop words best (7 - b) (b + best.len) (buf ++ [colon, colon]) := by
    intro buf
    rw [printLoop, if_neg (by omega), if_pos hbest, show b + (best.len - 1) + 1 = b + best.len by omega]
  have hafter : ∀ buf, buf.getLast? = some colon → printLoop words best
      (best.len - 1 + (8 - (b + best.len))) (b + best.len) buf =
        buf ++ joined ((words.drop (b + best.len)).take (8 - (b + best.len))) := by
    intro buf hbuf
    rw [printLoop_joined hwords _ _ (by omega) (fun j hj _ => by rw [hbest]; simp; omega) (.inr hbuf),
      printLoop_end _ (by omega)]
  have hrest : (words.drop (b + best.len)).take (8 - (b + best.len)) = words.drop (b + best.len) :=
    take_of_length_le (by rw [length_drop]; omega)
  rw [show 7 - b + 1 + b = 8 by omega, zero_add, drop_zero, nil_append] at hbefore
  rw [hbefore, hrun, show 7 - b = best.len - 1 + (8 - (b + best.len)) by omega, hafter, hrest,
    append_assoc]
  · rfl
  · rw [getLast?_append_of_ne_nil _ (cons_ne_nil _ _)]
    rfl

theorem expansion_string {text : List UInt8} (hlen : (text.length : ℤ) ≤ Printf.INT_MAX) :
    expansion ((str "%s").bytes ++ [0]) [.str (some text)] = some text := by
  have hformat : (str "%s").bytes = ['%'.toUInt8, 's'.toUInt8] := by decide
  have hpieces : Printf.grammar.pieces ['%'.toUInt8, 's'.toUInt8] =
      some [.spec (Printf.grammar.read ['s'.toUInt8]).1 's'.toUInt8] := by
    have hread : Printf.grammar.read ['s'.toUInt8] =
        ((Printf.grammar.read ['s'.toUInt8]).1, ['s'.toUInt8]) := rfl
    rw [show ['%'.toUInt8, 's'.toUInt8] = Printf.grammar.mark :: ['s'.toUInt8] from rfl,
      Printf.grammar.pieces_spec (by decide) hread, Printf.grammar.pieces_nil]
    rfl
  have hstring : ((Printf.grammar.read ['s'.toUInt8]).1.directive 's'.toUInt8).text
      [.str (some text)] = some (text, []) := by
    change some ((List.replicate (0 - text.length) ' '.toUInt8 ++ text) ++ [], []) = _
    rw [Nat.zero_sub, append_nil]
    rfl
  have htext : Printf.fullExpansion ['%'.toUInt8, 's'.toUInt8] [.str (some text)] = some text := by
    rw [Printf.fullExpansion, hpieces, bind_some, Printf.textOf, hstring]
    simp only [Printf.textOf, map_some, append_nil]
  rw [hformat]
  exact Printf.expansion_of_full (by decide) (by decide +kernel) htext hlen

theorem snprintf_string {text : List UInt8} {size : ℕ} (htext : text.length < INET6_ADDRSTRLEN)
    (hsize : INET6_ADDRSTRLEN ≤ size) : snprintf size (str "%s") [.str (some text)] = text := by
  unfold INET6_ADDRSTRLEN at htext hsize
  rw [snprintf, expansion_string (by unfold Printf.INT_MAX; omega), getD_some,
    take_of_length_le (by omega)]

end Vlibc.Inet
