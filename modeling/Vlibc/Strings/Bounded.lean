import Vlibc.Strings

/-!
# Bounded copies and appends

`strlcpy` and `strlcat` on an array of bytes. A run of them writes the concatenation of its strings,
cut to what the size allows (`appends_truncate`). The strings lie apart from the array, so their
lengths add up without a wrap.
-/

namespace Vlibc.Bounded

open List

variable {n : ℕ} {dst : List UInt8}

/-- The array after `vmemcpy(dst + i, src, copy)` and `dst[i + copy] = '\0'`. -/
def copyEnd (dst : List UInt8) (i : ℕ) (src : CStr) (copy : ℕ) : List UInt8 :=
  (dst.take i ++ src.bytes.take copy ++ dst.drop (i + copy)).set (i + copy) 0

/-- `strlcpy`: what it returns, and the destination. -/
def strlcpy (dst : List UInt8) (src : CStr) (size : ℕ) : ℕ × List UInt8 :=
  let len := vstrlen src
  if size ≠ 0 then
    let copy := if len ≥ size then size - 1 else len
    (len, copyEnd dst 0 src copy)
  else (len, dst)

/-- `strlcat`: what it returns, and the destination. -/
def strlcat (dst : List UInt8) (src : CStr) (size : ℕ) : ℕ × List UInt8 :=
  let dlen := vstrlen (.ofBytes dst)
  let slen := vstrlen src
  if dlen < size then
    let copy := if slen ≥ size - dlen then size - dlen - 1 else slen
    (dlen + slen, copyEnd dst dlen src copy)
  else (dlen + slen, dst)

/-- One `strlcat` for each string: what they return, and the array then. -/
def strlcats (n : ℕ) : List UInt8 → List CStr → List ℕ × List UInt8
  | dst, [] => ([], dst)
  | dst, s :: ss =>
    let r := strlcats n (strlcat dst s n).2 ss
    ((strlcat dst s n).1 :: r.1, r.2)

/-- `strlcpy` of the first string, and `strlcat` of each further one. -/
def appends (n : ℕ) (dst : List UInt8) (s : CStr) (ss : List CStr) : List ℕ × List UInt8 :=
  let r := strlcats n (strlcpy dst s n).2 ss
  ((strlcpy dst s n).1 :: r.1, r.2)

/-- The array `out` holds the text `t` as far as it fits, and is `dst` from place `n` on. -/
structure Holds (n : ℕ) (dst out t : List UInt8) : Prop where
  noNul : 0 ∉ t
  text : ∃ rest, out = t.take (n - 1) ++ 0 :: rest
  behind : out.drop n = dst.drop n
  length : out.length = dst.length

theorem Holds.vstrlen_eq {out t : List UInt8} (h : Holds n dst out t) :
    vstrlen (.ofBytes out) = (t.take (n - 1)).length := by
  obtain ⟨rest, rfl⟩ := h.text
  have hall : ∀ c ∈ t.take (n - 1), decide (c ≠ 0) = true := fun c hc => by
    simpa using fun h0 : c = 0 => h.noNul (h0 ▸ mem_of_mem_take hc)
  change (takeWhile _ _).length = _
  rw [takeWhile_append_of_pos hall, takeWhile_cons_of_neg (by simp), append_nil]

/-- Writing a source behind a text that fits appends it, as far as it fits. -/
theorem holds_copyEnd {out t : List UInt8} {s : CStr} {i : ℕ} (hn : 0 < n) (hdst : n ≤ dst.length)
    (hb : out.drop n = dst.drop n) (hl : out.length = dst.length) (ht0 : 0 ∉ t)
    (hi : i = (t.take (n - 1)).length) (ht : out.take i = t.take (n - 1)) :
    Holds n dst (copyEnd out i s (if vstrlen s ≥ n - i then n - i - 1 else vstrlen s))
      (t ++ s.bytes) := by
  have hlt : i < n := by rw [hi, length_take]; omega
  -- Both functions copy as much of the source as leaves a place for the terminator.
  have hcopy : (if vstrlen s ≥ n - i then n - i - 1 else vstrlen s)
      = min (n - 1 - i) s.bytes.length := by unfold vstrlen; split <;> omega
  rw [hcopy]
  set copy := min (n - 1 - i) s.bytes.length
  have hnew : (t ++ s.bytes).take (n - 1) = out.take i ++ s.bytes.take copy := by
    rw [take_append, ht, append_right_inj, List.take_eq_take_iff]
    rw [length_take] at hi
    omega
  have hlen : (out.take i ++ s.bytes.take copy).length = i + copy := by
    simp only [length_append, length_take]
    omega
  have heq : copyEnd out i s copy
      = out.take i ++ s.bytes.take copy ++ 0 :: out.drop (i + copy + 1) := by
    rw [copyEnd, set_append_right _ _ hlen.le, hlen, Nat.sub_self,
      drop_eq_getElem_cons (by omega), set_cons_zero]
  refine ⟨fun h => (mem_append.1 h).elim ht0 s.noNul, ⟨_, hnew ▸ heq⟩, ?_, ?_⟩
  · rw [heq, drop_append, drop_of_length_le (by omega), hlen, nil_append, ← hb,
      show n - (i + copy) = (n - (i + copy) - 1) + 1 by omega, drop_succ_cons, drop_drop]
    congr 1
    omega
  · rw [copyEnd, length_set, length_append, hlen, length_drop]
    omega

theorem strlcpy_holds (hn : 0 < n) (hdst : n ≤ dst.length) (s : CStr) :
    Holds n dst (strlcpy dst s n).2 s.bytes := by
  have h := holds_copyEnd (s := s) hn hdst rfl rfl not_mem_nil rfl (by simp)
  simpa [strlcpy, hn.ne'] using h

theorem strlcat_holds {out t : List UInt8} (hn : 0 < n) (hdst : n ≤ dst.length)
    (h : Holds n dst out t) (s : CStr) : Holds n dst (strlcat out s n).2 (t ++ s.bytes) := by
  have hlt : vstrlen (.ofBytes out) < n := by rw [h.vstrlen_eq, length_take]; omega
  simp only [strlcat, if_pos hlt]
  refine holds_copyEnd hn hdst h.behind h.length h.noNul h.vstrlen_eq ?_
  obtain ⟨rest, hrest⟩ := h.text
  rw [h.vstrlen_eq, hrest, take_left]

theorem strlcats_holds (hn : 0 < n) (hdst : n ≤ dst.length) (ss : List CStr) :
    ∀ {out t : List UInt8}, Holds n dst out t →
      Holds n dst (strlcats n out ss).2 (t ++ ss.flatMap CStr.bytes) := by
  induction ss with
  | nil => exact fun h => by simpa [strlcats] using h
  | cons s ss ih =>
    intro out t h
    rw [flatMap_cons, ← append_assoc]
    exact ih (strlcat_holds hn hdst h s)

/-- No call has returned `n` or more exactly as long as the whole text fits. -/
theorem strlcats_lt_iff (hn : 0 < n) (hdst : n ≤ dst.length) (ss : List CStr) :
    ∀ {out t : List UInt8}, Holds n dst out t → ∀ i,
      (t.length < n ∧ ∀ x ∈ (strlcats n out ss).1.take i, x < n) ↔
        (t ++ (ss.take i).flatMap CStr.bytes).length < n := by
  induction ss with
  | nil => simp [strlcats]
  | cons s ss ih =>
    intro out t h i
    cases i with
    | zero => simp
    | succ i =>
      have hret : (strlcat out s n).1 = min (n - 1) t.length + vstrlen s := by
        simp only [strlcat, apply_ite Prod.fst, ite_self, h.vstrlen_eq, length_take]
      rw [take_succ_cons, flatMap_cons, ← append_assoc, ← ih (strlcat_holds hn hdst h s) i]
      simp only [strlcats, take_succ_cons, forall_mem_cons, hret, length_append, ← and_assoc, vstrlen]
      refine and_congr_left' ?_
      omega

/-- After `strlcpy` and any number of `strlcat` calls the array holds the first `n - 1` characters of
the concatenation and a terminator, what lies from place `n` on is as before, and the calls so far
have all returned less than `n` exactly while the concatenation so far fits. -/
theorem appends_truncate (hn : 1 ≤ n) (hdst : n ≤ dst.length) (s : CStr) (ss : List CStr) :
    (∃ rest, (appends n dst s ss).2 = ((s :: ss).flatMap CStr.bytes).take (n - 1) ++ 0 :: rest) ∧
    (appends n dst s ss).2.drop n = dst.drop n ∧
    (appends n dst s ss).2.length = dst.length ∧
    ∀ i ≤ ss.length, (∀ x ∈ (appends n dst s ss).1.take (i + 1), x < n) ↔
      (((s :: ss).take (i + 1)).flatMap CStr.bytes).length < n := by
  have hcpy := strlcpy_holds hn hdst s
  have h := strlcats_holds hn hdst ss hcpy
  refine ⟨h.text, h.behind, h.length, fun i _ => ?_⟩
  have hret : (strlcpy dst s n).1 = s.bytes.length := by
    simp only [strlcpy, apply_ite Prod.fst, ite_self, vstrlen]
  rw [take_succ_cons, flatMap_cons, ← strlcats_lt_iff hn hdst ss hcpy i]
  simp only [appends, take_succ_cons, forall_mem_cons, hret]

theorem appends_truncate_two :
    (∀ x ∈ (appends 4 (replicate 6 7) (str "ab") [str "cd"]).1.take 2, x < 4) ↔
      (([str "ab", str "cd"].take 2).flatMap CStr.bytes).length < 4 :=
  (appends_truncate (by decide) (by decide) (str "ab") [str "cd"]).2.2.2 1 le_rfl

end Vlibc.Bounded
