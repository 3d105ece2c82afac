import Vlibc.Regex.Meaning

/-!
# What `regexec` reports

`regexec` goes through the alternatives and takes the first that matches (`regexec_eq`). An
alternative is tried at one index after the other, so that its match is at the least index
(`firstIndex`); if there is none below `2 ^ 31`, and the subject goes on, the index overflows. An
alternative that begins with `^` goes on counting from what the ones before have left.
-/

namespace Vlibc.Regex

open List Option
open Printf (INT_MAX)

/-! ## One alternative -/

/-- The length that is counted by the match at `i`. -/
def lenAt (es : List (Elem UInt8)) (i : ℕ) (text : List UInt8) : ℤ :=
  (firstLength es i text).getD 0 + extra es 0 i text

/-- The counter after the alternative `pat`, if it was `len` before. -/
def lenAfter (string : List UInt8) (pat : List Token) (len : ℤ) : ℤ :=
  match pat with
  | .begin :: pat => len + lenAt (elems pat) 0 string
  | pat =>
    match firstIndex (elems pat) 0 string with
    | some i => lenAt (elems pat) i (string.drop i)
    | none => len

theorem lenAfter_of_ne_begin (string : List UInt8) {pat : List Token}
    (hbegin : ∀ pat', pat ≠ .begin :: pat') (len : ℤ) : lenAfter string pat len =
      match firstIndex (elems pat) 0 string with
      | some i => lenAt (elems pat) i (string.drop i)
      | none => len := by
  rcases pat with _ | ⟨t, pat⟩
  · rfl
  · cases t with
    | begin => exact absurd rfl (hbegin pat)
    | _ => rfl

/-- Captures as an array of the length that a pattern with `nsub` groups has. -/
def CapsFit (nsub : ℕ) (caps : Option (List Regmatch)) : Prop :=
  caps.map List.length = (clearCaps nsub).map List.length

theorem length_of_capsFit {nsub : ℕ} {caps : Option (List Regmatch)} (hcaps : CapsFit nsub caps) :
    ((caps.getD []).drop 1).length = nsub := by
  rw [CapsFit, clearCaps] at hcaps
  split_ifs at hcaps with hnsub
  · rw [map_eq_none_iff.1 hcaps, hnsub]
    rfl
  · obtain ⟨caps, rfl, hlength⟩ := map_eq_some_iff.1 hcaps
    rw [getD_some, length_drop, hlength, length_replicate]
    rfl

section Alternatives

variable (string : List UInt8) {nsub : ℕ} {pat : List Token}

theorem search_of_match {r : Bool × Shared} {text : List UInt8} {idx : ℕ}
    (h : matchpattern string pat 0 text idx ⟨0, clearCaps nsub⟩ = .ok r) (hr : r.1 = true) :
    search string nsub pat text idx = .ok (some (idx, r.2.ml), r.2.caps) := by
  rw [search, h]
  simp only [Bind.bind, Except.bind, hr, if_true]
  rfl

theorem search_cons {r : Bool × Shared} {c : UInt8} {text : List UInt8} {idx : ℕ}
    (h : matchpattern string pat 0 (c :: text) idx ⟨0, clearCaps nsub⟩ = .ok r) (hr : r.1 = false) :
    search string nsub pat (c :: text) idx =
      if (idx : ℤ) < INT_MAX then search string nsub pat text (idx + 1) else .error .overflow := by
  rw [search, h]
  -- the bound must not be evaluated
  generalize INT_MAX = bound
  simp only [Bind.bind, Except.bind, hr, Bool.false_eq_true, if_false]

theorem search_nil {r : Bool × Shared} {idx : ℕ}
    (h : matchpattern string pat 0 [] idx ⟨0, clearCaps nsub⟩ = .ok r) (hr : r.1 = false) :
    search string nsub pat [] idx = .ok (none, r.2.caps) := by
  rw [search, h]
  simp only [Bind.bind, Except.bind, hr, Bool.false_eq_true, if_false]
  rfl

/-- What the matcher answers at one index of the search. -/
theorem matchpattern_at (h : Answers ((clearCaps nsub).map List.length) string pat)
    (text : List UInt8) (idx : ℕ) : ∃ caps, CapsFit nsub caps ∧
      matchpattern string pat 0 text idx ⟨0, clearCaps nsub⟩ = .ok
        ((firstLength (elems pat) idx text).isSome, ⟨lenAt (elems pat) idx text, caps⟩) := by
  obtain ⟨caps, hcaps, hrun⟩ := h text idx 0 0 (clearCaps nsub) rfl
  refine ⟨caps, hcaps, ?_⟩
  rw [show (⟨0, clearCaps nsub⟩ : Shared) = ⟨0 + (0 : ℕ), clearCaps nsub⟩ by simp, hrun]
  cases hn : firstLength (elems pat) idx text with
  | some n => simp [report, lenAt, hn]
  | none => simp [report, lenAt, hn]

/-- The index at which the search from `idx` on ends, if it is an `int`. -/
def stopsAt (es : List (Elem UInt8)) (idx : ℕ) (text : List UInt8) : Except Fault (Option ℕ) :=
  match firstIndex es idx text with
  | some i => if (i : ℤ) ≤ INT_MAX then .ok (some i) else .error .overflow
  | none => if ((idx + text.length : ℕ) : ℤ) ≤ INT_MAX then .ok none else .error .overflow

theorem firstIndex_of_stopsAt {es : List (Elem UInt8)} {idx : ℕ} {text : List UInt8} {r : Option ℕ}
    (h : stopsAt es idx text = .ok r) : firstIndex es idx text = r := by
  rw [stopsAt] at h
  cases hfirst : firstIndex es idx text with
  | none =>
    rw [hfirst] at h
    dsimp only at h
    split_ifs at h
    exact Except.ok.inj h
  | some i =>
    rw [hfirst] at h
    dsimp only at h
    split_ifs at h
    exact Except.ok.inj h

theorem stopsAt_of_isSome {es : List (Elem UInt8)} {idx : ℕ} {text : List UInt8}
    (hidx : (idx : ℤ) ≤ INT_MAX) (hsome : (firstLength es idx text).isSome) :
    stopsAt es idx text = .ok (some idx) := by
  have hfirst : firstIndex es idx text = some idx := by cases text <;> rw [firstIndex, if_pos hsome]
  simp only [stopsAt, hfirst, if_pos hidx]

theorem stopsAt_nil {es : List (Elem UInt8)} {idx : ℕ} (hidx : (idx : ℤ) ≤ INT_MAX)
    (hnone : ¬(firstLength es idx []).isSome) : stopsAt es idx [] = .ok none := by
  simp only [stopsAt, firstIndex, hnone, length_nil, add_zero, if_pos hidx]
  rfl

theorem stopsAt_cons {es : List (Elem UInt8)} {idx : ℕ} {c : UInt8} {text : List UInt8}
    (hnone : ¬(firstLength es idx (c :: text)).isSome) : stopsAt es idx (c :: text) =
      if (idx : ℤ) < INT_MAX then stopsAt es (idx + 1) text else .error .overflow := by
  rw [stopsAt, stopsAt, firstIndex, if_neg hnone, length_cons, Nat.add_right_comm idx 1,
    ← Nat.add_assoc idx]
  cases hfirst : firstIndex es (idx + 1) text with
  | none =>
    dsimp only
    split_ifs <;> first | rfl | omega
  | some i =>
    have hle : idx + 1 ≤ i := (isLeast_of_firstIndex hfirst).1.1
    dsimp only
    split_ifs <;> first | rfl | omega

/-- **The search** ends at the first index, by induction on the rest of the subject. -/
theorem search_eq (h : Answers ((clearCaps nsub).map List.length) string pat) (text : List UInt8)
    (idx : ℕ) (hidx : (idx : ℤ) ≤ INT_MAX) :
    ∃ caps, CapsFit nsub caps ∧ search string nsub pat text idx =
      (stopsAt (elems pat) idx text).map fun r =>
        (r.map fun i => (i, lenAt (elems pat) i (text.drop (i - idx))), caps) := by
  induction text generalizing idx with
  | nil =>
    obtain ⟨caps, hcaps, hrun⟩ := matchpattern_at string h [] idx
    refine ⟨caps, hcaps, ?_⟩
    by_cases hsome : (firstLength (elems pat) idx []).isSome
    · rw [search_of_match string hrun hsome, stopsAt_of_isSome hidx hsome]
      simp [Except.map]
    · rw [search_nil string hrun (Bool.not_eq_true _ ▸ hsome), stopsAt_nil hidx hsome]
      rfl
  | cons c text ih =>
    obtain ⟨caps, hcaps, hrun⟩ := matchpattern_at string h (c :: text) idx
    by_cases hsome : (firstLength (elems pat) idx (c :: text)).isSome
    · refine ⟨caps, hcaps, ?_⟩
      rw [search_of_match string hrun hsome, stopsAt_of_isSome hidx hsome]
      simp [Except.map]
    rw [search_cons string hrun (Bool.not_eq_true _ ▸ hsome), stopsAt_cons hsome]
    split_ifs with hlt
    · obtain ⟨caps', hcaps', hrest⟩ := ih (idx + 1) (by push_cast; omega)
      refine ⟨caps', hcaps', hrest.trans ?_⟩
      cases hstop : stopsAt (elems pat) (idx + 1) text with
      | error f => rfl
      | ok r =>
        cases r with
        | none => rfl
        | some i =>
          have hle : idx + 1 ≤ i := (isLeast_of_firstIndex (firstIndex_of_stopsAt hstop)).1.1
          rw [Except.map, Except.map, map_some, map_some, show i - idx = (i - (idx + 1)) + 1 by omega,
            drop_succ_cons]
    · exact ⟨caps, hcaps, rfl⟩

theorem tryAlt_begin (h : Answers ((clearCaps nsub).map List.length) string pat) (st : Found)
    (hcaps : CapsFit nsub st.caps) : ∃ caps, CapsFit nsub caps ∧
      tryAlt string nsub (.begin :: pat) st =
        .ok ⟨if (firstLength (elems pat) 0 string).isSome then 0 else st.pos,
          st.len + lenAt (elems pat) 0 string, caps⟩ := by
  obtain ⟨caps, hcaps', hrun⟩ := h string 0 st.len 0 st.caps hcaps
  refine ⟨caps, hcaps', ?_⟩
  rw [Nat.cast_zero, add_zero] at hrun
  simp only [tryAlt, hrun, Bind.bind, Except.bind, Pure.pure, Except.pure]
  cases hn : firstLength (elems pat) 0 string with
  | none => simp [report, lenAt, hn]
  | some n => simp [report, lenAt, hn, add_assoc]

/-- Where an alternative is found. -/
def foundAt (string : List UInt8) (pat : List Token) : Except Fault (Option ℕ) :=
  match pat with
  | .begin :: pat => .ok (firstIndex (elems (.begin :: pat)) 0 string)
  | pat => stopsAt (elems pat) 0 string

theorem foundAt_of_ne_begin (hbegin : ∀ pat', pat ≠ .begin :: pat') :
    foundAt string pat = stopsAt (elems pat) 0 string := by
  rcases pat with _ | ⟨t, pat⟩
  · rfl
  · cases t with
    | begin => exact absurd rfl (hbegin pat)
    | _ => rfl

theorem tryAlt_eq (h : ∀ t ∈ pat, t.Fits ((clearCaps nsub).map List.length)) (st : Found)
    (hcaps : CapsFit nsub st.caps) : ∃ caps, CapsFit nsub caps ∧ tryAlt string nsub pat st =
      (foundAt string pat).map fun r =>
        ⟨(r.map fun i : ℕ => (i : ℤ)).getD st.pos, lenAfter string pat st.len, caps⟩ := by
  by_cases hbegin : ∃ pat', pat = .begin :: pat'
  · obtain ⟨pat, rfl⟩ := hbegin
    obtain ⟨caps, hcaps', hrun⟩ :=
      tryAlt_begin string (answers_of_fits fun t ht => h t (.tail _ ht)) st hcaps
    refine ⟨caps, hcaps', hrun.trans ?_⟩
    rw [foundAt, elems, firstIndex_bol, lenAfter]
    cases firstLength (elems pat) 0 string with
    | none => rfl
    | some n => rfl
  · obtain ⟨caps, hcaps', hrun⟩ := search_eq string (answers_of_fits h) string 0 (by decide)
    have hknown : ¬ ∃ pat', pat = .indeterminate :: pat' := by
      rintro ⟨pat', rfl⟩
      exact h _ (.head _)
    have hne (pat' : List Token) : pat ≠ .begin :: pat' := fun h => hbegin ⟨pat', h⟩
    refine ⟨caps, hcaps', ?_⟩
    rw [foundAt_of_ne_begin string hne, lenAfter_of_ne_begin string hne]
    cases hstop : stopsAt (elems pat) 0 string with
    | error f =>
      rw [hstop] at hrun
      exact tryAlt_of_error hbegin hknown hrun st
    | ok r =>
      rw [hstop] at hrun
      rw [tryAlt_of_search hbegin hknown hrun, firstIndex_of_stopsAt hstop]
      cases r with
      | none => rfl
      | some i => rfl

end Alternatives

/-- Where the first alternative is found that matches, and the counter then. -/
def attempts (string : List UInt8) : List (List Token) → (len : ℤ) → Except Fault (Option (ℕ × ℤ))
  | [], _ => .ok none
  | pat :: alts, len => do
    match ← foundAt string pat with
    | some i => return some (i, lenAfter string pat len)
    | none => attempts string alts (lenAfter string pat len)

section Regexec

variable (string : List UInt8) {nsub : ℕ} {alts : List (List Token)}

/-- **The loop over the alternatives**, by induction on them. -/
theorem tryAlts_eq
    (h : ∀ pat ∈ alts, ∀ t ∈ pat, t.Fits ((clearCaps nsub).map List.length)) (st : Found)
    (hpos : st.pos < 0) (hcaps : CapsFit nsub st.caps) :
    match attempts string alts st.len with
    | .ok (some r) => ∃ caps, CapsFit nsub caps ∧ tryAlts string nsub alts st = .ok ⟨r.1, r.2, caps⟩
    | .ok none => ∃ found, found.pos < 0 ∧ tryAlts string nsub alts st = .ok found
    | .error f => tryAlts string nsub alts st = .error f := by
  induction alts generalizing st with
  | nil => exact ⟨st, hpos, rfl⟩
  | cons pat alts ih =>
    obtain ⟨caps, hcaps', hrun⟩ := tryAlt_eq string (h pat (.head _)) st hcaps
    have hrest := ih (fun pat' hpat' => h pat' (.tail _ hpat')) ⟨st.pos, lenAfter string pat st.len, caps⟩
      hpos hcaps'
    rw [attempts, tryAlts, if_pos hpos, hrun]
    cases hfound : foundAt string pat with
    | error f => rfl
    | ok r =>
      cases r with
      | none => exact hrest
      | some i =>
        refine ⟨caps, hcaps', ?_⟩
        cases alts with
        | nil => rfl
        | cons pat' alts =>
          have hnonneg : ¬ (i : ℤ) < 0 := not_lt.2 (Int.natCast_nonneg i)
          simp only [Except.map, Bind.bind, Except.bind, map_some, getD_some, tryAlts, hnonneg, if_false]

/-- **What `regexec` reports**: the first alternative that is found. -/
theorem regexec_eq (preg : Preg)
    (h : ∀ pat ∈ preg.alts, ∀ t ∈ pat, t.Fits ((clearCaps preg.nsub).map List.length))
    (nmatch : ℕ) : ∃ caps, caps.length = preg.nsub ∧ regexec preg string nmatch =
      match attempts string preg.alts 0 with
      | .ok (some r) =>
        if 0 < nmatch ∧ INT_MAX < r.1 + r.2 then .error .overflow
        else .ok ⟨0, (⟨r.1, r.1 + r.2⟩ :: caps).take nmatch⟩
      | .ok none => .ok ⟨REG_NOMATCH, []⟩
      | .error f => .error f := by
  have hrun := tryAlts_eq string h ⟨-1, 0, clearCaps preg.nsub⟩ (by norm_num) rfl
  cases hattempts : attempts string preg.alts 0 with
  | error f =>
    simp only [hattempts] at hrun
    exact ⟨List.replicate preg.nsub ⟨0, 0⟩, length_replicate, by rw [regexec, hrun]; rfl⟩
  | ok r =>
    cases r with
    | none =>
      simp only [hattempts] at hrun
      obtain ⟨found, hneg, hrun⟩ := hrun
      refine ⟨List.replicate preg.nsub ⟨0, 0⟩, length_replicate, ?_⟩
      simp [regexec, hrun, Bind.bind, Except.bind, Pure.pure, Except.pure, hneg]
    | some r =>
      simp only [hattempts] at hrun
      obtain ⟨caps, hcaps, hrun⟩ := hrun
      refine ⟨(caps.getD []).drop 1, length_of_capsFit hcaps, ?_⟩
      have hnonneg : ¬ (r.1 : ℤ) < 0 := not_lt.2 (Int.natCast_nonneg r.1)
      simp only [regexec, hrun, Bind.bind, Except.bind, Pure.pure, Except.pure, hnonneg, if_false]

end Regexec

end Vlibc.Regex
