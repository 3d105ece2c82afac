import Vlibc.Regex.Translate

/-!
# Matching a pattern without groups

What `regcomp` and `regexec` together report for a pattern of `Ere` (`execute_eq`): the first
alternative in the order of the pattern that matches anywhere (`FirstFound`), with the length that
was counted, unless an `int` overflows before that. From this follows when they are right about
whether there is a match, about the part of the subject that is reported (`span_matches_iff`), and
about its index (`rm_so_isLeast_iff`).
-/

namespace Vlibc.Regex

open List Option Branch
open Printf (INT_MAX)

/-- `regcomp`, and `regexec` if a pattern was compiled. -/
def execute (junk : ℕ → Junk) (pattern string : List UInt8) (nmatch : ℕ) :
    Except Fault (Option Executed) := do
  match ← regcomp junk pattern with
  | none => return none
  | some preg =>
    let r ← regexec preg string nmatch
    return some r

/-! ## The alternative that is found -/

/-- The indices at which the alternative matches some part of the subject. -/
def Branch.indices (b : Branch) (before : UInt8) (s : List UInt8) : Set ℕ :=
  {i | ∃ j, b.Matches before s i j}

theorem Branch.indices_eq (b : Branch) (before : UInt8) (s : List UInt8) :
    b.indices before s = matchIndices (b.elems before) 0 s := by
  ext i
  exact (b.mem_matchIndices before s).symm

theorem Branch.le_length_of_mem_indices {b : Branch} {before : UInt8} {s : List UInt8} {i : ℕ}
    (hi : i ∈ b.indices before s) : i ≤ s.length := by
  obtain ⟨j, hj⟩ := hi
  exact hj.1.trans hj.2.1

/-- The search for the alternative goes on beyond the largest index: the alternative does not begin
with `^` and has no index below `2 ^ 31`, in a subject that is as long as that. -/
def Branch.Lost (b : Branch) (before : UInt8) (s : List UInt8) : Prop :=
  b.bol = false ∧ 2 ^ 31 ≤ s.length ∧ ∀ i ∈ b.indices before s, 2 ^ 31 ≤ i

/-- The alternatives before the one with number `n` match nowhere; the first of all has number `a`
among those of the pattern. -/
def NoneBefore (junk : ℕ → Junk) (s : List UInt8) (a : ℕ) (branches : List Branch) (n : ℕ) : Prop :=
  ∀ m < n, ∀ b, branches[m]? = some b → b.indices (junk (a + m)).ccl s = ∅

/-- The alternative `b`, with number `n` from `a` on, is the first that matches anywhere, and `i` is
its first index. -/
structure FirstFound (junk : ℕ → Junk) (s : List UInt8) (a : ℕ) (branches : List Branch) (n : ℕ)
    (b : Branch) (i : ℕ) : Prop where
  branch : branches[n]? = some b
  least : IsLeast (b.indices (junk (a + n)).ccl s) i
  earlier : NoneBefore junk s a branches n

/-- The index overflows: in the search for some alternative, if none before it matches. -/
def Overflows (junk : ℕ → Junk) (s : List UInt8) (a : ℕ) (branches : List Branch) : Prop :=
  ∃ n b, branches[n]? = some b ∧ NoneBefore junk s a branches n ∧ b.Lost (junk (a + n)).ccl s

theorem not_overflows_of_length_lt {junk : ℕ → Junk} {s : List UInt8} {a : ℕ}
    {branches : List Branch} (h : s.length < 2 ^ 31) : ¬Overflows junk s a branches :=
  fun ⟨_, _, _, _, _, hlen, _⟩ => absurd hlen (not_le.2 h)

/-- The counter before the alternative with number `n`. -/
def carried (junk : ℕ → Junk) (s : List UInt8) : (a : ℕ) → List Branch → (len : ℤ) → (n : ℕ) → ℤ
  | _, [], len, _ => len
  | _, _, len, 0 => len
  | a, b :: branches, len, n + 1 =>
    carried junk s (a + 1) branches (lenAfter s (b.tokens (junk a)) len) n

section FirstFound

variable {junk : ℕ → Junk} {s : List UInt8} {a : ℕ} {b : Branch} {branches : List Branch}

theorem natCast_le_INT_MAX_iff (i : ℕ) : (i : ℤ) ≤ INT_MAX ↔ i < 2 ^ 31 := by
  rw [INT_MAX]
  omega

theorem Branch.tokens_of_bol (b : Branch) (junk : Junk) (h : b.bol = true) :
    ∃ rest, b.tokens junk = .begin :: rest := by
  rw [tokens, h]
  exact ⟨_, rfl⟩

theorem Branch.tokens_ne_begin (b : Branch) (junk : Junk) (h : b.bol = false) (pat : List Token) :
    b.tokens junk ≠ .begin :: pat := by
  intro hpat
  have helems := b.elems_tokens junk
  rw [hpat, Regex.elems, elems, anchored, h] at helems
  cases hitems : accepted junk.ccl b.items with
  | nil => cases heol : b.eol <;> simp [hitems, heol, itemElems] at helems
  | cons i items => simp [hitems, itemElems] at helems

/-- **One alternative** is found at its first index, if the index does not overflow. -/
theorem Branch.foundAt_tokens (b : Branch) (junk : Junk) (s : List UInt8)
    (h : ¬b.Lost junk.ccl s) :
    foundAt s (b.tokens junk) = .ok (firstIndex (b.elems junk.ccl) 0 s) := by
  cases hbol : b.bol with
  | true =>
    obtain ⟨rest, hrest⟩ := b.tokens_of_bol junk hbol
    rw [← b.elems_tokens, hrest, foundAt]
  | false =>
    rw [foundAt_of_ne_begin s (b.tokens_ne_begin junk hbol), b.elems_tokens, stopsAt, zero_add]
    have hshort (hall : ∀ i ∈ b.indices junk.ccl s, 2 ^ 31 ≤ i) : s.length < 2 ^ 31 :=
      not_le.1 fun hlen => h ⟨hbol, hlen, hall⟩
    cases hfirst : firstIndex (b.elems junk.ccl) 0 s with
    | none =>
      rw [b.indices_eq, matchIndices_of_firstIndex hfirst] at hshort
      exact if_pos ((natCast_le_INT_MAX_iff _).2 (hshort fun i hi => hi.elim))
    | some i =>
      have hleast := isLeast_of_firstIndex hfirst
      rw [← b.indices_eq] at hleast
      refine if_pos ((natCast_le_INT_MAX_iff i).2 (not_le.1 fun hi => ?_))
      have hlen := hshort fun i' hi' => hi.trans (hleast.2 hi')
      have := le_length_of_mem_indices hleast.1
      omega

theorem Branch.foundAt_of_lost (b : Branch) (junk : Junk) (s : List UInt8) (h : b.Lost junk.ccl s) :
    foundAt s (b.tokens junk) = .error .overflow := by
  obtain ⟨hbol, hlen, hall⟩ := h
  rw [foundAt_of_ne_begin s (b.tokens_ne_begin junk hbol), b.elems_tokens, stopsAt, zero_add]
  cases hfirst : firstIndex (b.elems junk.ccl) 0 s with
  | none => exact if_neg (by rw [natCast_le_INT_MAX_iff]; omega)
  | some i =>
    have hleast := isLeast_of_firstIndex hfirst
    rw [← b.indices_eq] at hleast
    exact if_neg (by rw [natCast_le_INT_MAX_iff]; exact not_lt.2 (hall i hleast.1))

theorem noneBefore_succ_iff (hnone : b.indices (junk a).ccl s = ∅) {n : ℕ} :
    NoneBefore junk s a (b :: branches) (n + 1) ↔ NoneBefore junk s (a + 1) branches n := by
  have hadd (m : ℕ) : a + (m + 1) = a + 1 + m := by omega
  constructor
  · intro h m hm b' hb'
    exact hadd m ▸ h (m + 1) (by omega) b' hb'
  · intro h m hm b' hb'
    cases m with
    | zero =>
      cases hb'
      exact hnone
    | succ m => exact hadd m ▸ h m (by omega) b' hb'

theorem firstFound_zero (branches : List Branch) {i : ℕ} (hi : firstIndex (b.elems (junk a).ccl) 0 s = some i) :
    FirstFound junk s a (b :: branches) 0 b i where
  branch := rfl
  least := by
    rw [b.indices_eq]
    exact isLeast_of_firstIndex hi
  earlier := fun m hm => absurd hm (Nat.not_lt_zero m)

theorem firstFound_succ_iff (hnone : b.indices (junk a).ccl s = ∅) {n : ℕ} {b' : Branch} {i : ℕ} :
    FirstFound junk s a (b :: branches) (n + 1) b' i ↔ FirstFound junk s (a + 1) branches n b' i := by
  have hadd : a + (n + 1) = a + 1 + n := by omega
  constructor
  · rintro ⟨hbranch, hleast, hearlier⟩
    exact ⟨hbranch, hadd ▸ hleast, (noneBefore_succ_iff hnone).1 hearlier⟩
  · rintro ⟨hbranch, hleast, hearlier⟩
    exact ⟨hbranch, hadd ▸ hleast, (noneBefore_succ_iff hnone).2 hearlier⟩

theorem overflows_cons_iff (branches : List Branch) (hnone : b.indices (junk a).ccl s = ∅)
    (hlost : ¬b.Lost (junk a).ccl s) :
    Overflows junk s a (b :: branches) ↔ Overflows junk s (a + 1) branches := by
  have hadd (n : ℕ) : a + (n + 1) = a + 1 + n := by omega
  constructor
  · rintro ⟨n, b', hbranch, hbefore, hb'⟩
    cases n with
    | zero =>
      cases hbranch
      exact absurd hb' hlost
    | succ n => exact ⟨n, b', hbranch, (noneBefore_succ_iff hnone).1 hbefore, hadd n ▸ hb'⟩
  · rintro ⟨n, b', hbranch, hbefore, hb'⟩
    exact ⟨n + 1, b', hbranch, (noneBefore_succ_iff hnone).2 hbefore, hadd n ▸ hb'⟩

theorem not_overflows_of_found {i : ℕ} (hi : i ∈ b.indices (junk a).ccl s)
    (hlost : ¬b.Lost (junk a).ccl s) : ¬Overflows junk s a (b :: branches) := by
  rintro ⟨n, b', hbranch, hbefore, hb'⟩
  cases n with
  | zero =>
    cases hbranch
    exact hlost hb'
  | succ n => exact (Set.ext_iff.1 (hbefore 0 (Nat.succ_pos n) b rfl) i).1 hi

/-- What the loop over the alternatives answers: the first alternative that matches anywhere, none,
or that the index overflows. -/
def Stops (junk : ℕ → Junk) (s : List UInt8) (a : ℕ) (branches : List Branch) (len : ℤ) :
    Except Fault (Option (ℕ × ℤ)) → Prop
  | .ok (some r) => ¬Overflows junk s a branches ∧ ∃ n b i, FirstFound junk s a branches n b i ∧
      r = (i, lenAfter s (b.tokens (junk (a + n))) (carried junk s a branches len n))
  | .ok none => ¬Overflows junk s a branches ∧ ∀ n b i, ¬FirstFound junk s a branches n b i
  | .error f => f = .overflow ∧ Overflows junk s a branches

theorem Stops.cons (hnone : b.indices (junk a).ccl s = ∅) (hlost : ¬b.Lost (junk a).ccl s) {len : ℤ}
    {r : Except Fault (Option (ℕ × ℤ))}
    (h : Stops junk s (a + 1) branches (lenAfter s (b.tokens (junk a)) len) r) :
    Stops junk s a (b :: branches) len r := by
  have hoverflows := overflows_cons_iff branches hnone hlost
  rcases r with f | _ | r
  · exact ⟨h.1, hoverflows.2 h.2⟩
  · refine ⟨fun ho => h.1 (hoverflows.1 ho), fun n b' i hfound => ?_⟩
    cases n with
    | zero =>
      obtain rfl := some.inj hfound.branch
      exact (Set.ext_iff.1 hnone i).1 hfound.least.1
    | succ n => exact h.2 n b' i ((firstFound_succ_iff hnone).1 hfound)
  · obtain ⟨hok, n, b', i, hfound, rfl⟩ := h
    refine ⟨fun ho => hok (hoverflows.1 ho), n + 1, b', i, (firstFound_succ_iff hnone).2 hfound, ?_⟩
    rw [carried, show a + (n + 1) = a + 1 + n by omega]

/-- **The loop over the alternatives** stops at the first that is found. -/
theorem stops_attempts (junk : ℕ → Junk) (s : List UInt8) (a : ℕ) (branches : List Branch)
    (len : ℤ) : Stops junk s a branches len (attempts s (branchTokens junk a branches) len) := by
  induction branches generalizing a len with
  | nil => exact ⟨fun ⟨n, b, h, _⟩ => (nomatch h), fun n b i h => (nomatch h.branch)⟩
  | cons b branches ih =>
    rw [branchTokens, attempts]
    by_cases hlost : b.Lost (junk a).ccl s
    · rw [b.foundAt_of_lost (junk a) s hlost]
      exact ⟨rfl, 0, b, rfl, fun m hm => absurd hm (Nat.not_lt_zero m), hlost⟩
    rw [b.foundAt_tokens (junk a) s hlost]
    cases hfirst : firstIndex (b.elems (junk a).ccl) 0 s with
    | none =>
      refine .cons ?_ hlost (ih (a + 1) _)
      rw [b.indices_eq, matchIndices_of_firstIndex hfirst]
    | some i =>
      have hfound := firstFound_zero branches hfirst
      exact ⟨not_overflows_of_found hfound.least.1 hlost, 0, b, i, hfound, rfl⟩

end FirstFound

/-- What failed attempts have left in the counter, which was `len`, when the alternative is found at
`i`. Only an alternative with `^` goes on counting from `len`. -/
def Branch.left (b : Branch) (before : UInt8) (s : List UInt8) (len : ℤ) (i : ℕ) : ℤ :=
  (if b.bol then len else 0) + extra (b.elems before) 0 i (s.drop i)

theorem Branch.lenAfter_tokens (b : Branch) (junk : Junk) (s : List UInt8) (len : ℤ) {i : ℕ}
    (hi : firstIndex (b.elems junk.ccl) 0 s = some i) :
    lenAfter s (b.tokens junk) len =
      (firstLength (b.elems junk.ccl) i (s.drop i)).getD 0 + b.left junk.ccl s len i := by
  cases hbol : b.bol with
  | true =>
    obtain ⟨rest, hrest⟩ := b.tokens_of_bol junk hbol
    have helems : b.elems junk.ccl = .bol :: Regex.elems rest := by
      rw [← b.elems_tokens, hrest, Regex.elems]
    rw [helems, firstIndex_bol] at hi
    obtain ⟨-, -, rfl⟩ := map_eq_some_iff.1 hi
    rw [hrest, lenAfter, left, hbol, helems, drop_zero, firstLength, extra, lenAt]
    simp only [if_true]
    omega
  | false =>
    rw [lenAfter_of_ne_begin s (b.tokens_ne_begin junk hbol), b.elems_tokens, hi, left, hbol]
    simp [lenAt]

variable {s : List UInt8}

theorem FirstFound.firstIndex_eq {junk : ℕ → Junk} {a n i : ℕ} {b : Branch}
    {branches : List Branch} (h : FirstFound junk s a branches n b i) :
    firstIndex (b.elems (junk (a + n)).ccl) 0 s = some i := by
  rw [firstIndex_eq_some_iff, ← b.indices_eq]
  exact h.least

/-- The alternative with number `n` is found at `i`, and `len` is the length of its first match
there. -/
structure Report (junk : ℕ → Junk) (s : List UInt8) (e : Ere) where
  n : ℕ
  b : Branch
  i : ℕ
  len : ℕ
  found : FirstFound junk s 0 e.branches n b i
  length : firstLength (b.elems (junk n).ccl) i (s.drop i) = some len

namespace Report

variable {junk : ℕ → Junk} {e : Ere} (r : Report junk s e)

/-- What failed attempts have left in the counter. -/
def left : ℤ := r.b.left (junk r.n).ccl s (carried junk s 0 e.branches 0 r.n) r.i

theorem le_length : r.i + r.len ≤ s.length := by
  obtain ⟨j, hj⟩ := r.found.least.1
  have hle : r.i ≤ s.length := hj.1.trans hj.2.1
  have hspans := (spans_of_firstLength r.length).le_length
  rw [length_drop] at hspans
  omega

/-- `pmatch[0]`. -/
def span : Regmatch := ⟨r.i, r.i + (r.len + r.left)⟩

theorem lt_span_iff : INT_MAX < r.span.eo ↔ ¬r.i + (r.len + r.left) < 2 ^ 31 := by
  change INT_MAX < r.i + (r.len + r.left) ↔ _
  rw [INT_MAX]
  omega

end Report

theorem fits_branchTokens (junk : ℕ → Junk) (a : ℕ) (branches : List Branch) :
    ∀ pat ∈ branchTokens junk a branches, ∀ t ∈ pat, t.Fits none := by
  induction branches generalizing a with
  | nil => exact fun pat h => (nomatch h)
  | cons b branches ih =>
    intro pat hpat
    rcases mem_cons.1 hpat with rfl | hpat
    · exact b.fits_tokens (junk a)
    · exact ih (a + 1) pat hpat

theorem exists_report {junk : ℕ → Junk} {e : Ere} {n i : ℕ} {b : Branch}
    (h : FirstFound junk s 0 e.branches n b i) : ∃ r : Report junk s e, r.n = n ∧ r.b = b ∧ r.i = i := by
  have hfirst := h.firstIndex_eq
  rw [zero_add] at hfirst
  obtain ⟨len, hlen⟩ : ∃ len, firstLength (b.elems (junk n).ccl) i (s.drop i) = some len :=
    isSome_iff_exists.1 (firstLength_isSome_iff.2 (isLeast_of_firstIndex hfirst).1.2.2)
  exact ⟨⟨n, b, i, len, h, hlen⟩, rfl, rfl, rfl⟩

/-- **What is reported** for a pattern without groups. -/
theorem execute_eq (e : Ere) (hspills : e.spills = false) (junk : ℕ → Junk) (s : List UInt8)
    (nmatch : ℕ) :
    Overflows junk s 0 e.branches ∧ execute junk e.text s nmatch = .error .overflow ∨
      ¬Overflows junk s 0 e.branches ∧
        ((∃ r : Report junk s e, execute junk e.text s nmatch =
            if 0 < nmatch ∧ INT_MAX < r.span.eo then .error .overflow
            else .ok (some ⟨0, [r.span].take nmatch⟩)) ∨
          (∀ n b i, ¬FirstFound junk s 0 e.branches n b i) ∧
            execute junk e.text s nmatch = .ok (some ⟨REG_NOMATCH, []⟩)) := by
  obtain ⟨caps, hcaps, hexec⟩ := regexec_eq s ⟨branchTokens junk 0 e.branches, 0⟩
    (fits_branchTokens junk 0 e.branches) nmatch
  obtain rfl := length_eq_zero_iff.1 hcaps
  have hstops := stops_attempts junk s 0 e.branches 0
  simp only [execute, regcomp_eq e hspills, Bind.bind, Except.bind, hexec, Pure.pure, Except.pure]
  rcases hattempts : attempts s (branchTokens junk 0 e.branches) 0 with f | _ | p
  · rw [hattempts] at hstops
    obtain ⟨rfl, hoverflows⟩ := hstops
    exact .inl ⟨hoverflows, rfl⟩
  · rw [hattempts] at hstops
    exact .inr ⟨hstops.1, .inr ⟨hstops.2, rfl⟩⟩
  · rw [hattempts] at hstops
    obtain ⟨hok, n, b, i, hfound, rfl⟩ := hstops
    obtain ⟨r, rfl, rfl, rfl⟩ := exists_report hfound
    have hfirst := hfound.firstIndex_eq
    rw [zero_add] at hfirst ⊢
    refine .inr ⟨hok, .inl ⟨r, ?_⟩⟩
    dsimp only
    rw [r.b.lenAfter_tokens (junk r.n) s _ hfirst, r.length, getD_some]
    rw [show r.b.left (junk r.n).ccl s (carried junk s 0 e.branches 0 r.n) r.i = r.left from rfl,
      Report.span]
    split_ifs <;> rfl

section Found

variable {junk : ℕ → Junk} {a n n' i i' : ℕ} {b b' : Branch}
  {branches : List Branch}

theorem FirstFound.le (h : FirstFound junk s a branches n b i)
    (h' : FirstFound junk s a branches n' b' i') : n ≤ n' := by
  by_contra hlt
  exact (Set.ext_iff.1 (h.earlier n' (by omega) b' h'.branch) i').1 h'.least.1

theorem FirstFound.unique (h : FirstFound junk s a branches n b i)
    (h' : FirstFound junk s a branches n' b' i') : n = n' ∧ b = b' ∧ i = i' := by
  obtain rfl := le_antisymm (h.le h') (h'.le h)
  obtain rfl := some.inj (h.branch.symm.trans h'.branch)
  exact ⟨rfl, rfl, h.least.unique h'.least⟩

theorem Report.unique {e : Ere} (r r' : Report junk s e) : r = r' := by
  obtain ⟨n, b, i, len, hfound, hlen⟩ := r
  obtain ⟨n', b', i', len', hfound', hlen'⟩ := r'
  obtain ⟨rfl, rfl, rfl⟩ := hfound.unique hfound'
  obtain rfl := some.inj (hlen.symm.trans hlen')
  rfl

/-- The first alternative that matches at all is found at its least index. -/
theorem exists_firstFound_iff : (∃ n b i, FirstFound junk s a branches n b i) ↔
    ∃ n, ∃ b : Branch, ∃ i, branches[n]? = some b ∧ i ∈ b.indices (junk (a + n)).ccl s := by
  classical
  constructor
  · rintro ⟨n, b, i, h⟩
    exact ⟨n, b, i, h.branch, h.least.1⟩
  · intro h
    obtain ⟨b, i, hbranch, hi⟩ := Nat.find_spec h
    have hsome : ∃ i, i ∈ b.indices (junk (a + Nat.find h)).ccl s := ⟨i, hi⟩
    refine ⟨Nat.find h, b, Nat.find hsome, hbranch, ?_, fun m hm b' hb' => ?_⟩
    · exact ⟨Nat.find_spec hsome, fun i' hi' => Nat.find_min' hsome hi'⟩
    · exact Set.eq_empty_iff_forall_notMem.2 fun i' hi' => Nat.find_min h hm ⟨b', i', hb', hi'⟩

end Found

/-! ## Whether there is a match -/

/-- A bracket without class names that neither begins nor ends with `-`. -/
def Bracket.Plain (b : Bracket) : Prop :=
  (∀ k, .named k ∉ b.body) ∧ b.body.head? ≠ some (.lit '-'.toUInt8) ∧
    b.body.getLast? ≠ some (.lit '-'.toUInt8)

/-- An item whose bracket means what it says. -/
def Atom.Plain : Atom → Prop
  | bracket b => b.Plain
  | _ => True

/-- All items do. -/
def Ere.Plain (e : Ere) : Prop := ∀ b ∈ e.branches, ∀ i ∈ b.items, i.atom.Plain

theorem Ere.Plain.spills {e : Ere} (h : e.Plain) : e.spills = false := by
  refine List.any_eq_false.2 fun b hb => Bool.not_eq_true _ ▸ List.any_eq_false.2 fun i hi => ?_
  have hatom := h b hb i hi
  cases hi : i.atom with
  | bracket br =>
    rw [hi] at hatom
    simpa [Atom.spills] using spills_of_unnamed hatom.1
  | _ => simp [Atom.spills]

theorem Bracket.Plain.single_before {br : Bracket} (h : br.Plain) (before before' c : UInt8) :
    (br.single before).matchone c = (br.single before').matchone c := by
  have hhead : (bodyText br.body).head? ≠ some '-'.toUInt8 := by
    have hfirst := h.2.1
    cases hbody : br.body with
    | nil => exact (nomatch ·)
    | cons e body =>
      cases e with
      | lit d =>
        rw [hbody] at hfirst
        exact fun hd => hfirst (congrArg (fun d => some (ClassElem.lit d)) (some.inj hd))
      | esc d => simp +decide [bodyText, ClassElem.text]
      | named k => exact absurd (hbody ▸ .head _) (h.1 k)
  have hclass := matchclass_before (c := c) hhead before before'
  rw [Bracket.single, Bracket.single]
  cases br.inv with
  | true => exact congrArg (!·) hclass
  | false => exact hclass

theorem Atom.Plain.accepts_before {a : Atom} (h : a.Plain) (before before' : UInt8) :
    a.accepts before = a.accepts before' := by
  funext c
  cases a with
  | bracket br => exact h.single_before before before' c
  | _ => rfl

theorem accepted_before {items : List Item} (h : ∀ i ∈ items, i.atom.Plain)
    (before before' : UInt8) : accepted before items = accepted before' items := by
  induction items generalizing before before' with
  | nil => rfl
  | cons i items ih =>
    rw [accepted, accepted, (h i (.head _)).accepts_before before before',
      ih fun i hi => h i (.tail _ hi)]

theorem Ere.Plain.indices_before {e : Ere} (h : e.Plain) {b : Branch} (hb : b ∈ e.branches)
    (before : UInt8) (s : List UInt8) : b.indices before s = b.indices 0 s := by
  ext i
  simp only [indices, Set.mem_ofPred_eq, Matches, Branch.language, accepted_before (h b hb) before 0]

/-- A match is found exactly if there is one. -/
theorem Ere.Plain.exists_firstFound_iff {e : Ere} (h : e.Plain) (junk : ℕ → Junk) (s : List UInt8) :
    (∃ n b i, FirstFound junk s 0 e.branches n b i) ↔ ∃ b ∈ e.branches, ∃ i j, b.Matches 0 s i j := by
  rw [Regex.exists_firstFound_iff]
  constructor
  · rintro ⟨n, b, i, hbranch, hi⟩
    have hb := mem_of_getElem? hbranch
    rw [h.indices_before hb] at hi
    exact ⟨b, hb, i, hi⟩
  · rintro ⟨b, hb, i, hi⟩
    obtain ⟨n, hbranch⟩ := getElem?_of_mem hb
    refine ⟨n, b, i, hbranch, ?_⟩
    rw [h.indices_before hb]
    exact hi

/-- The branch of one character. -/
def Branch.ofChar (c : UInt8) (h : Ordinary c) : Branch := ⟨false, [⟨.char c h, .one⟩], false⟩

/-- The expression of one character. -/
def Ere.ofChar (c : UInt8) (h : Ordinary c) : Ere := ⟨[.ofChar c h], List.cons_ne_nil _ _⟩

theorem Ere.plain_ofChar (c : UInt8) (h : Ordinary c) : (Ere.ofChar c h).Plain := by
  intro b hb i hi
  obtain rfl := mem_singleton.1 hb
  obtain rfl := mem_singleton.1 hi
  trivial

theorem Branch.matches_ofChar {c : UInt8} (h : Ordinary c) {before : UInt8}
    {i j : ℕ} : (Branch.ofChar c h).Matches before s i j ↔ s[i]? = some c ∧ j = i + 1 := by
  have hmem (w : List UInt8) : w ∈ (ofChar c h).language before ↔ w = [c] := by
    rw [Branch.language, ofChar, accepted, accepted, Vlibc.language, map_singleton,
      prod_singleton, Rep.language, mem_charSet]
    constructor
    · rintro ⟨d, hd, rfl⟩
      rw [of_decide_eq_true hd]
    · rintro rfl
      exact ⟨c, decide_eq_true rfl, rfl⟩
  rw [Matches, hmem, extract_eq_take_drop]
  constructor
  · rintro ⟨hle, hlen, hword, -, -⟩
    have hlength := congrArg List.length hword
    rw [length_take, length_drop, length_singleton] at hlength
    obtain rfl : j = i + 1 := by omega
    rw [Nat.add_sub_cancel_left, take_one, head?_drop] at hword
    cases hget : s[i]? with
    | none =>
      rw [hget] at hword
      cases hword
    | some d =>
      rw [hget] at hword
      exact ⟨congrArg some (cons.inj hword).1, rfl⟩
  · rintro ⟨hget, rfl⟩
    obtain ⟨hlt, -⟩ := List.getElem?_eq_some_iff.1 hget
    refine ⟨Nat.le_succ i, hlt, ?_, fun hb => absurd hb Bool.false_ne_true,
      fun hb => absurd hb Bool.false_ne_true⟩
    rw [Nat.add_sub_cancel_left, take_one, head?_drop, hget]
    rfl

/-- A subject whose only `b` stands behind `n` other bytes. -/
def farB (n : ℕ) : List UInt8 := List.replicate n 'a'.toUInt8 ++ ['b'.toUInt8]

theorem getElem?_farB {n i : ℕ} : (farB n)[i]? = some 'b'.toUInt8 ↔ i = n := by
  rw [farB, getElem?_append, length_replicate]
  split_ifs with hi
  · rw [getElem?_replicate, if_pos hi]
    exact iff_of_false (by decide) hi.ne
  · rw [getElem?_singleton]
    constructor
    · intro h
      split_ifs at h with hzero
      omega
    · rintro rfl
      rw [Nat.sub_self, if_pos rfl]

/-- The part of the subject that is reported is one that an alternative matches. -/
def Ere.MatchesSpan (e : Ere) (junk : ℕ → Junk) (s : List UInt8) (m : Regmatch) : Prop :=
  ∃ n, ∃ b : Branch, ∃ i j : ℕ, e.branches[n]? = some b ∧ m = ⟨i, j⟩ ∧ b.Matches (junk n).ccl s i j

/-- `regexec` returns, and if it reports a match, then one with the property. -/
def Reports (outcome : Except Fault (Option Executed)) (P : Regmatch → Prop) : Prop :=
  ∃ x, outcome = .ok (some x) ∧ (x.ret = 0 → ∃ m, x.pmatch.head? = some m ∧ P m)

theorem reports_iff (e : Ere) (hspills : e.spills = false) (junk : ℕ → Junk) (s : List UInt8)
    {nmatch : ℕ} (hnmatch : 1 ≤ nmatch) (P : Regmatch → Prop) :
    Reports (execute junk e.text s nmatch) P ↔ ¬Overflows junk s 0 e.branches ∧
      ∀ r : Report junk s e, r.i + (r.len + r.left) < 2 ^ 31 ∧ P r.span := by
  obtain ⟨nmatch, rfl⟩ := Nat.exists_eq_add_of_le' hnmatch
  rcases execute_eq e hspills junk s (nmatch + 1) with ⟨ho, hr⟩ | ⟨ho, ⟨r, hr⟩ | ⟨hnone, hr⟩⟩
  · exact iff_of_false (fun ⟨x, hx, _⟩ => nomatch hr.symm.trans hx) fun h => h.1 ho
  · rw [hr]
    by_cases hend : INT_MAX < r.span.eo
    · rw [if_pos ⟨Nat.succ_pos nmatch, hend⟩]
      exact iff_of_false (fun ⟨x, hx, _⟩ => nomatch hx) fun h => r.lt_span_iff.1 hend (h.2 r).1
    · rw [if_neg fun h => hend h.2]
      constructor
      · rintro ⟨x, hx, hreport⟩
        cases hx
        obtain ⟨m, hm, hP⟩ := hreport rfl
        cases hm
        refine ⟨ho, fun r' => ?_⟩
        rw [r'.unique r]
        exact ⟨not_not.1 fun h => hend (r.lt_span_iff.2 h), hP⟩
      · rintro ⟨-, hall⟩
        exact ⟨_, rfl, fun _ => ⟨r.span, rfl, (hall r).2⟩⟩
  · refine iff_of_true ⟨_, hr, fun h => absurd h (by decide)⟩ ⟨ho, fun r => ?_⟩
    exact absurd r.found (hnone r.n r.b r.i)

/-- The match that is found, without what failed attempts have left. -/
theorem Report.matches {junk : ℕ → Junk} {e : Ere} (r : Report junk s e) :
    r.b.Matches (junk r.n).ccl s r.i (r.i + r.len) := by
  have hle := r.le_length
  exact (r.b.spans_iff _ s (by omega)).1 (spans_of_firstLength r.length)

theorem lenAfter_nonneg (s : List UInt8) (pat : List Token) {len : ℤ} (h : 0 ≤ len) :
    0 ≤ lenAfter s pat len := by
  have hat (es : List (Elem UInt8)) (i : ℕ) (text : List UInt8) : 0 ≤ lenAt es i text := by
    rw [lenAt]
    omega
  by_cases hbegin : ∃ pat', pat = .begin :: pat'
  · obtain ⟨pat, rfl⟩ := hbegin
    exact add_nonneg h (hat _ _ _)
  · rw [lenAfter_of_ne_begin s fun pat' hpat => hbegin ⟨pat', hpat⟩]
    cases firstIndex (elems pat) 0 s with
    | none => exact h
    | some i => exact hat _ _ _

theorem carried_nonneg (junk : ℕ → Junk) (a : ℕ) (branches : List Branch) {len : ℤ} (h : 0 ≤ len)
    (n : ℕ) : 0 ≤ carried junk s a branches len n := by
  induction branches generalizing a len n with
  | nil => rwa [carried]
  | cons b branches ih =>
    cases n with
    | zero => exact h
    | succ n => exact ih (a + 1) (lenAfter_nonneg s _ h) n

theorem Report.left_nonneg {junk : ℕ → Junk} {e : Ere} (r : Report junk s e) : 0 ≤ r.left := by
  have hcarried := carried_nonneg (s := s) junk 0 e.branches le_rfl r.n
  rw [Report.left, Branch.left]
  split_ifs <;> omega

/-- The condition under which the part that is reported is a match: no bracket is taken apart by the
expansions of `regcomp`, no `int` overflows, and the attempts that have failed before the match have
left nothing in the counter. -/
structure Ere.Counted (e : Ere) (junk : ℕ → Junk) (s : List UInt8) : Prop where
  closed : e.spills = false
  fits : ¬Overflows junk s 0 e.branches
  restored : ∀ r : Report junk s e, r.left = 0
  end_lt : ∀ r : Report junk s e, r.i + r.len < 2 ^ 31

/-- The expression `.*ab?c`. -/
def dotStarAbC : Ere :=
  ⟨[⟨false, [⟨.dot, .star⟩, ⟨.char 'a'.toUInt8 ordinary_a, .one⟩,
    ⟨.char 'b'.toUInt8 ordinary_b, .opt⟩, ⟨.char 'c'.toUInt8 (by decide), .one⟩], false⟩],
    List.cons_ne_nil _ _⟩

/-- A pattern of one character leaves nothing in the counter. -/
theorem Report.left_ofChar {junk : ℕ → Junk} {c : UInt8} {hc : Ordinary c}
    (r : Report junk s (.ofChar c hc)) : r.left = 0 := by
  obtain ⟨n, b, i, len, hfound, hlen⟩ := r
  obtain rfl := mem_singleton.1 (mem_of_getElem? hfound.branch)
  change (0 : ℤ) + ((if run _ (s.drop i) = 0 then 0 else 0 : ℕ) : ℤ) = 0
  rw [ite_self, Nat.cast_zero, add_zero]

/-- The indices at which some alternative matches. -/
def Ere.indices (e : Ere) (junk : ℕ → Junk) (s : List UInt8) : Set ℕ :=
  {i | ∃ n, ∃ b : Branch, ∃ j, e.branches[n]? = some b ∧ b.Matches (junk n).ccl s i j}

/-- No later alternative comes before the first one that matches anywhere: if the alternative with
number `n` matches, and none before it, then wherever a later one matches, it has a match at that
place or in front of it. -/
def Ere.InOrder (e : Ere) (junk : ℕ → Junk) (s : List UInt8) : Prop :=
  ∀ n b m b', e.branches[n]? = some b → NoneBefore junk s 0 e.branches n → n < m →
    e.branches[m]? = some b' → (b.indices (junk n).ccl s).Nonempty →
      ∀ j ∈ b'.indices (junk m).ccl s, ∃ i ∈ b.indices (junk n).ccl s, i ≤ j

theorem isLeast_iff_inOrder {e : Ere} {junk : ℕ → Junk} :
    (∀ r : Report junk s e, IsLeast (e.indices junk s) r.i) ↔ e.InOrder junk s := by
  constructor
  · rintro h n b m b' hb hbefore hlt hb' ⟨i, hi⟩ j ⟨k, hk⟩
    obtain ⟨n', b'', i', hfound⟩ := exists_firstFound_iff.2 ⟨n, b, i, hb, by rwa [zero_add]⟩
    have hle : n ≤ n' := not_lt.1 fun hlt' =>
      (Set.ext_iff.1 (hbefore n' hlt' b'' hfound.branch) i').1 hfound.least.1
    obtain rfl : n = n' := by
      refine le_antisymm hle (not_lt.1 fun hlt' => ?_)
      refine (Set.ext_iff.1 (hfound.earlier n hlt' b hb) i).1 ?_
      rwa [zero_add]
    obtain rfl := some.inj (hb.symm.trans hfound.branch)
    obtain ⟨r, hn, hrb, rfl⟩ := exists_report hfound
    have hleast := hfound.least.1
    rw [zero_add] at hleast
    exact ⟨r.i, hleast, (h r).2 ⟨m, b', k, hb', hk⟩⟩
  · intro h r
    have hfound := r.found
    refine ⟨⟨r.n, r.b, _, hfound.branch, r.matches⟩, ?_⟩
    rintro j ⟨m, b', k, hb', hk⟩
    have hleast := hfound.least
    rw [zero_add] at hleast
    rcases lt_trichotomy m r.n with hlt | rfl | hlt
    · have hempty := hfound.earlier m hlt b' hb'
      rw [zero_add] at hempty
      exact ((Set.ext_iff.1 hempty j).1 ⟨k, hk⟩).elim
    · obtain rfl := some.inj (hfound.branch.symm.trans hb')
      exact hleast.2 ⟨k, hk⟩
    · obtain ⟨i, hi, hle⟩ :=
        h r.n r.b m b' hfound.branch hfound.earlier hlt hb' ⟨_, hleast.1⟩ j ⟨k, hk⟩
      exact (hleast.2 hi).trans hle

/-- The condition under which the index that is reported is the least: no bracket is taken apart by
the expansions of `regcomp`, no `int` overflows, and no later alternative comes before the first one
that matches. -/
structure Ere.Leftmost (e : Ere) (junk : ℕ → Junk) (s : List UInt8) : Prop where
  fits : ¬Overflows junk s 0 e.branches
  end_lt : ∀ r : Report junk s e, r.i + (r.len + r.left) < 2 ^ 31
  order : e.InOrder junk s

/-- The pattern `b|a`. -/
def bOrA : Ere :=
  ⟨[.ofChar 'b'.toUInt8 (by decide), .ofChar 'a'.toUInt8 (by decide)], List.cons_ne_nil _ _⟩

end Vlibc.Regex
