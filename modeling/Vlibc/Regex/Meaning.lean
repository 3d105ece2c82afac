import Vlibc.Foundations.Backtrack
import Vlibc.Regex.Match

/-!
# What a list of tokens matches

A list of tokens without backreferences is a sequence of repeated items and anchors (`elems`), and
`matchpattern` finds its first match (`answers_of_fits`): it succeeds if the sequence matches, and
the counter then is the length of the match and what failed attempts have left in it.
-/

namespace Vlibc.Regex

open List Option Quant

/-- The repetition that a quantifier stands for. -/
def Quant.rep : Quant → Rep
  | question => .opt
  | star => .star
  | plus => .plus

/-- The sequence that tokens stand for. Captures take no part in it. A quantifier belongs to the token
directly before it, if that is one for a character, and otherwise stands for its own byte. -/
def elems : List Token → List (Elem UInt8)
  | [] => []
  | t :: ts =>
    match t with
    | .begin => .bol :: elems ts
    | .end_ => .eol :: elems ts
    | .single _ | .quant _ _ =>
      match ts with
      | .quant q _ :: ts => .item t.matchone q.rep :: elems ts
      | ts => .item t.matchone .one :: elems ts
    | _ => elems ts

/-- A token that is compared with a character. -/
def Token.IsChar : Token → Prop
  | single _ => True
  | quant _ _ => True
  | _ => False

theorem elems_quant {t : Token} (ht : t.IsChar) (q : Quant) (ch : UInt8) (ts : List Token) :
    elems (t :: .quant q ch :: ts) = .item t.matchone q.rep :: elems ts := by
  cases t <;> first | rfl | exact ht.elim

theorem elems_char {t : Token} {ts : List Token} (ht : t.IsChar)
    (hquant : ∀ q ch ts', ts ≠ .quant q ch :: ts') :
    elems (t :: ts) = .item t.matchone .one :: elems ts := by
  rcases ts with _ | ⟨t', ts⟩ <;> cases t <;> first | rfl | exact ht.elim | skip
  all_goals cases t' <;> first | rfl | exact absurd rfl (hquant _ _ _)

/-- A token that can be passed with an array of captures of length `size`: neither a backreference nor
one that was not written, and not a capture outside the array. -/
def Token.Fits (size : Option ℕ) : Token → Prop
  | capOpen g => ∀ n ∈ size, g < n
  | capClose g => ∀ n ∈ size, g < n
  | backref _ => False
  | indeterminate => False
  | _ => True

theorem modifyCap_eq {size : Option ℕ} (st : Shared) {g : ℕ} (f : Regmatch → Regmatch)
    (hcaps : st.caps.map List.length = size) (hg : ∀ n ∈ size, g < n) :
    ∃ caps, caps.map List.length = size ∧ st.modifyCap g f = .ok { st with caps := caps } := by
  obtain ⟨ml, caps⟩ := st
  cases caps with
  | none => exact ⟨none, hcaps, rfl⟩
  | some caps =>
    refine ⟨some (caps.modify g f), by simpa using hcaps, ?_⟩
    have hlt : g < caps.length := hg _ hcaps.symm
    simp [Shared.modifyCap, hlt]

/-! ## Quantifiers -/

/-- What a matcher that was called with the counter at `pre`, and has counted `k` since, answers: with
a match of length `n` the counter has its length and `extra`, and otherwise `extra`. -/
def report (pre : ℤ) (k : ℕ) (found : Option ℕ) (extra : ℕ) (caps : Option (List Regmatch)) :
    Bool × Shared :=
  match found with
  | some n => (true, ⟨pre + k + n + extra, caps⟩)
  | none => (false, ⟨pre + extra, caps⟩)

/-- The matcher `k` finds the length `found` and counts `extra` too much, wherever it is called with
captures of length `size`. -/
def Finds (size : Option ℕ) (k : Matcher) (found : ℕ → List UInt8 → Option ℕ)
    (extra : ℕ → List UInt8 → ℕ) : Prop :=
  ∀ (text : List UInt8) (pos : ℕ) (st : Shared), st.caps.map List.length = size →
    ∃ caps, caps.map List.length = size ∧
      k text pos st = .ok (report st.ml 0 (found pos text) (extra pos text) caps)

section Quantifiers

variable {size : Option ℕ} {k : Matcher} {found : ℕ → List UInt8 → Option ℕ}
  {extra : ℕ → List UInt8 → ℕ} {p : UInt8 → Bool}

/-- **The loop over the ends of a run.** By induction on the number of ends that are left; each failed
attempt leaves `extra` in the counter. -/
theorem backtrack_eq (hk : Finds size k found extra) (text : List UInt8) (pos low tries : ℕ)
    (base : ℤ) (caps : Option (List Regmatch)) (hcaps : caps.map List.length = size) :
    ∃ caps', caps'.map List.length = size ∧
      backtrack k text pos low tries ⟨base + tries + low - 1, caps⟩ =
        let lost := spent (fun m => (found (pos + m) (text.drop m)).isSome)
          (fun m => extra (pos + m) (text.drop m)) (downTo low tries)
        .ok (match (downTo low tries).findSome? fun m =>
            (found (pos + m) (text.drop m)).map (m + ·) with
          | some n => (true, ⟨base + n + lost, caps'⟩)
          | none => (false, ⟨base + low - 1 + lost, caps'⟩)) := by
  induction tries generalizing base caps with
  | zero => exact ⟨caps, hcaps, by simp [backtrack, downTo, spent]⟩
  | succ tries ih =>
    have hml : base + (tries + 1 : ℕ) + low - 1 = base + (tries + low : ℕ) := by omega
    obtain ⟨caps₁, hcaps₁, hrun⟩ := hk (text.drop (tries + low)) (pos + (tries + low))
      ⟨base + (tries + low : ℕ), caps⟩ hcaps
    rw [hml, backtrack, hrun]
    cases hfound : found (pos + (tries + low)) (text.drop (tries + low)) with
    | some n =>
      refine ⟨caps₁, hcaps₁, ?_⟩
      simp only [report, Bind.bind, Except.bind, downTo, spent, findSome?_cons, hfound,
        map_some, isSome_some, if_true]
      refine congrArg (fun ml => Except.ok (true, Shared.mk ml caps₁)) ?_
      omega
    | none =>
      obtain ⟨caps₂, hcaps₂, hrest⟩ :=
        ih (base + extra (pos + (tries + low)) (text.drop (tries + low))) caps₁ hcaps₁
      refine ⟨caps₂, hcaps₂, ?_⟩
      simp only [report, Bind.bind, Except.bind, downTo, spent, findSome?_cons, hfound,
        map_none, isSome_none, Bool.false_eq_true, if_false]
      rw [show base + ((tries + low : ℕ) : ℤ) + extra (pos + (tries + low)) (text.drop (tries + low)) -
        1 = base + extra (pos + (tries + low)) (text.drop (tries + low)) + tries + low - 1 by omega,
        hrest]
      cases (downTo low tries).findSome? fun m => (found (pos + m) (text.drop m)).map (m + ·) with
      | some n =>
        refine congrArg (fun ml => Except.ok (true, Shared.mk ml caps₂)) ?_
        push_cast
        omega
      | none =>
        refine congrArg (fun ml => Except.ok (false, Shared.mk ml caps₂)) ?_
        omega

theorem any_isSome_eq (f : ℕ → Option ℕ) (ms : List ℕ) :
    (ms.any fun m => (f m).isSome) = (ms.findSome? fun m => (f m).map (m + ·)).isSome := by
  induction ms with
  | nil => rfl
  | cons m ms ih =>
    rw [any_cons, findSome?_cons]
    cases hf : f m with
    | some n => simp
    | none => simpa using ih

/-- What a quantifier answers that has come to `count` characters: the first number of repetitions for
which what follows matches. `matchstar` takes back what failed attempts have left. -/
def Quant.answer (found : ℕ → List UInt8 → Option ℕ) (extra : ℕ → List UInt8 → ℕ) (p : UInt8 → Bool)
    (q : Quant) (text : List UInt8) (pos : ℕ) (pre : ℤ) (count : ℕ) (caps : Option (List Regmatch)) :
    Bool × Shared :=
  let ms := order q.rep (run p text)
  let hit := fun m => (found (pos + m) (text.drop m)).isSome
  let lost := spent hit (fun m => extra (pos + m) (text.drop m)) ms
  report pre count (ms.findSome? fun m => (found (pos + m) (text.drop m)).map (m + ·))
    (if ms.any hit then lost else if q = .star then count else count + lost) caps

variable (hk : Finds size k found extra) (text : List UInt8) (pos : ℕ) (pre : ℤ) (count : ℕ)
  (caps : Option (List Regmatch)) (hcaps : caps.map List.length = size)

include hk hcaps

theorem matchstar_eq : ∃ caps', caps'.map List.length = size ∧
    matchstar p k text pos ⟨pre + count, caps⟩ =
      .ok (Quant.star.answer found extra p text pos pre count caps') := by
  obtain ⟨caps', hcaps', hrun⟩ :=
    backtrack_eq hk text pos 0 (run p text + 1) (pre + count) caps hcaps
  refine ⟨caps', hcaps', ?_⟩
  rw [show pre + (count : ℤ) + (run p text + 1 : ℕ) + (0 : ℕ) - 1 = pre + count + run p text by omega]
    at hrun
  change Bind.bind (backtrack k text pos 0 (run p text + 1) ⟨pre + count + run p text, caps⟩) _ = _
  rw [hrun]
  simp only [answer, rep, order, any_isSome_eq]
  cases (downTo 0 (run p text + 1)).findSome? fun m =>
    (found (pos + m) (text.drop m)).map (m + ·) <;>
      simp [Bind.bind, Except.bind, Pure.pure, Except.pure, report]

theorem matchplus_eq : ∃ caps', caps'.map List.length = size ∧
    matchplus p k text pos ⟨pre + count, caps⟩ =
      .ok (Quant.plus.answer found extra p text pos pre count caps') := by
  obtain ⟨caps', hcaps', hrun⟩ := backtrack_eq hk text pos 1 (run p text) (pre + count) caps hcaps
  refine ⟨caps', hcaps', ?_⟩
  rw [show pre + (count : ℤ) + (run p text : ℕ) + (1 : ℕ) - 1 = pre + count + run p text by omega]
    at hrun
  change backtrack k text pos 1 (run p text) ⟨pre + count + run p text, caps⟩ = _
  rw [hrun]
  simp only [answer, rep, order, any_isSome_eq]
  cases (downTo 1 (run p text)).findSome? fun m =>
    (found (pos + m) (text.drop m)).map (m + ·) with
  | some n => simp [report]
  | none =>
    simp only [report, isSome_none, Bool.false_eq_true, if_false, reduceCtorEq]
    refine congrArg (fun ml => Except.ok (false, Shared.mk ml caps')) ?_
    omega

theorem matchquestion_eq : ∃ caps', caps'.map List.length = size ∧
    matchquestion p k text pos ⟨pre + count, caps⟩ =
      .ok (Quant.question.answer found extra p text pos pre count caps') := by
  obtain ⟨caps₁, hcaps₁, hrun₁⟩ := hk text pos ⟨pre + count, caps⟩ hcaps
  cases hfound : found pos text with
  | some n =>
    refine ⟨caps₁, hcaps₁, ?_⟩
    simp only [matchquestion, answer, rep, order, hrun₁, Bind.bind, Except.bind]
    split_ifs <;> simp [report, spent, hfound, Pure.pure, Except.pure] at *
  | none =>
    cases text with
    | nil =>
      refine ⟨caps₁, hcaps₁, ?_⟩
      simp [matchquestion, answer, rep, order, hrun₁, Bind.bind, Except.bind, report,
        spent, hfound, Pure.pure, Except.pure, run, add_assoc]
    | cons c text =>
      cases hc : p c with
      | false =>
        refine ⟨caps₁, hcaps₁, ?_⟩
        simp [matchquestion, answer, rep, order, hrun₁, Bind.bind, Except.bind, report,
          spent, hfound, Pure.pure, Except.pure, run, add_assoc, hc]
      | true =>
        obtain ⟨caps₂, hcaps₂, hrun₂⟩ := hk text (pos + 1)
          ⟨pre + count + extra pos (c :: text), caps₁⟩ hcaps₁
        refine ⟨caps₂, hcaps₂, ?_⟩
        have hlong : run p (c :: text) ≠ 0 := by simp [run, hc]
        simp only [matchquestion, hrun₁, hfound, report, Bind.bind, Except.bind, Bool.false_eq_true,
          if_false, head?_cons, any_some, hc, if_true, tail_cons, hrun₂, answer, rep, order, hlong]
        cases hfound₂ : found (pos + 1) text with
        | none => simp [spent, hfound, hfound₂, Pure.pure, Except.pure, add_assoc]
        | some n =>
          simp [spent, hfound, hfound₂, Pure.pure, Except.pure]
          omega

theorem Quant.matcher_eq (q : Quant) : ∃ caps', caps'.map List.length = size ∧
    q.matcher p k text pos ⟨pre + count, caps⟩ =
      .ok (q.answer found extra p text pos pre count caps') := by
  cases q with
  | question => exact matchquestion_eq hk text pos pre count caps hcaps
  | star => exact matchstar_eq hk text pos pre count caps hcaps
  | plus => exact matchplus_eq hk text pos pre count caps hcaps

end Quantifiers

/-! ## `matchpattern` -/

/-- The tokens answer as the sequence does that they stand for, wherever they are tried and whatever
has been counted. -/
def Answers (size : Option ℕ) (string : List UInt8) (toks : List Token) : Prop :=
  ∀ (text : List UInt8) (pos : ℕ) (pre : ℤ) (k : ℕ) (caps : Option (List Regmatch)),
    caps.map List.length = size → ∃ caps', caps'.map List.length = size ∧
      matchpattern string toks pre text pos ⟨pre + k, caps⟩ =
        .ok (report pre k (firstLength (elems toks) pos text) (extra (elems toks) k pos text) caps')

section Steps

variable {size : Option ℕ} {string : List UInt8} {t : Token} {ts : List Token}

theorem matchpattern_quant (ht : t.IsChar) (q : Quant) (ch : UInt8) (pre : ℤ) (text : List UInt8)
    (pos : ℕ) (st : Shared) : matchpattern string (t :: .quant q ch :: ts) pre text pos st =
      q.matcher t.matchone (fun text pos st => matchpattern string ts st.ml text pos st) text pos
        st := by
  cases t <;> first | rfl | exact ht.elim

theorem matchpattern_char (ht : t.IsChar) (hquant : ∀ q ch ts', ts ≠ .quant q ch :: ts')
    (hindet : ∀ ts', ts ≠ .indeterminate :: ts') (pre : ℤ) (text : List UInt8) (pos : ℕ)
    (st : Shared) : matchpattern string (t :: ts) pre text pos st =
      if text.head?.any t.matchone then
        matchpattern string ts pre text.tail (pos + 1) { st with ml := st.ml + 1 }
      else .ok (false, { st with ml := pre }) := by
  rcases ts with _ | ⟨t', ts⟩ <;> cases t <;> first | rfl | exact ht.elim | skip
  all_goals cases t' <;> first | rfl | exact absurd rfl (hquant _ _ _) | exact absurd rfl (hindet _)

theorem Answers.finds (h : Answers size string ts) :
    Finds size (fun text pos st => matchpattern string ts st.ml text pos st)
      (firstLength (elems ts)) (extra (elems ts) 0) := by
  intro text pos st hcaps
  obtain ⟨caps, hcaps', hrun⟩ := h text pos st.ml 0 st.caps hcaps
  refine ⟨caps, hcaps', ?_⟩
  rw [← hrun, Nat.cast_zero, add_zero]

theorem answers_quant (ht : t.IsChar) (q : Quant) (ch : UInt8) (h : Answers size string ts) :
    Answers size string (t :: .quant q ch :: ts) := by
  intro text pos pre k caps hcaps
  rw [elems_quant ht, matchpattern_quant ht]
  obtain ⟨caps', hcaps', hrun⟩ := matcher_eq h.finds text pos pre k caps hcaps q
  refine ⟨caps', hcaps', hrun.trans ?_⟩
  cases q <;> rfl

theorem answers_char (ht : t.IsChar) (hquant : ∀ q ch ts', ts ≠ .quant q ch :: ts')
    (hindet : ∀ ts', ts ≠ .indeterminate :: ts') (h : Answers size string ts) :
    Answers size string (t :: ts) := by
  intro text pos pre k caps hcaps
  rw [elems_char ht hquant, matchpattern_char ht hquant hindet]
  cases text with
  | nil => exact ⟨caps, hcaps, by simp [firstLength, extra, order, run, report]⟩
  | cons c text =>
    cases hc : t.matchone c with
    | false => exact ⟨caps, hcaps, by simp [firstLength, extra, order, run, report, hc]⟩
    | true =>
      obtain ⟨caps', hcaps', hrun⟩ := h text (pos + 1) pre (k + 1) caps hcaps
      refine ⟨caps', hcaps', ?_⟩
      have hlong : run t.matchone (c :: text) ≠ 0 := by simp [run, hc]
      rw [head?_cons, any_some, hc, if_pos rfl, tail_cons,
        show pre + (k : ℤ) + 1 = pre + (k + 1 : ℕ) by push_cast; ring, hrun]
      simp only [firstLength, extra, order, hlong, if_false, findSome?_cons, findSome?_nil,
        drop_succ_cons, drop_zero]
      cases firstLength (elems ts) (pos + 1) text with
      | none => rfl
      | some n =>
        refine congrArg (fun ml => Except.ok (true, Shared.mk ml caps')) ?_
        push_cast
        ring

theorem answers_begin (h : Answers size string ts) : Answers size string (.begin :: ts) := by
  intro text pos pre k caps hcaps
  simp only [matchpattern, elems, firstLength, extra]
  by_cases hpos : pos = 0
  · simpa [hpos] using h text 0 pre k caps hcaps
  · exact ⟨caps, hcaps, by simp [hpos, report]⟩

theorem answers_end (h : Answers size string ts) : Answers size string (.end_ :: ts) := by
  intro text pos pre k caps hcaps
  simp only [matchpattern, elems, firstLength, extra]
  by_cases htext : text = []
  · simpa [htext] using h [] pos pre k caps hcaps
  · exact ⟨caps, hcaps, by simp [htext, report]⟩

theorem answers_cap (g : ℕ) (hg : ∀ n ∈ size, g < n) (h : Answers size string ts) :
    Answers size string (.capOpen g :: ts) ∧ Answers size string (.capClose g :: ts) := by
  constructor
  all_goals
    intro text pos pre k caps hcaps
    simp only [matchpattern, elems]
  · obtain ⟨caps₁, hcaps₁, hset⟩ :=
      modifyCap_eq ⟨pre + k, caps⟩ (fun m => { m with so := toInt pos }) hcaps hg
    obtain ⟨caps₂, hcaps₂, hrun⟩ := h text pos pre k caps₁ hcaps₁
    exact ⟨caps₂, hcaps₂, by rw [hset]; exact hrun⟩
  · obtain ⟨caps₁, hcaps₁, hset⟩ :=
      modifyCap_eq ⟨pre + k, caps⟩ (fun m => { m with eo := toInt pos }) hcaps hg
    obtain ⟨caps₂, hcaps₂, hrun⟩ := h text pos pre k caps₁ hcaps₁
    exact ⟨caps₂, hcaps₂, by rw [hset]; exact hrun⟩

end Steps

/-- Induction on tokens as `elems` goes through them: a token that is compared with a character takes
the quantifier behind it along. -/
theorem tokens_induction {P : Token → Prop} {Q : List Token → Prop} (hindet : ¬P .indeterminate)
    (nil : Q [])
    (quant : ∀ {t ts}, t.IsChar → ∀ q ch, Q ts → Q (t :: .quant q ch :: ts))
    (char : ∀ {t ts}, t.IsChar → (∀ q ch ts', ts ≠ .quant q ch :: ts') →
      (∀ ts', ts ≠ .indeterminate :: ts') → Q ts → Q (t :: ts))
    (other : ∀ {t ts}, ¬t.IsChar → P t → Q ts → Q (t :: ts)) :
    (toks : List Token) → (∀ t ∈ toks, P t) → Q toks
  | [], _ => nil
  | t :: ts, h => by
    have hrest := fun t ht => h t (.tail _ ht)
    have ih := tokens_induction hindet nil quant char other ts hrest
    by_cases ht : t.IsChar
    · by_cases hquant : ∃ q ch ts', ts = .quant q ch :: ts'
      · obtain ⟨q, ch, ts', rfl⟩ := hquant
        exact quant ht q ch
          (tokens_induction hindet nil quant char other ts' fun t ht => hrest t (.tail _ ht))
      · exact char ht (fun q ch ts' e => hquant ⟨q, ch, ts', e⟩)
          (fun ts' e => hindet (hrest _ (e ▸ .head _))) ih
    · exact other ht (h t (.head _)) ih

/-- **`matchpattern` finds the first match** of the sequence that its tokens stand for. -/
theorem answers_of_fits {size : Option ℕ} {string : List UInt8} {toks : List Token}
    (hfits : ∀ t ∈ toks, t.Fits size) : Answers size string toks := by
  refine tokens_induction id ?_ answers_quant answers_char (fun {t ts} hchar ht ih => ?_) toks hfits
  · intro text pos pre k caps hcaps
    exact ⟨caps, hcaps, by simp [matchpattern, elems, firstLength, extra, report]⟩
  · cases t with
    | begin => exact answers_begin ih
    | end_ => exact answers_end ih
    | single t | quant q ch => exact (hchar trivial).elim
    | capOpen g => exact (answers_cap g ht ih).1
    | capClose g => exact (answers_cap g ht ih).2
    | backref g | indeterminate => exact ht.elim

end Vlibc.Regex
