import Vlibc.Wordexp.Parse

/-!
# `wordexp`

The functions of `wordexp.c` that collect the words. It does not free the paths of a call of `glob`
that is refused memory; and where `add_word` has moved the array and is then refused memory for the
word, it has freed both the old array and the new one, and `wordfree` uses the old one
(`wordLoop_outcome`).
-/

namespace Vlibc.Wordexp

open List Multiset

open Ctype (isspace)
open Glob (GLOB_NOMATCH GLOB_NOSPACE)

def WRDE_NOSPACE : ℕ := 1

def WRDE_BADCHAR : ℕ := 2

def WRDE_SYNTAX : ℕ := 3

/-- `add_word`: whether it succeeds. -/
def addWord (grants : ℕ → Bool) (we : Strings) (word : ℕ) : Run (Bool × Strings) := do
  match ← realloc grants .wordArray we.array (we.count + 2) with
  | none => return (false, we)
  | some tmp =>
    match ← strdup grants (.wordText we.array.isSome) word with
    | none =>
      if some tmp ≠ we.array then release tmp
      return (false, we)
    | some dup =>
      writeAt tmp we.count [.ptr dup]
      writeAt tmp (we.count + 1) [.null]
      return (true, ⟨we.count + 1, some tmp⟩)

/-- The loop of `do_glob_expand` over the paths, from the `i`-th on, with `n` left. -/
def addPaths (grants : ℕ → Bool) (g : Strings) : ℕ → ℕ → Strings → Run (Bool × Strings)
  | _, 0, we => return (true, we)
  | i, n + 1, we => do
    match ← loadPtr g.array i with
    | none => throw .dead
    | some path =>
      let (ok, we) ← addWord grants we path
      if ok then addPaths grants g (i + 1) n we else return (false, we)

/-- `do_glob_expand`, for the `i`-th word: whether it succeeds. -/
def doGlobExpand (host : Host) (i : ℕ) (we : Strings) (text : ℕ) (doGlob : Bool) :
    Run (Bool × Strings) := do
  if doGlob then
    let pattern ← loadStr text
    let (r, g) ← glob host i pattern 0
    if r = 0 then
      let (ok, we) ← addPaths host.grants g 0 g.count we
      let _ ← globfree g
      return (ok, we)
    else if r = GLOB_NOMATCH then addWord host.grants we text
    else return (false, we)
  else addWord host.grants we text

/-- The loop of `wordexp`, for a text of less than `fuel` characters from the `i`-th word on. -/
def wordLoop (host : Host) : ℕ → ℕ → List UInt8 → Strings → Run (ℕ × Strings)
  | 0, _, _, _ => throw .endless
  | fuel + 1, i, p, we => do
    let p := p.dropWhile isspace
    if p = [] then return (0, we)
    else
      match ← parseWord host p with
      | .nospace => return (WRDE_NOSPACE, ← wordfree we)
      | .invalid => return (WRDE_SYNTAX, ← wordfree we)
      | .word text doGlob p =>
        let (ok, we) ← doGlobExpand host i we text doGlob
        release text
        if ok then wordLoop host fuel (i + 1) p we
        else return (WRDE_NOSPACE, ← wordfree we)

/-- `wordexp`: what it returns, and the `wordexp_t`. -/
def wordexp (host : Host) (words : Option CStr) (pwordexp : Option Strings) :
    Run (ℕ × Option Strings) := do
  match words, pwordexp with
  | some words, some _ =>
    let (ret, we) ← wordLoop host (words.bytes.length + 1) 0 words.bytes .empty
    return (ret, some we)
  | _, we => return (WRDE_BADCHAR, we)

/-- What a word becomes: the paths that match it, if it is a pattern and there are any. -/
def expansion (w : Glob.World) (text : CStr) (doGlob : Bool) : List CStr :=
  if doGlob ∧ (Glob.glob w (some text) 0).1 = 0 then (Glob.glob w (some text) 0).2 else [text]

/-- The words of a text of less than `fuel` characters from the `i`-th on, with memory for everything;
`none` if a quote is not closed or nothing stands behind a backslash. -/
def expansions (host : Host) : ℕ → ℕ → List UInt8 → Option (List CStr)
  | 0, _, _ => none
  | fuel + 1, i, p =>
    let p := p.dropWhile isspace
    if p = [] then some []
    else
      (readWord (host.home.getD (str "")) .none true [] p).bind fun (text, doGlob, p) =>
        (expansions host fuel (i + 1) p).map fun rest =>
          expansion (host.world i 0) (.ofBytes text) doGlob ++ rest

/-! ## What the functions leave behind -/

/-- The words have been added to those that there were. -/
def Added (ps : List (ℕ × CStr)) (words : List CStr) (bs : Blocks) (m : Memory Cell Request)
    (we : Strings) (m' : Memory Cell Request) : Prop :=
  Granted m.asked m'.asked ∧ ∃ qs arr, Holds we (ps ++ qs) arr ∧ qs.map Prod.snd = words ∧
    m'.heap.Owns (arr + (texts (ps ++ qs) + bs))

/-- A request has been refused. The `wordexp_t` holds the words, and blocks are lost, except if the
request was harmless; or it has an array that has been freed. -/
def Failed (grants : ℕ → Bool) (bs : Blocks) (m : Memory Cell Request) (we : Strings)
    (m' : Memory Cell Request) : Prop :=
  ∃ r, Refused grants r m.asked m'.asked ∧
    ((∃ ps arr lost, Holds we ps arr ∧ m'.heap.Owns (arr + (texts ps + (lost + bs))) ∧
        (lost = 0 ↔ r.harmless = true)) ∨
      (r.harmless = false ∧ ∃ a rest, we.array = some a ∧ we.count ≠ 0 ∧ m'.heap.Owns (rest + bs) ∧
        ∀ b ∈ rest + bs, b.1 ≠ a))

/-- One of the two, and whether the words have been added. -/
def AddedOrFailed (grants : ℕ → Bool) (ps : List (ℕ × CStr)) (words : List CStr) (bs : Blocks)
    (m : Memory Cell Request) (result : Bool × Strings) (m' : Memory Cell Request) : Prop :=
  (result.1 = true ∧ Added ps words bs m result.2 m') ∨
    (result.1 = false ∧ Failed grants bs m result.2 m')

variable {grants : ℕ → Bool} {host : Host} {i : ℕ} {we : Strings} {ps : List (ℕ × CStr)}
  {arr bs : Blocks} {m m' m₁ : Memory Cell Request} {p : ℕ} {s : CStr} {cells : List Cell}

theorem Failed.of_granted (hg : Granted m.asked m₁.asked) (h : Failed grants bs m₁ we m') :
    Failed grants bs m we m' := by
  obtain ⟨r, hr, h⟩ := h
  exact ⟨r, hg.refused hr, h⟩

variable {result : Bool × Strings}

theorem AddedOrFailed.of_granted {words : List CStr}
    (hg : Granted m.asked m₁.asked) (h : AddedOrFailed grants ps words bs m₁ result m') :
    AddedOrFailed grants ps words bs m result m' := by
  obtain ⟨hok, hg', hadded⟩ | ⟨hok, hfailed⟩ := h
  · exact .inl ⟨hok, hg.trans hg', hadded⟩
  · exact .inr ⟨hok, hfailed.of_granted hg⟩

/-- **`add_word`** adds a word, or a request is refused. If that is the second one, and there was an
array, then the array has been freed. -/
theorem addWord_ends (h : Holds we ps arr) (ho : m.heap.Owns (arr + (texts ps + bs)))
    (hmem : (p, cells) ∈ bs) (hs : textOf cells = some s) :
    Ends (addWord grants we p) m (AddedOrFailed grants ps [s] bs m) := by
  refine (realloc_array_ends h ho _).bind ?_
  rintro _ m₁ (⟨hg, hasked₁, hheap⟩ | ⟨new, -, hasked₁, hne, c, ho₁⟩)
  · refine .pure (.inr ⟨rfl, .wordArray, hasked₁ ▸ refused_concat hg _, .inl ⟨ps, arr, 0, h, ?_, ?_⟩⟩)
    · rw [hheap, zero_add]
      exact ho
    · exact iff_of_true rfl rfl
  have hword : (p, cells) ∈ (new, pointers ps ++ [c, .junk]) ::ₘ (texts ps + bs) :=
    Multiset.mem_cons_of_mem (mem_add.2 (.inr hmem))
  refine (strdup_ends ho₁ hword hs _).bind ?_
  rintro _ m₂ (⟨hg₂, hasked₂, hheap⟩ | ⟨dup, -, hasked₂, ho₂⟩)
  · rw [← hheap] at ho₁
    rw [if_pos hne]
    refine (release_ends ho₁).bind ?_
    rintro _ m₃ ⟨hasked₃, ho₃⟩
    have hrefused : Refused grants (.wordText we.array.isSome) m.asked m₃.asked := by
      rw [hasked₁] at hg₂
      rw [hasked₃, hasked₂, hasked₁]
      exact (granted_concat _ _).refused (refused_concat hg₂ _)
    refine .pure (.inr ⟨rfl, _, hrefused, ?_⟩)
    cases h with
    | empty => exact .inl ⟨[], 0, 0, .empty, by simpa using ho₃, iff_of_true rfl rfl⟩
    | @strings a ps hps =>
      exact .inr ⟨rfl, a, texts ps, rfl, mt length_eq_zero_iff.1 hps, ho₃, ho.ne⟩
  · rw [h.count_eq]
    rw [cons_swap] at ho₂
    refine (writeAt_pointer_ends ho₂).bind ?_
    rintro _ m₃ ⟨hasked₃, ho₃⟩
    refine (writeAt_null_ends (dup, s) ho₃).bind ?_
    rintro _ m₄ ⟨hasked₄, arr', hholds', ho₄⟩
    refine .pure (.inl ⟨rfl, ?_, [(dup, s)], arr', hholds', rfl, ho₄⟩)
    rw [hasked₄, hasked₃, hasked₂, hasked₁]
    exact (granted_concat _ _).trans (granted_concat _ _)

variable {g : Strings}

theorem addPaths_ends {a : ℕ} (ha : g.array = some a) (done rest : List (ℕ × CStr))
    (harray : (a, pointers (done ++ rest) ++ cells) ∈ bs)
    (hrest : ∀ q ∈ rest, (q.1, cstring q.2) ∈ bs) (h : Holds we ps arr)
    (ho : m.heap.Owns (arr + (texts ps + bs))) :
    Ends (addPaths grants g done.length rest.length we) m
      (AddedOrFailed grants ps (rest.map Prod.snd) bs m) := by
  induction rest generalizing done we ps arr m with
  | nil =>
    refine .pure (.inl ⟨rfl, .refl _, [], arr, ?_, rfl, ?_⟩) <;> rwa [append_nil]
  | cons q rest ih =>
    obtain ⟨hq, hrest⟩ := List.forall_mem_cons.1 hrest
    have harray' : (a, pointers (done ++ q :: rest) ++ cells) ∈ arr + (texts ps + bs) :=
      mem_add.2 (.inr (mem_add.2 (.inr harray)))
    rw [length_cons, addPaths, ha]
    refine (loadPtr_ends ho harray').bind ?_
    rintro _ m ⟨rfl, rfl⟩
    refine (addWord_ends h ho hq (textOf_cstring q.2)).bind ?_
    rintro ⟨ok, we₁⟩ m₁ (⟨rfl, hg, qs, arr₁, h₁, hqs, ho₁⟩ | ⟨rfl, hfailed⟩)
    · have hsplit : done ++ q :: rest = done ++ [q] ++ rest := by simp
      rw [hsplit] at harray
      have hnext := ih (done ++ [q]) harray hrest h₁ ho₁
      rw [length_append] at hnext
      refine hnext.imp ?_
      rintro result m₂ (⟨hok, hg₂, qs₂, arr₂, h₂, hqs₂, ho₂⟩ | ⟨hok, hfailed⟩)
      · rw [append_assoc] at h₂ ho₂
        refine .inl ⟨hok, hg.trans hg₂, qs ++ qs₂, arr₂, h₂, ?_, ho₂⟩
        rw [map_append, hqs, hqs₂]
        rfl
      · exact .inr ⟨hok, hfailed.of_granted hg⟩
    · exact .pure (.inr ⟨rfl, hfailed⟩)

variable {gps : List (ℕ × CStr)}

theorem addPaths_all_ends {garr : Blocks}
    (hg : Holds g gps garr) (h : Holds we ps arr)
    (ho : m.heap.Owns (arr + (texts ps + (garr + (texts gps + bs))))) :
    Ends (addPaths grants g 0 g.count we) m
      (AddedOrFailed grants ps (gps.map Prod.snd) (garr + (texts gps + bs)) m) := by
  cases hg with
  | empty => refine .pure (.inl ⟨rfl, .refl _, [], arr, ?_, rfl, ?_⟩) <;> rwa [append_nil]
  | @strings a gps hne =>
    refine addPaths_ends (a := a) rfl [] gps (Multiset.mem_cons_self _ _) ?_ h ho
    intro q hq
    exact Multiset.mem_cons_of_mem (mem_add.2 (.inl (mem_coe.2 (List.mem_map.2 ⟨q, hq, rfl⟩))))

theorem globfree_ends {garr : Blocks} (hg : Holds g gps garr)
    {words : List CStr}
    (h : AddedOrFailed grants ps words (garr + (texts gps + bs)) m result m₁) :
    Ends (do let _ ← globfree g; return result : Run (Bool × Strings)) m₁
      (AddedOrFailed grants ps words bs m) := by
  have hfree : ∀ others, m₁.heap.Owns (garr + (texts gps + others)) →
      Ends (globfree g) m₁ fun _ m' => m'.asked = m₁.asked ∧ m'.heap.Owns others := by
    intro others ho
    refine (freeStrings_ends hg ho).imp ?_
    rintro _ m₂ ⟨-, hasked, ho₂⟩
    exact ⟨hasked, ho₂⟩
  obtain ⟨hok, hgranted, qs, arr, hholds, hqs, ho⟩ |
    ⟨hok, r, hr, ⟨ps', arr, lost, hholds, ho, hlost⟩ | ⟨hr', a, rest, ha, hc, ho, hne⟩⟩ := h
  · refine (hfree (arr + (texts (ps ++ qs) + bs)) (ho.of_eq (by ac_rfl))).bind ?_
    rintro _ m₂ ⟨hasked, ho₂⟩
    exact .pure (.inl ⟨hok, hasked ▸ hgranted, qs, arr, hholds, hqs, ho₂⟩)
  · refine (hfree (arr + (texts ps' + (lost + bs))) (ho.of_eq (by ac_rfl))).bind ?_
    rintro _ m₂ ⟨hasked, ho₂⟩
    exact .pure (.inr ⟨hok, r, hasked ▸ hr, .inl ⟨ps', arr, lost, hholds, ho₂, hlost⟩⟩)
  · refine (hfree (rest + bs) (ho.of_eq (by ac_rfl))).bind ?_
    rintro _ m₂ ⟨hasked, ho₂⟩
    refine .pure (.inr ⟨hok, r, hasked ▸ hr, .inr ⟨hr', a, rest, ha, hc, ho₂, fun b hb => hne b ?_⟩⟩)
    obtain hb | hb := mem_add.1 hb
    · exact mem_add.2 (.inl hb)
    · exact mem_add.2 (.inr (mem_add.2 (.inr (mem_add.2 (.inr hb)))))

theorem doGlobExpand_ends (h : Holds we ps arr) (ho : m.heap.Owns (arr + (texts ps + bs)))
    (hmem : (p, cells) ∈ bs) (hs : textOf cells = some s) (doGlob : Bool) :
    Ends (doGlobExpand host i we p doGlob) m
      (AddedOrFailed host.grants ps (expansion (host.world i m.asked.length) s doGlob) bs m) := by
  cases doGlob with
  | false => exact addWord_ends h ho hmem hs
  | true =>
    rw [doGlobExpand, if_pos rfl]
    have hmem' : (p, cells) ∈ arr + (texts ps + bs) :=
      mem_add.2 (.inr (mem_add.2 (.inr hmem)))
    refine (loadStr_ends ho hmem' hs).bind ?_
    rintro s m ⟨rfl, rfl⟩
    refine (glob_ends host i s 0 ho).bind ?_
    rintro ⟨r, g⟩ m₁ ⟨hr, hcases⟩
    dsimp only at hr hcases
    obtain ⟨rfl, hg, gps, garr, hgholds, hpaths, ho₁⟩ | ⟨rfl, hg, ho₁⟩ |
      ⟨rfl, r, lost, hrefused, ho₁, hlost⟩ := hcases
    · have hexp : expansion (host.world i m.asked.length) s true = gps.map Prod.snd := by
        rw [expansion, if_pos ⟨rfl, hr.symm⟩, hpaths]
      have ho₁ := ho₁.of_eq (show _ = arr + (texts ps + (garr + (texts gps + bs))) by ac_rfl)
      rw [hexp]
      refine (addPaths_all_ends hgholds h ho₁).bind ?_
      rintro ⟨ok, we₂⟩ m₂ hadded
      exact (globfree_ends hgholds hadded).imp fun result m₃ hadded => hadded.of_granted hg
    · have hexp : expansion (host.world i m.asked.length) s true = [s] := by
        rw [expansion, if_neg (fun e => absurd (hr.trans e.2) (by decide))]
      rw [hexp]
      exact (addWord_ends h ho₁ hmem hs).imp fun result m₃ hadded => hadded.of_granted hg
    · refine .pure (.inr ⟨rfl, r, hrefused, .inl ⟨ps, arr, lost, h, ?_, hlost⟩⟩)
      exact ho₁.of_eq (by ac_rfl)

/-! ## The loop -/

/-- What `wordexp` returns: the words; or an error, with an empty `wordexp_t`. -/
def Returned (host : Host) (ps : List (ℕ × CStr)) (words : Option (List CStr)) (bs : Blocks)
    (m : Memory Cell Request) (result : ℕ × Strings) (m' : Memory Cell Request) : Prop :=
  (result.1 = 0 ∧ Granted m.asked m'.asked ∧ ∃ qs arr, Holds result.2 (ps ++ qs) arr ∧
      m'.heap.Owns (arr + (texts (ps ++ qs) + bs)) ∧
      ((∀ n, host.grants n = true) → words = some (qs.map Prod.snd))) ∨
  (result = (WRDE_SYNTAX, .empty) ∧ Granted m.asked m'.asked ∧ m'.heap.Owns bs ∧ words = none) ∨
  (result = (WRDE_NOSPACE, .empty) ∧ Lost host.grants bs m m')

/-- A request that was not harmless has been refused. -/
def Harmed (grants : ℕ → Bool) (m m' : Memory Cell Request) : Prop :=
  ∃ r, Refused grants r m.asked m'.asked ∧ r.harmless = false

theorem Harmed.of_granted (hg : Granted m.asked m₁.asked) (h : Harmed grants m₁ m') :
    Harmed grants m m' := by
  obtain ⟨r, hr, hharm⟩ := h
  exact ⟨r, hg.refused hr, hharm⟩

theorem Host.world_eq (hgrants : ∀ n, host.grants n = true) (i k : ℕ) :
    host.world i k = host.world i 0 := by
  have hmem : (fun n => host.grants (k + n)) = fun n => host.grants (0 + n) := by
    funext n
    rw [hgrants, hgrants]
  rw [world, world, hmem]

variable {words : Option (List CStr)}

theorem Returned.cons {qs : List (ℕ × CStr)} {k : ℕ} {doGlob : Bool}
    {result : ℕ × Strings} (hg : Granted m.asked m₁.asked)
    (hqs : qs.map Prod.snd = expansion (host.world i k) s doGlob)
    (h : Returned host (ps ++ qs) words bs m₁ result m') :
    Returned host ps (words.map fun rest => expansion (host.world i 0) s doGlob ++ rest) bs m result
      m' := by
  obtain ⟨hret, hg', qs', arr, hholds, ho, hwords⟩ | ⟨hret, hg', ho, hwords⟩ | ⟨hret, hlost⟩ := h
  · rw [append_assoc] at hholds ho
    refine .inl ⟨hret, hg.trans hg', qs ++ qs', arr, hholds, ho, fun hgrants => ?_⟩
    rw [hwords hgrants, map_append, hqs, Host.world_eq hgrants i k]
    rfl
  · exact .inr (.inl ⟨hret, hg.trans hg', ho, by rw [hwords]; rfl⟩)
  · exact .inr (.inr ⟨hret, hlost.of_granted hg⟩)

theorem Failed.release_ends (h : Failed grants ((p, cells) ::ₘ bs) m we m₁) :
    Ends (release p) m₁ fun _ m' => Failed grants bs m we m' := by
  obtain ⟨r, hr, ⟨ps, arr, lost, hholds, ho, hlost⟩ | ⟨hharm, a, rest, ha, hc, ho, hne⟩⟩ := h
  · rw [add_cons, add_cons, add_cons] at ho
    refine (Vlibc.release_ends ho).imp ?_
    rintro _ m₂ ⟨hasked, ho₂⟩
    exact ⟨r, hasked ▸ hr, .inl ⟨ps, arr, lost, hholds, ho₂, hlost⟩⟩
  · rw [add_cons] at ho hne
    refine (Vlibc.release_ends ho).imp ?_
    rintro _ m₂ ⟨hasked, ho₂⟩
    exact ⟨r, hasked ▸ hr, .inr ⟨hharm, a, rest, ha, hc, ho₂,
      fun b hb => hne b (Multiset.mem_cons_of_mem hb)⟩⟩

/-- After a request that is refused, `wordexp` frees the words and returns, or it faults. -/
theorem Failed.wordfree (h : Failed host.grants bs m we m₁)
    (ps : List (ℕ × CStr)) :
    EndsOr (do return (WRDE_NOSPACE, ← wordfree we) : Run (ℕ × Strings)) m₁
      (Returned host ps words bs m) (Harmed host.grants m) := by
  obtain ⟨r, hr, ⟨ps', arr, lost, hholds, ho, hlost⟩ | ⟨hharm, a, rest, ha, hc, ho, hne⟩⟩ := h
  · refine .inl ((freeStrings_ends hholds ho).bind ?_)
    rintro _ m₂ ⟨rfl, hasked, ho₂⟩
    exact .pure (.inr (.inr ⟨rfl, r, lost, hasked ▸ hr, ho₂, hlost⟩))
  · obtain ⟨e, m₂, he, rfl⟩ := freeStrings_faults ha hc ho hne
    exact .inr (Faults.bind ⟨e, m₂, he, r, hr, hharm⟩)

theorem length_rest_lt {home : CStr} {glob : Bool} {text q rest : List UInt8}
    (hne : q.dropWhile isspace ≠ [])
    (h : readWord home .none true [] (q.dropWhile isspace) = some (text, glob, rest)) :
    rest.length < q.length := by
  obtain ⟨hsuffix, hhead⟩ := readWord_rest h
  have hle : (q.dropWhile isspace).length ≤ q.length := (dropWhile_suffix _).length_le
  refine lt_of_lt_of_le (lt_of_le_of_ne hsuffix.length_le fun e => ?_) hle
  have hspace := hhead _ (by rw [hsuffix.eq_of_length e]; exact head?_eq_some_head hne)
  exact absurd hspace (by simpa using head_dropWhile_not isspace hne)

/-- **The loop of `wordexp`** returns, or it faults after a request that was not harmless. -/
theorem wordLoop_outcome (host : Host) (fuel i : ℕ) (q : List UInt8) (hq : q.length < fuel)
    (h0 : 0 ∉ q) (h : Holds we ps arr) (ho : m.heap.Owns (arr + (texts ps + bs))) :
    EndsOr (wordLoop host fuel i q we) m (Returned host ps (expansions host fuel i q) bs m)
      (Harmed host.grants m) := by
  induction fuel generalizing i q we ps arr m with
  | zero => exact absurd hq (Nat.not_lt_zero _)
  | succ fuel ih =>
    rw [wordLoop, expansions]
    dsimp only
    by_cases hend : q.dropWhile isspace = []
    · rw [if_pos hend, if_pos hend]
      refine .inl (.pure (.inl ⟨rfl, .refl _, [], arr, ?_, ?_, fun _ => rfl⟩)) <;>
        rwa [append_nil]
    rw [if_neg hend, if_neg hend]
    have h0' : 0 ∉ q.dropWhile isspace := fun hmem => h0 ((dropWhile_suffix _).mem hmem)
    refine (parseWord_ends host _ h0' ho).bind_or ?_
    rintro (⟨text, doGlob, rest⟩ | _ | _) m₁ hout
    · obtain ⟨s, cells, hword, hg, hs, ho₁⟩ := hout
      rw [hword, Option.bind_some]
      rw [← add_cons, ← add_cons] at ho₁
      refine (doGlobExpand_ends h ho₁ (Multiset.mem_cons_self _ _) hs doGlob).bind_or ?_
      rintro ⟨ok, we₂⟩ m₂ (⟨rfl, hg₂, qs, arr₂, h₂, hqs, ho₂⟩ | ⟨rfl, hfailed⟩)
      · rw [add_cons, add_cons] at ho₂
        refine (release_ends ho₂).bind_or ?_
        rintro _ m₃ ⟨hasked₃, ho₃⟩
        have hlen : rest.length < fuel := by
          have := length_rest_lt hend hword
          omega
        have h0'' : 0 ∉ rest := fun hmem => h0' ((readWord_rest hword).1.mem hmem)
        have hg₃ : Granted m.asked m₃.asked := hasked₃ ▸ hg.trans hg₂
        refine (ih (i + 1) rest hlen h0'' h₂ ho₃).imp (fun result m' hret => ?_)
          fun m' hharm => hharm.of_granted hg₃
        rw [CStr.ofBytes_bytes]
        exact hret.cons hg₃ hqs
      · refine (hfailed.of_granted hg).release_ends.bind_or ?_
        exact fun _ m₃ hfailed => hfailed.wordfree ps
    · obtain ⟨hr, ho₁⟩ := hout
      refine .inl ((freeStrings_ends h ho₁).bind ?_)
      rintro _ m₂ ⟨rfl, hasked, ho₂⟩
      refine .pure (.inr (.inr ⟨rfl, .buffer, 0, hasked ▸ hr, ?_, iff_of_true rfl rfl⟩))
      rwa [zero_add]
    · obtain ⟨hword, hg, ho₁⟩ := hout
      refine .inl ((freeStrings_ends h ho₁).bind ?_)
      rintro _ m₂ ⟨rfl, hasked, ho₂⟩
      exact .pure (.inr (.inl ⟨rfl, hasked ▸ hg, ho₂, by rw [hword]; rfl⟩))

end Vlibc.Wordexp
