import Vlibc.Glob.Expand
import Vlibc.Wordexp.Blocks

/-!
# `glob` and the memory it uses

`glob.c` once more, with the blocks that it allocates and frees. It does what the model without blocks
does (`Glob.glob`), whichever of its requests for memory are refused. After a request that is refused
it returns `GLOB_NOSPACE`, and the paths that it has found by then stay allocated.
-/

namespace Vlibc.Wordexp

open List Multiset

open Fnmatch (fnmatch)
open Glob (GLOB_NOSORT GLOB_NOMATCH GLOB_NOSPACE cmpStr fnmFlags joined opened slash)
open Stdlib (qsort qsort_map qsort_perm)

/-- What a call depends on: the directories; whether the `n`-th allocation succeeds; what lies behind
the terminator of the pattern of the `i`-th word, as in `Glob.World`; and the value of `HOME`. -/
structure Host extends Glob.Directories where
  grants : ℕ → Bool
  behind : ℕ → CStr → CStr → List UInt8
  home : Option CStr

/-- The same for a call of `glob` for the `i`-th word, after `k` requests. -/
def Host.world (host : Host) (i k : ℕ) : Glob.World where
  toDirectories := host.toDirectories
  mem n := host.grants (k + n)
  behind := host.behind i

/-- A string that is an argument: a literal, or in a block. -/
inductive Arg where
  | static (s : CStr)
  | block (p : ℕ)

/-- The string of an argument. -/
def Arg.load : Arg → Run CStr
  | static s => return s
  | block p => loadStr p

/-- `join_path`; `held` is whether `gl_pathv` exists. -/
def joinPath (grants : ℕ → Bool) (held : Bool) (base : Arg) (name : CStr) : Run (Option ℕ) := do
  let base ← base.load
  newString grants (.path held) (joined base name)

/-- `add_match`: the array grows by one entry, and the path goes into it. -/
def addMatch (grants : ℕ → Bool) (g : Strings) (path : ℕ) : Run (Bool × Strings) := do
  match ← realloc grants (.pathArray g.array.isSome) g.array (g.count + 2) with
  | none => return (false, g)
  | some tmp =>
    let dup ← strdup grants .pathText path
    writeAt tmp g.count [dup.elim .null .ptr]
    match dup with
    | none => return (false, ⟨g.count, some tmp⟩)
    | some _ =>
      writeAt tmp (g.count + 1) [.null]
      return (true, ⟨g.count + 1, some tmp⟩)

section Dirs

variable (host : Host) (i flags : ℕ) (expand : Arg → CStr → Strings → Run (ℕ × Strings)) (dir : Arg)
  (pattern : CStr) (rest : Option CStr)

/-- What `handle_dir` does with a name that matches. -/
def handleEntry (g : Strings) (name : CStr) : Run (ℕ × Strings) := do
  match ← joinPath host.grants g.array.isSome dir name with
  | none => return (GLOB_NOSPACE, g)
  | some next =>
    let (ret, g) ← (match rest with
      | some rest => expand (.block next) rest g
      | none => do
        let (ok, g) ← addMatch host.grants g next
        return (if ok then 0 else GLOB_NOSPACE, g))
    release next
    return (ret, g)

/-- The loop of `handle_dir` over the names that `readdir` returns. -/
def entryLoop (path : CStr) : List CStr → Strings → Run (ℕ × Strings)
  | [], g => return (0, g)
  | name :: names, g => do
    if strcmp name (str ".") = 0 ∨ strcmp name (str "..") = 0 then entryLoop path names g
    else if fnmatch pattern (host.behind i path name) name (fnmFlags flags) = 0 then
      let (ret, g) ← handleEntry host expand dir rest g name
      if ret ≠ 0 then return (ret, g) else entryLoop path names g
    else entryLoop path names g

/-- `handle_dir`. -/
def handleDir (g : Strings) : Run (ℕ × Strings) := do
  let path := opened (← dir.load)
  match host.names path with
  | none => return (0, g)
  | some names => entryLoop host i flags expand dir pattern rest path names g

end Dirs

/-- `expand`, for a pattern of less than `fuel` components. -/
def expand (host : Host) (i flags : ℕ) : ℕ → Arg → CStr → Strings → Run (ℕ × Strings)
  | 0, _, _, g => return (0, g)
  | fuel + 1, base, pattern, g =>
    let pattern := pattern.drop (pattern.bytes.takeWhile (· = slash)).length
    match strchr pattern slash with
    | none => handleDir host i flags (expand host i flags fuel) base pattern none g
    | some len =>
      let rest := pattern.drop (len + 1)
      handleDir host i flags (expand host i flags fuel) base (pattern.take len)
        (if rest.bytes = [] then none else some rest) g

/-- The strings of an array and where they are, from the `i`-th on, with `n` left. -/
def loadStrings (array : Option ℕ) : ℕ → ℕ → Run (List (ℕ × CStr))
  | _, 0 => return []
  | i, n + 1 => do
    match ← loadPtr array i with
    | none => throw .dead
    | some p =>
      let s ← loadStr p
      return (p, s) :: (← loadStrings array (i + 1) n)

/-- The call of `qsort` for the array, with `cmp_str`. -/
def sortPaths (g : Strings) : Run Unit := do
  let ps ← loadStrings g.array 0 g.count
  match g.array with
  | none => return
  | some a => writeAt a 0 (pointers (qsort (fun p q => cmpStr p.2 q.2) ps))

/-- `glob`. -/
def glob (host : Host) (i : ℕ) (pattern : CStr) (flags : ℕ) : Run (ℕ × Strings) := do
  let (ret, g) ←
    (if pattern.bytes.head? = some slash then
      expand host i flags (pattern.bytes.length + 1) (.static (str "/")) (pattern.drop 1) .empty
    else expand host i flags (pattern.bytes.length + 1) (.static (str "")) pattern .empty)
  let ret := if ret = 0 ∧ g.count = 0 then GLOB_NOMATCH else ret
  if ret = 0 ∧ flags &&& GLOB_NOSORT = 0 then sortPaths g
  return (ret, g)

/-! ## The paths found so far -/

/-- `glob` goes on: the paths that it has found are those of the model without blocks, and this is the
number of its requests. The other blocks are `bs`. -/
structure At (k : ℕ) (bs : Blocks) (m : Memory Cell Request) (g : Strings) (g' : Glob.GlobT) :
    Prop where
  asked : m.asked.length = k + g'.allocs
  holds : ∃ ps arr, Holds g ps arr ∧ ps.map Prod.snd = g'.pathv ∧ m.heap.Owns (arr + (texts ps + bs))

/-- A request has been refused. Blocks are lost, except if the request was harmless. -/
def Lost (grants : ℕ → Bool) (bs : Blocks) (m m' : Memory Cell Request) : Prop :=
  ∃ r lost, Refused grants r m.asked m'.asked ∧ m'.heap.Owns (lost + bs) ∧
    (lost = 0 ↔ r.harmless = true)

/-- What is returned is what the model without blocks returns. -/
def Agrees (host : Host) (k : ℕ) (bs : Blocks) (m : Memory Cell Request) (model : ℕ × Glob.GlobT)
    (result : ℕ × Strings) (m' : Memory Cell Request) : Prop :=
  result.1 = model.1 ∧
    ((result.1 = 0 ∧ At k bs m' result.2 model.2 ∧ Granted m.asked m'.asked) ∨
      (result.1 = GLOB_NOSPACE ∧ Lost host.grants bs m m'))

/-- The argument is the string `s`. -/
def Arg.Is (base : Arg) (s : CStr) (bs : Blocks) : Prop :=
  match base with
  | static t => t = s
  | block p => ∃ cells, (p, cells) ∈ bs ∧ textOf cells = some s

variable {host : Host} {i k flags : ℕ} {bs bs' arr : Blocks} {m m' m₁ : Memory Cell Request}
  {g : Strings} {g' : Glob.GlobT} {base dir : Arg} {s name pattern : CStr} {rest : Option CStr}
  {ps : List (ℕ × CStr)}

theorem Arg.Is.mono (h : base.Is s bs) (hle : bs ≤ bs') : base.Is s bs' := by
  cases base with
  | static t => exact h
  | block p =>
    obtain ⟨cells, hmem, hs⟩ := h
    exact ⟨cells, mem_of_le hle hmem, hs⟩

theorem Arg.load_ends (h : base.Is s bs) (ho : m.heap.Owns bs) :
    Ends base.load m fun s' m' => s' = s ∧ m' = m := by
  cases base with
  | static t => exact .pure ⟨h, rfl⟩
  | block p =>
    obtain ⟨cells, hmem, hs⟩ := h
    exact loadStr_ends ho hmem hs

theorem At.mem_eq (h : At k bs m g g') (i n : ℕ) :
    (host.world i k).mem (g'.allocs + n) = host.grants (m.asked.length + n) := by
  rw [h.asked, add_assoc]
  rfl

theorem Holds.eq_zero_iff (h : Holds g ps arr) : arr + texts ps = 0 ↔ g.array.isSome = false := by
  cases h with
  | empty => exact iff_of_true rfl rfl
  | @strings a ps _ =>
    refine iff_of_false (fun e => ?_) (fun e => Bool.noConfusion e)
    rw [singleton_add] at e
    exact cons_ne_zero e

theorem Holds.lost (h : Holds g ps arr) (hg : host.grants m.asked.length = false)
    (ho : m'.heap.Owns (arr + (texts ps + bs))) {r : Request}
    (hasked : m'.asked = m.asked ++ [(r, false)]) (hr : r.harmless = !g.array.isSome) :
    Lost host.grants bs m m' := by
  refine ⟨r, arr + texts ps, hasked ▸ refused_concat hg r, by rwa [add_assoc], ?_⟩
  rw [h.eq_zero_iff, hr, Bool.not_eq_true']

theorem Lost.of_granted (hg : Granted m.asked m₁.asked) (h : Lost host.grants bs m₁ m') :
    Lost host.grants bs m m' := by
  obtain ⟨r, lost, hr, ho, hlost⟩ := h
  exact ⟨r, lost, hg.refused hr, ho, hlost⟩

variable {cells : List Cell}

/-- **`add_match`** adds a path, or a request is refused. -/
theorem addMatch_ends {path : ℕ} (h : At k bs m g g') (hmem : (path, cells) ∈ bs)
    (hs : textOf cells = some s) :
    Ends (addMatch host.grants g path) m fun result m' =>
      result.1 = (Glob.addMatch (host.world i k) g' s).1 ∧
      ((result.1 = true ∧ At k bs m' result.2 (Glob.addMatch (host.world i k) g' s).2 ∧
          Granted m.asked m'.asked) ∨
        (result.1 = false ∧ Lost host.grants bs m m')) := by
  have hmem₀ : (host.world i k).mem g'.allocs = host.grants m.asked.length := h.mem_eq i 0
  have hmem₁ : (host.world i k).mem (g'.allocs + 1) = host.grants (m.asked.length + 1) := h.mem_eq i 1
  obtain ⟨hasked, ps, arr, hholds, htexts, ho⟩ := h
  refine (realloc_array_ends hholds ho _).bind ?_
  rintro _ m₁ (⟨hg, hasked₁, hheap⟩ | ⟨new, hg, hasked₁, -, c, ho₁⟩)
  · refine .pure ⟨?_, .inr ⟨rfl, hholds.lost hg (hheap ▸ ho) hasked₁ rfl⟩⟩
    simp [Glob.addMatch, hmem₀, hg]
  have hlen₁ : m₁.asked.length = m.asked.length + 1 := by simp [hasked₁]
  have hpath : (path, cells) ∈ (new, pointers ps ++ [c, .junk]) ::ₘ (texts ps + bs) :=
    Multiset.mem_cons_of_mem (mem_add.2 (.inr hmem))
  rw [hholds.count_eq]
  refine (strdup_ends ho₁ hpath hs _).bind ?_
  rintro _ m₂ (⟨hg₂, hasked₂, hheap⟩ | ⟨p, hg₂, hasked₂, ho₂⟩)
  · -- the array has been enlarged, and holds a null pointer for the path
    rw [← hheap] at ho₁
    refine (writeAt_pointer_ends ho₁).bind ?_
    rintro _ m₃ ⟨hasked₃, ho₃⟩
    rw [hlen₁] at hg₂
    refine .pure ⟨?_, .inr ⟨rfl, .pathText, (new, pointers ps ++ [.null, .junk]) ::ₘ texts ps, ?_, ?_,
      ?_⟩⟩
    · simp [Glob.addMatch, hmem₀, hmem₁, hg, hg₂]
    · rw [hasked₃, hasked₂, hasked₁]
      exact (granted_concat _ _).refused (refused_concat (by simpa using hg₂) _)
    · rw [cons_add]
      exact ho₃
    · exact iff_of_false cons_ne_zero Bool.false_ne_true
  · rw [cons_swap] at ho₂
    refine (writeAt_pointer_ends ho₂).bind ?_
    rintro _ m₃ ⟨hasked₃, ho₃⟩
    refine (writeAt_null_ends (p, s) ho₃).bind ?_
    rintro _ m₄ ⟨hasked₄, arr', hholds', ho₄⟩
    rw [hlen₁] at hg₂
    have hmodel : Glob.addMatch (host.world i k) g' s = (true, ⟨g'.pathv ++ [s], g'.allocs + 2⟩) := by
      simp [Glob.addMatch, hmem₀, hmem₁, hg, hg₂]
    rw [hmodel]
    refine .pure ⟨rfl, .inl ⟨rfl, ⟨?_, ps ++ [(p, s)], arr', hholds', ?_, ho₄⟩, ?_⟩⟩
    · rw [hasked₄, hasked₃, hasked₂, length_append, hlen₁, hasked]
      rfl
    · rw [map_append, htexts]
      rfl
    · rw [hasked₄, hasked₃, hasked₂, hasked₁]
      exact (granted_concat _ _).trans (granted_concat _ _)

/-! ## The loops -/

/-- A function that goes on with the rest of a pattern does what its model does. -/
def Simulates (host : Host) (k : ℕ) (ex : Arg → CStr → Strings → Run (ℕ × Strings))
    (model : CStr → CStr → Glob.GlobT → ℕ × Glob.GlobT) : Prop :=
  ∀ bs m g g' (base : Arg) s r, At k bs m g g' → base.Is s bs →
    Ends (ex base r g) m (Agrees host k bs m (model s r g'))

theorem joinPath_ends (h : At k bs m g g') (hdir : dir.Is s bs) (name : CStr) :
    Ends (joinPath host.grants g.array.isSome dir name) m fun answer m' =>
      (answer = none ∧ (host.world i k).mem g'.allocs = false ∧ Lost host.grants bs m m') ∨
      (∃ next, answer = some next ∧ (host.world i k).mem g'.allocs = true ∧
        Granted m.asked m'.asked ∧
        At k ((next, cstring (joined s name)) ::ₘ bs) m' g { g' with allocs := g'.allocs + 1 }) := by
  have hmem : (host.world i k).mem g'.allocs = host.grants m.asked.length := h.mem_eq i 0
  obtain ⟨hasked, ps, arr, hholds, htexts, ho⟩ := h
  have hdir' : dir.Is s (arr + (texts ps + bs)) :=
    hdir.mono ((Multiset.le_add_left _ _).trans (Multiset.le_add_left _ _))
  rw [hmem]
  refine (Arg.load_ends hdir' ho).bind ?_
  rintro _ _ ⟨rfl, rfl⟩
  refine (newString_ends ho _ _).imp ?_
  rintro _ m₁ (⟨hg, hasked₁, hheap⟩ | ⟨next, hg, hasked₁, ho₁⟩)
  · exact .inl ⟨rfl, hg, hholds.lost hg (hheap ▸ ho) hasked₁ rfl⟩
  · refine .inr ⟨next, rfl, hg, hasked₁ ▸ granted_concat _ _, ?_, ps, arr, hholds, htexts, ?_⟩
    · rw [hasked₁, length_append, hasked]
      rfl
    · rwa [add_cons, add_cons]

theorem Agrees.release {next : ℕ} {model : ℕ × Glob.GlobT}
    {result : ℕ × Strings} (h : Agrees host k ((next, cells) ::ₘ bs) m₁ model result m')
    (hg : Granted m.asked m₁.asked) :
    Ends (do release next; return result : Run (ℕ × Strings)) m' (Agrees host k bs m model) := by
  obtain ⟨hret, ⟨h0, ⟨hasked, ps, arr, hholds, htexts, ho⟩, hg'⟩ | ⟨hnospace, r, lost, hr, ho, hlost⟩⟩ := h
  · rw [add_cons, add_cons] at ho
    refine (release_ends ho).bind ?_
    rintro _ m₂ ⟨hasked₂, ho₂⟩
    refine .pure ⟨hret, .inl ⟨h0, ⟨?_, ps, arr, hholds, htexts, ho₂⟩, ?_⟩⟩
    · rw [hasked₂, hasked]
    · rw [hasked₂]
      exact hg.trans hg'
  · rw [add_cons] at ho
    refine (release_ends ho).bind ?_
    rintro _ m₂ ⟨hasked₂, ho₂⟩
    refine .pure ⟨hret, .inr ⟨hnospace, r, lost, ?_, ho₂, hlost⟩⟩
    rw [hasked₂]
    exact hg.refused hr

variable {ex : Arg → CStr → Strings → Run (ℕ × Strings)}
  {model : CStr → CStr → Glob.GlobT → ℕ × Glob.GlobT}

theorem handleEntry_ends (hex : Simulates host k ex model) (h : At k bs m g g') (hdir : dir.Is s bs)
    (rest : Option CStr) (name : CStr) :
    Ends (handleEntry host ex dir rest g name) m
      (Agrees host k bs m (Glob.handleEntry (host.world i k) model s rest g' name)) := by
  refine (joinPath_ends (i := i) h hdir name).bind ?_
  rintro _ m₁ (⟨rfl, hmem, hlost⟩ | ⟨next, rfl, hmem, hg, h₁⟩)
  · have hmodel : Glob.handleEntry (host.world i k) model s rest g' name =
        (GLOB_NOSPACE, { g' with allocs := g'.allocs + 1 }) := by
      simp [Glob.handleEntry, Glob.joinPath, hmem]
    rw [hmodel]
    exact .pure ⟨rfl, .inr ⟨rfl, hlost⟩⟩
  have hnext : (next, cstring (joined s name)) ∈ (next, cstring (joined s name)) ::ₘ bs :=
    Multiset.mem_cons_self _ _
  cases rest with
  | some r =>
    have hmodel : Glob.handleEntry (host.world i k) model s (some r) g' name =
        model (joined s name) r { g' with allocs := g'.allocs + 1 } := by
      simp [Glob.handleEntry, Glob.joinPath, hmem]
    rw [hmodel]
    refine (hex _ _ _ _ (.block next) _ r h₁ ⟨_, hnext, textOf_cstring _⟩).bind ?_
    exact fun result m₂ hagrees => hagrees.release hg
  | none =>
    have hadd : Ends (do
          let (ok, g) ← addMatch host.grants g next
          return (if ok then 0 else GLOB_NOSPACE, g) : Run (ℕ × Strings)) m₁
        (Agrees host k ((next, cstring (joined s name)) ::ₘ bs) m₁
          (Glob.handleEntry (host.world i k) model s none g' name)) := by
      refine (addMatch_ends (i := i) h₁ hnext (textOf_cstring _)).bind ?_
      rintro ⟨ok, g₂⟩ m₂ ⟨hok, hcases⟩
      have hmodel : Glob.handleEntry (host.world i k) model s none g' name =
          (if ok then 0 else GLOB_NOSPACE, (Glob.addMatch (host.world i k)
            { g' with allocs := g'.allocs + 1 } (joined s name)).2) := by
        simp [Glob.handleEntry, Glob.joinPath, hmem, ← hok]
      rw [hmodel]
      refine .pure ⟨rfl, ?_⟩
      obtain ⟨rfl, hat, hg₂⟩ | ⟨rfl, hlost⟩ := hcases
      · exact .inl ⟨rfl, hat, hg₂⟩
      · exact .inr ⟨rfl, hlost⟩
    exact hadd.bind fun result m₂ hagrees => hagrees.release hg

theorem entryLoop_ends (hex : Simulates host k ex model) (hdir : dir.Is s bs) (names : List CStr)
    (h : At k bs m g g') :
    Ends (entryLoop host i flags ex dir pattern rest (opened s) names g) m
      (Agrees host k bs m (Glob.entryLoop (host.world i k) flags model s pattern rest names g')) := by
  induction names generalizing m g g' with
  | nil => exact .pure ⟨rfl, .inl ⟨rfl, h, .refl _⟩⟩
  | cons name names ih =>
    rw [entryLoop, Glob.entryLoop]
    by_cases hdot : strcmp name (str ".") = 0 ∨ strcmp name (str "..") = 0
    · rw [if_pos hdot, if_pos hdot]
      exact ih h
    rw [if_neg hdot, if_neg hdot]
    by_cases hm : fnmatch pattern (host.behind i (opened s) name) name (fnmFlags flags) = 0
    · have hm' : fnmatch pattern ((host.world i k).behind (opened s) name) name (fnmFlags flags) = 0 :=
        hm
      rw [if_pos hm, if_pos hm']
      refine (handleEntry_ends (i := i) hex h hdir rest name).bind ?_
      rintro ⟨ret, g₁⟩ m₁ ⟨hret, hcases⟩
      generalize Glob.handleEntry (host.world i k) model s rest g' name = result at hret hcases
      obtain ⟨ret', g₁'⟩ := result
      obtain rfl : ret = ret' := hret
      obtain ⟨rfl, hat, hg⟩ | ⟨rfl, hlost⟩ := hcases
      · refine (ih hat).imp ?_
        rintro _ m₂ ⟨hret₂, ⟨h0, hat₂, hg₂⟩ | ⟨hn, hlost⟩⟩
        · exact ⟨hret₂, .inl ⟨h0, hat₂, hg.trans hg₂⟩⟩
        · exact ⟨hret₂, .inr ⟨hn, hlost.of_granted hg⟩⟩
      · exact .pure ⟨rfl, .inr ⟨rfl, hlost⟩⟩
    · have hm' : ¬ fnmatch pattern ((host.world i k).behind (opened s) name) name (fnmFlags flags) = 0 :=
        hm
      rw [if_neg hm, if_neg hm']
      exact ih h

theorem handleDir_ends (hex : Simulates host k ex model) (hdir : dir.Is s bs) (h : At k bs m g g')
    (pattern : CStr) (rest : Option CStr) :
    Ends (handleDir host i flags ex dir pattern rest g) m
      (Agrees host k bs m (Glob.handleDir (host.world i k) flags model s pattern rest g')) := by
  obtain ⟨ps, arr, -, -, ho⟩ := h.holds
  have hdir' : dir.Is s (arr + (texts ps + bs)) :=
    hdir.mono ((Multiset.le_add_left _ _).trans (Multiset.le_add_left _ _))
  refine (Arg.load_ends hdir' ho).bind ?_
  rintro d _ ⟨rfl, rfl⟩
  rw [Glob.handleDir, show (host.world i k).names = host.names from rfl]
  dsimp only
  cases host.names (opened d) with
  | none => exact .pure ⟨rfl, .inl ⟨rfl, h, .refl _⟩⟩
  | some names => exact entryLoop_ends hex hdir names h

theorem expand_simulates (host : Host) (i k flags fuel : ℕ) :
    Simulates host k (expand host i flags fuel) (Glob.expand (host.world i k) flags fuel) := by
  induction fuel with
  | zero =>
    intro bs m g g' base s r h hbase
    exact .pure ⟨rfl, .inl ⟨rfl, h, .refl _⟩⟩
  | succ fuel ih =>
    intro bs m g g' base s r h hbase
    rw [expand, Glob.expand]
    cases strchr (r.drop (r.bytes.takeWhile (· = slash)).length) slash with
    | none | some len => exact handleDir_ends ih hbase h _ _

/-! ## `glob` -/

variable {ps ps' : List (ℕ × CStr)}

theorem texts_perm (h : ps.Perm ps') : texts ps = texts ps' :=
  coe_eq_coe.2 (h.map _)

theorem loadStrings_ends {a : ℕ} (ps rest : List (ℕ × CStr))
    (ho : m.heap.Owns bs) (harray : (a, pointers (ps ++ rest) ++ cells) ∈ bs)
    (hrest : ∀ q ∈ rest, (q.1, cstring q.2) ∈ bs) :
    Ends (loadStrings (some a) ps.length rest.length) m fun result m' => result = rest ∧ m' = m := by
  induction rest generalizing ps m with
  | nil => exact .pure ⟨rfl, rfl⟩
  | cons q rest ih =>
    obtain ⟨hq, hrest⟩ := List.forall_mem_cons.1 hrest
    refine (loadPtr_ends ho harray).bind ?_
    rintro _ m ⟨rfl, rfl⟩
    refine (loadStr_ends ho hq (textOf_cstring q.2)).bind ?_
    rintro _ m ⟨rfl, rfl⟩
    have hsplit : ps ++ q :: rest = ps ++ [q] ++ rest := by simp
    rw [hsplit] at harray
    have hnext := ih (ps ++ [q]) ho harray hrest
    rw [length_append] at hnext
    refine hnext.bind ?_
    rintro _ m ⟨rfl, rfl⟩
    exact .pure ⟨rfl, rfl⟩

theorem writeAt_pointers_ends {a : ℕ}
    (ho : m.heap.Owns ((a, pointers ps ++ cells) ::ₘ bs)) (hlen : ps'.length = ps.length) :
    Ends (writeAt a 0 (pointers ps')) m fun _ m' =>
      m'.asked = m.asked ∧ m'.heap.Owns ((a, pointers ps' ++ cells) ::ₘ bs) := by
  have hlen' : (pointers ps').length = (pointers ps).length := by simpa [pointers] using hlen
  refine (writeAt_ends ho _ _ ?_).imp ?_
  · simp [hlen']
  · rintro _ m₁ ⟨hasked, ho₁⟩
    rw [zero_add, hlen', drop_left] at ho₁
    exact ⟨hasked, ho₁⟩

theorem sortPaths_ends (h : Holds g ps arr) (ho : m.heap.Owns (arr + (texts ps + bs))) :
    Ends (sortPaths g) m fun _ m' => m'.asked = m.asked ∧
      ∃ ps' arr', Holds g ps' arr' ∧ ps'.map Prod.snd = qsort cmpStr (ps.map Prod.snd) ∧
        m'.heap.Owns (arr' + (texts ps' + bs)) := by
  cases h with
  | empty => exact .pure ⟨rfl, [], 0, .empty, rfl, ho⟩
  | @strings a ps h =>
    have ho : m.heap.Owns ((a, pointers ([] ++ ps) ++ [.null]) ::ₘ (texts ps + bs)) := ho
    have htexts : ∀ q ∈ ps, (q.1, cstring q.2) ∈ (a, pointers ([] ++ ps) ++ [.null]) ::ₘ
        (texts ps + bs) := fun q hq => Multiset.mem_cons_of_mem
      (mem_add.2 (.inl (mem_coe.2 (List.mem_map.2 ⟨q, hq, rfl⟩))))
    refine (loadStrings_ends [] ps ho (Multiset.mem_cons_self _ _) htexts).bind ?_
    rintro qs m ⟨rfl, rfl⟩
    have hperm := qsort_perm (fun p q : ℕ × CStr => cmpStr p.2 q.2) qs
    refine (writeAt_pointers_ends ho hperm.length_eq).imp ?_
    rintro _ m₁ ⟨hasked, ho₁⟩
    rw [← texts_perm hperm] at ho₁
    have hne : qsort (fun p q : ℕ × CStr => cmpStr p.2 q.2) qs ≠ [] := fun e =>
      h (Perm.eq_nil (e ▸ hperm.symm))
    have hholds := Holds.strings (a := a) hne
    rw [hperm.length_eq] at hholds
    refine ⟨hasked, _, _, hholds, (qsort_map Prod.snd cmpStr qs).symm, ?_⟩
    exact ho₁

theorem expand_start_ends (host : Host) (i : ℕ) (pattern : CStr) (flags : ℕ)
    (ho : m.heap.Owns bs) :
    Ends (if pattern.bytes.head? = some slash then
        expand host i flags (pattern.bytes.length + 1) (.static (str "/")) (pattern.drop 1) .empty
      else expand host i flags (pattern.bytes.length + 1) (.static (str "")) pattern .empty) m
      (Agrees host m.asked.length bs m (if pattern.bytes.head? = some slash then
          Glob.expand (host.world i m.asked.length) flags (pattern.bytes.length + 1) (str "/")
            (pattern.drop 1) ⟨[], 0⟩
        else Glob.expand (host.world i m.asked.length) flags (pattern.bytes.length + 1) (str "")
          pattern ⟨[], 0⟩)) := by
  have hstart : At m.asked.length bs m .empty ⟨[], 0⟩ := ⟨rfl, [], 0, .empty, rfl, by simpa [texts]⟩
  have hsim := expand_simulates host i m.asked.length flags (pattern.bytes.length + 1)
  by_cases hroot : pattern.bytes.head? = some slash
  · rw [if_pos hroot, if_pos hroot]
    exact hsim bs m _ _ (.static (str "/")) _ _ hstart rfl
  · rw [if_neg hroot, if_neg hroot]
    exact hsim bs m _ _ (.static (str "")) _ _ hstart rfl

/-- **`glob`** returns what the model without blocks returns. If it finds paths, they are allocated; if
it finds none, nothing is; and if a request is refused, what it has found by then is lost. -/
theorem glob_ends (host : Host) (i : ℕ) (pattern : CStr) (flags : ℕ) (ho : m.heap.Owns bs) :
    Ends (glob host i pattern flags) m fun result m' =>
      result.1 = (Glob.glob (host.world i m.asked.length) (some pattern) flags).1 ∧
      ((result.1 = 0 ∧ Granted m.asked m'.asked ∧ ∃ ps arr, Holds result.2 ps arr ∧
          ps.map Prod.snd = (Glob.glob (host.world i m.asked.length) (some pattern) flags).2 ∧
          m'.heap.Owns (arr + (texts ps + bs))) ∨
        (result.1 = GLOB_NOMATCH ∧ Granted m.asked m'.asked ∧ m'.heap.Owns bs) ∨
        (result.1 = GLOB_NOSPACE ∧ Lost host.grants bs m m')) := by
  have hexpand := expand_start_ends host i pattern flags ho
  rw [Glob.glob]
  generalize (if pattern.bytes.head? = some slash then
      Glob.expand (host.world i m.asked.length) flags (pattern.bytes.length + 1) (str "/")
        (pattern.drop 1) ⟨[], 0⟩
    else Glob.expand (host.world i m.asked.length) flags (pattern.bytes.length + 1) (str "")
      pattern ⟨[], 0⟩) = model at hexpand ⊢
  obtain ⟨ret', g'⟩ := model
  refine hexpand.bind ?_
  rintro ⟨ret, g⟩ m₁ ⟨hret, hcases⟩
  dsimp only at hret hcases ⊢
  subst hret
  obtain ⟨rfl, ⟨-, ps, arr, hholds, htexts, ho₁⟩, hg⟩ | ⟨rfl, hlost⟩ := hcases
  · cases hholds with
    | empty =>
      rw [← htexts]
      exact .pure ⟨rfl, .inr (.inl ⟨rfl, hg, by simpa [texts] using ho₁⟩)⟩
    | @strings a ps hne =>
      have hpaths : g'.pathv ≠ [] := by
        rw [← htexts]
        simpa using hne
      simp only [true_and, hpaths, length_eq_zero_iff, hne, if_false]
      by_cases hsort : flags &&& GLOB_NOSORT = 0
      · rw [if_pos hsort, if_pos hsort]
        refine (sortPaths_ends (.strings hne) ho₁).bind ?_
        rintro _ m₂ ⟨hasked, ps', arr', hholds, htexts', ho₂⟩
        rw [htexts] at htexts'
        exact .pure ⟨rfl, .inl ⟨rfl, hasked ▸ hg, ps', arr', hholds, htexts', ho₂⟩⟩
      · rw [if_neg hsort, if_neg hsort]
        exact .pure ⟨rfl, .inl ⟨rfl, hg, ps, _, .strings hne, htexts, ho₁⟩⟩
  · exact .pure ⟨rfl, .inr (.inr ⟨rfl, hlost⟩)⟩

end Vlibc.Wordexp
