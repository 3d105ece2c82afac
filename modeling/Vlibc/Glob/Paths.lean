import Vlibc.Glob.Expand

/-!
# The paths that `glob` returns

A pattern is a list of components, and a path is a list of names, one for each component: each name
is an entry of the directory that the names before it lead to, and matches its component (`Leads`).
`expand` goes through the components and finds the paths in the order in which `readdir` returns the
names (`expand_eq`).
-/

namespace Vlibc.Glob

open List Option

open Fnmatch (fnmatch fnmatch_plain wildcards)
open Stdlib (qsort qsort_perm IsComparison)

/-- Names or components with slashes between them. -/
def slashed : List CStr → CStr
  | [] => str ""
  | [c] => c
  | c :: d :: cs => (c.append (str "/")).append (slashed (d :: cs))

/-- The path of the names, with a slash at the beginning if `lead`. -/
def pathOf (lead : Bool) (cs : List CStr) : CStr :=
  if lead then (str "/").append (slashed cs) else slashed cs

/-- The directory of a path. -/
def dirOf (lead : Bool) (cs : List CStr) : CStr :=
  if cs = [] ∧ lead = false then str "." else pathOf lead cs

/-- A component of a pattern, or a name. -/
structure IsName (c : CStr) : Prop where
  ne_nil : c.bytes ≠ []
  noSlash : slash ∉ c.bytes

/-- The name is an entry of the directory, other than `.` and `..`, and matches the component. -/
structure Fits (w : World) (flags : ℕ) (dir pattern name : CStr) : Prop where
  entry : ∃ l, w.names dir = some l ∧ name ∈ l
  ne_dot : name ≠ str "."
  ne_dotdot : name ≠ str ".."
  fnmatch_eq : fnmatch pattern (w.behind dir name) name (fnmFlags flags) = 0

/-- From where the names `done` lead, the names `cs` lead on, one for each component. -/
def Leads (w : World) (flags : ℕ) (lead : Bool) : List CStr → List CStr → List CStr → Prop
  | _, [], [] => True
  | done, p :: ps, c :: cs =>
    Fits w flags (dirOf lead done) p c ∧ Leads w flags lead (done ++ [c]) ps cs
  | _, _, _ => False

variable {c : CStr} {cs cs' done : List CStr} {lead : Bool}

theorem bytes_slashed_cons (c : CStr) (hne : cs ≠ []) :
    (slashed (c :: cs)).bytes = c.bytes ++ slash :: (slashed cs).bytes := by
  cases cs with
  | nil => exact absurd rfl hne
  | cons d cs =>
    simp only [slashed, CStr.bytes_append, append_assoc]
    rfl

theorem bytes_slashed_concat (done : List CStr) (c : CStr) :
    (slashed (done ++ [c])).bytes =
      (slashed done).bytes ++ ((if done = [] then [] else [slash]) ++ c.bytes) := by
  induction done with
  | nil => rfl
  | cons d done ih =>
    rw [cons_append, bytes_slashed_cons d (by simp), ih, if_neg (cons_ne_nil d done)]
    cases done with
    | nil => rfl
    | cons e done =>
      rw [bytes_slashed_cons d (cons_ne_nil e done), if_neg (cons_ne_nil e done)]
      simp

theorem strchr_slashed (hc : IsName c) (hne : cs ≠ []) :
    strchr (slashed (c :: cs)) slash = some c.bytes.length :=
  strchr_eq_some (by decide) (bytes_slashed_cons c hne) hc.noSlash

theorem slashed_injective (h : ∀ c ∈ cs, IsName c) (h' : ∀ c ∈ cs', IsName c)
    (hlen : cs.length = cs'.length) (e : slashed cs = slashed cs') : cs = cs' := by
  induction cs generalizing cs' with
  | nil => exact (length_eq_zero_iff.1 hlen.symm).symm
  | cons c cs ih =>
    obtain ⟨c', cs', rfl⟩ := exists_cons_of_length_eq_add_one hlen.symm
    have hlen' : cs.length = cs'.length := Nat.succ.inj hlen
    obtain ⟨hc, hcs⟩ := forall_mem_cons.1 h
    obtain ⟨hc', hcs'⟩ := forall_mem_cons.1 h'
    by_cases hne : cs = []
    · subst hne
      obtain rfl := length_eq_zero_iff.1 hlen'.symm
      exact congrArg (· :: []) e
    · have hne' : cs' ≠ [] := fun h => hne (length_eq_zero_iff.1 (by rw [hlen', h]; rfl))
      have hsplit : c.bytes.length = c'.bytes.length :=
        some.inj ((strchr_slashed hc hne).symm.trans (e ▸ strchr_slashed hc' hne'))
      have hbytes : c.bytes ++ slash :: (slashed cs).bytes =
          c'.bytes ++ slash :: (slashed cs').bytes := by
        rw [← bytes_slashed_cons c hne, ← bytes_slashed_cons c' hne', e]
      obtain ⟨hfirst, hrest⟩ := append_inj hbytes hsplit
      rw [CStr.ext hfirst, ih hcs hcs' hlen' (CStr.ext (cons.inj hrest).2)]

theorem pathOf_injective (h : ∀ c ∈ cs, IsName c) (h' : ∀ c ∈ cs', IsName c)
    (hlen : cs.length = cs'.length) (e : pathOf lead cs = pathOf lead cs') : cs = cs' := by
  refine slashed_injective h h' hlen ?_
  cases lead with
  | false => exact e
  | true => exact CStr.ext (append_cancel_left (congrArg CStr.bytes e))

theorem bytes_pathOf (lead : Bool) (cs : List CStr) :
    (pathOf lead cs).bytes = (if lead then [slash] else []) ++ (slashed cs).bytes := by
  cases lead <;> rfl

theorem getLast?_pathOf_concat (hc : IsName c) (lead : Bool) (done : List CStr) :
    ∃ b, b ≠ slash ∧ (pathOf lead (done ++ [c])).bytes.getLast? = some b := by
  obtain ⟨b, hb⟩ := ne_none_iff_exists'.1 (mt getLast?_eq_none_iff.1 hc.ne_nil)
  refine ⟨b, fun e => hc.noSlash (e ▸ mem_of_getLast? hb), ?_⟩
  rw [bytes_pathOf, bytes_slashed_concat, ← append_assoc, ← append_assoc, getLast?_append, hb]
  rfl

theorem joined_pathOf (hdone : ∀ c ∈ done, IsName c) (lead : Bool) (c : CStr) :
    joined (pathOf lead done) c = pathOf lead (done ++ [c]) := by
  obtain rfl | ⟨init, d, rfl⟩ := eq_nil_or_concat' done
  · cases lead with
    | false => rfl
    | true =>
      rw [joined, if_neg (by decide)]
      rfl
  · obtain ⟨b, hb, hlast⟩ := getLast?_pathOf_concat (hdone d (by simp)) lead init
    have hne : (pathOf lead (init ++ [d])).bytes ≠ [] := fun e => by
      rw [e] at hlast
      cases hlast
    rw [joined, if_pos ⟨hne, by rw [hlast]; exact fun e => hb (some.inj e)⟩]
    refine CStr.ext ?_
    rw [bytes_pathOf, bytes_slashed_concat (init ++ [d]),
      if_neg (show init ++ [d] ≠ [] by simp), ← append_assoc, ← bytes_pathOf, ← append_assoc]
    rfl

theorem opened_pathOf (hdone : ∀ c ∈ done, IsName c) (lead : Bool) :
    opened (pathOf lead done) = dirOf lead done := by
  obtain rfl | ⟨init, d, rfl⟩ := eq_nil_or_concat' done
  · cases lead <;> rfl
  · obtain ⟨b, -, hlast⟩ := getLast?_pathOf_concat (hdone d (by simp)) lead init
    have hne : (pathOf lead (init ++ [d])).bytes ≠ [] := fun e => by
      rw [e] at hlast
      cases hlast
    rw [opened, if_neg hne, dirOf, if_neg (by simp)]

/-! ## What `expand` finds -/

/-- The names in the directory that match, in the order of `readdir`. -/
def matching (w : World) (flags : ℕ) (dir pattern : CStr) : List CStr :=
  ((w.names dir).getD []).filter fun c =>
    decide (c ≠ str "." ∧ c ≠ str ".." ∧ fnmatch pattern (w.behind dir c) c (fnmFlags flags) = 0)

/-- The names that lead on, for each path, in the order in which they are found. -/
def found (w : World) (flags : ℕ) (lead : Bool) : List CStr → List CStr → List (List CStr)
  | _, [] => [[]]
  | done, p :: ps =>
    (matching w flags (dirOf lead done) p).flatMap fun c =>
      (found w flags lead (done ++ [c]) ps).map (c :: ·)

variable {w : World} {flags : ℕ} {dir p : CStr} {ps : List CStr}

theorem mem_matching_iff : c ∈ matching w flags dir p ↔ Fits w flags dir p c := by
  rw [matching, mem_filter, decide_eq_true_eq]
  constructor
  · rintro ⟨hmem, h1, h2, h3⟩
    cases hl : w.names dir with
    | none => simp [hl] at hmem
    | some l => exact ⟨⟨l, hl, by simpa [hl] using hmem⟩, h1, h2, h3⟩
  · rintro ⟨⟨l, hl, hmem⟩, h1, h2, h3⟩
    exact ⟨by simpa [hl] using hmem, h1, h2, h3⟩

theorem Fits.isName (h : Fits w flags dir p c) : IsName c := by
  obtain ⟨l, hl, hmem⟩ := h.entry
  exact ⟨w.ne_nil dir l hl c hmem, w.noSlash dir l hl c hmem⟩

theorem nodup_matching (w : World) (flags : ℕ) (dir p : CStr) : (matching w flags dir p).Nodup := by
  refine Nodup.filter _ ?_
  cases hl : w.names dir with
  | none => exact nodup_nil
  | some l => exact w.nodup dir l hl

/-- **What is found** are the names that lead on. -/
theorem mem_found_iff : cs ∈ found w flags lead done ps ↔ Leads w flags lead done ps cs := by
  induction ps generalizing done cs with
  | nil => cases cs <;> simp [found, Leads]
  | cons p ps ih =>
    cases cs with
    | nil => simp [found, Leads]
    | cons c cs =>
      simp only [found, Leads, mem_flatMap, List.mem_map, cons.injEq, mem_matching_iff, ih]
      constructor
      · rintro ⟨c', hc, cs', hcs, rfl, rfl⟩
        exact ⟨hc, hcs⟩
      · rintro ⟨hc, hcs⟩
        exact ⟨c, hc, cs, hcs, rfl, rfl⟩

theorem nodup_found (w : World) (flags : ℕ) (lead : Bool) (done ps : List CStr) :
    (found w flags lead done ps).Nodup := by
  induction ps generalizing done with
  | nil => exact nodup_singleton _
  | cons p ps ih =>
    refine nodup_flatMap.2 ⟨fun c _ => (ih _).map fun _ _ e => (cons.inj e).2, ?_⟩
    refine (nodup_matching w flags _ p).imp fun hne => disjoint_left.2 fun l hl hl' => ?_
    obtain ⟨cs, -, rfl⟩ := List.mem_map.1 hl
    obtain ⟨cs', -, e⟩ := List.mem_map.1 hl'
    exact hne (cons.inj e).1.symm

theorem Leads.names (h : Leads w flags lead done ps cs) :
    cs.length = ps.length ∧ ∀ c ∈ cs, IsName c := by
  induction ps generalizing done cs with
  | nil =>
    cases cs with
    | nil => exact ⟨rfl, fun c hc => absurd hc not_mem_nil⟩
    | cons c cs => exact h.elim
  | cons p ps ih =>
    cases cs with
    | nil => exact h.elim
    | cons c cs =>
      obtain ⟨hlen, hcs⟩ := ih h.2
      exact ⟨congrArg (· + 1) hlen, forall_mem_cons.2 ⟨h.1.isName, hcs⟩⟩

section Loops

variable {g : GlobT} {ex : CStr → CStr → GlobT → ℕ × GlobT} {rest : Option CStr}

theorem handleEntry_last (hmem : ∀ n, w.mem n = true) (ex : CStr → CStr → GlobT → ℕ × GlobT)
    (g : GlobT) (c : CStr) :
    ∃ g', handleEntry w ex dir none g c = (0, g') ∧ g'.pathv = g.pathv ++ [joined dir c] := by
  refine ⟨⟨g.pathv ++ [joined dir c], g.allocs + 1 + 2⟩, ?_, rfl⟩
  simp [handleEntry, joinPath, addMatch, hmem]

theorem handleEntry_more (hmem : ∀ n, w.mem n = true) (g : GlobT) (c r : CStr) :
    handleEntry w ex dir (some r) g c = ex (joined dir c) r { g with allocs := g.allocs + 1 } := by
  simp [handleEntry, joinPath, hmem]

variable {f : CStr → List CStr}

/-- **The loop of `handle_dir`** collects what is found for each name that matches. -/
theorem entryLoop_eq (names : List CStr) (g : GlobT)
    (hentry : ∀ c ∈ names, c ≠ str "." → c ≠ str ".." →
      fnmatch p (w.behind (opened dir) c) c (fnmFlags flags) = 0 → ∀ g,
        ∃ g', handleEntry w ex dir rest g c = (0, g') ∧ g'.pathv = g.pathv ++ f c) :
    ∃ g', entryLoop w flags ex dir p rest names g = (0, g') ∧
      g'.pathv = g.pathv ++ (names.filter fun c => decide (c ≠ str "." ∧ c ≠ str ".." ∧
        fnmatch p (w.behind (opened dir) c) c (fnmFlags flags) = 0)).flatMap f := by
  induction names generalizing g with
  | nil => exact ⟨g, rfl, (append_nil _).symm⟩
  | cons c names ih =>
    obtain ⟨hc, hnames⟩ := forall_mem_cons.1 hentry
    have hdot : strcmp c (str ".") = 0 ∨ strcmp c (str "..") = 0 ↔ c = str "." ∨ c = str ".." :=
      or_congr (strcmp_eq_zero_iff c _ (by decide)) (strcmp_eq_zero_iff c _ (by decide))
    rw [entryLoop]
    by_cases hd : c = str "." ∨ c = str ".."
    · rw [if_pos (hdot.2 hd), filter_cons_of_neg (by simpa using fun h1 h2 => (hd.elim h1 h2).elim)]
      exact ih g hnames
    obtain ⟨h1, h2⟩ := not_or.1 hd
    rw [if_neg (mt hdot.1 hd)]
    by_cases hm : fnmatch p (w.behind (opened dir) c) c (fnmFlags flags) = 0
    · obtain ⟨g₁, he, hg₁⟩ := hc h1 h2 hm g
      obtain ⟨g₂, hl, hg₂⟩ := ih g₁ hnames
      rw [if_pos hm, he, filter_cons_of_pos (by simp [h1, h2, hm]), flatMap_cons]
      exact ⟨g₂, hl, by rw [hg₂, hg₁, append_assoc]⟩
    · rw [if_neg hm, filter_cons_of_neg (by simp [hm])]
      exact ih g hnames

theorem handleDir_eq (g : GlobT)
    (hentry : ∀ c, Fits w flags (opened dir) p c → ∀ g,
        ∃ g', handleEntry w ex dir rest g c = (0, g') ∧ g'.pathv = g.pathv ++ f c) :
    ∃ g', handleDir w flags ex dir p rest g = (0, g') ∧
      g'.pathv = g.pathv ++ (matching w flags (opened dir) p).flatMap f := by
  rw [handleDir, matching]
  cases hl : w.names (opened dir) with
  | none => exact ⟨g, rfl, (append_nil _).symm⟩
  | some l => exact entryLoop_eq l g fun c hc h1 h2 hm => hentry c ⟨⟨l, hl, hc⟩, h1, h2, hm⟩

end Loops

/-! ## The components of the pattern -/

/-- The components of a pattern of less than `fuel` bytes, as `expand` reads them: it passes over the
slashes before a component, and over a single one at the end. -/
def components : ℕ → CStr → List CStr
  | 0, _ => []
  | fuel + 1, pattern =>
    let pattern := pattern.drop (pattern.bytes.takeWhile (· = slash)).length
    match strchr pattern slash with
    | none => [pattern]
    | some len =>
      let rest := pattern.drop (len + 1)
      pattern.take len :: if rest.bytes = [] then [] else components fuel rest

theorem expand_succ (w : World) (flags fuel : ℕ) (base pattern : CStr) (g : GlobT) :
    ∃ p rest, expand w flags (fuel + 1) base pattern g =
        handleDir w flags (expand w flags fuel) base p rest g ∧
      components (fuel + 1) pattern = p :: rest.elim [] (components fuel) ∧
      ∀ r, rest = some r → r.bytes.length < pattern.bytes.length := by
  rw [expand, components]
  generalize hq : pattern.drop (pattern.bytes.takeWhile (· = slash)).length = q
  have hle : q.bytes.length ≤ pattern.bytes.length := by
    rw [← hq, CStr.bytes_drop, length_drop]
    exact Nat.sub_le _ _
  cases hs : strchr q slash with
  | none => exact ⟨q, none, rfl, rfl, fun r h => by cases h⟩
  | some len =>
    obtain ⟨hlen, -⟩ := idxOf?_eq_some_iff.1 ((strchr_eq_idxOf? (by decide)).symm.trans hs)
    by_cases hr : (q.drop (len + 1)).bytes = []
    · refine ⟨q.take len, none, ?_, ?_, fun r h => by cases h⟩
      · simp only [if_pos hr]
      · simp only [if_pos hr, Option.elim]
    · refine ⟨q.take len, some (q.drop (len + 1)), ?_, ?_, fun r h => ?_⟩
      · simp only [if_neg hr]
      · simp only [if_neg hr, Option.elim]
      · rw [← some.inj h, CStr.bytes_drop, length_drop]
        omega

/-- **`expand`** finds the paths that lead on from a directory. -/
theorem expand_eq (hmem : ∀ n, w.mem n = true) (hdone : ∀ c ∈ done, IsName c) (flags : ℕ)
    (lead : Bool) (fuel : ℕ) (pattern : CStr) (hf : pattern.bytes.length < fuel) (g : GlobT) :
    ∃ g', expand w flags fuel (pathOf lead done) pattern g = (0, g') ∧
      g'.pathv = g.pathv ++
        (found w flags lead done (components fuel pattern)).map fun cs => pathOf lead (done ++ cs) := by
  induction fuel generalizing done pattern g with
  | zero => exact absurd hf (Nat.not_lt_zero _)
  | succ fuel ih =>
    obtain ⟨p, rest, hexpand, hcomps, hrest⟩ :=
      expand_succ w flags fuel (pathOf lead done) pattern g
    have hnext : ∀ c, Fits w flags (dirOf lead done) p c → ∀ d ∈ done ++ [c], IsName d := by
      intro c hc d hd
      obtain hd | hd := mem_append.1 hd
      · exact hdone d hd
      · exact mem_singleton.1 hd ▸ hc.isName
    rw [hexpand, hcomps, found, map_flatMap, ← opened_pathOf hdone]
    refine handleDir_eq g fun c hc g => ?_
    cases rest with
    | none =>
      obtain ⟨g', he, hg⟩ := handleEntry_last hmem (expand w flags fuel) g c
      exact ⟨g', he, by rw [hg, joined_pathOf hdone]; rfl⟩
    | some r =>
      rw [opened_pathOf hdone] at hc
      have hlt : r.bytes.length < fuel := by
        have := hrest r rfl
        omega
      obtain ⟨g', he, hg⟩ := ih (hnext c hc) r hlt { g with allocs := g.allocs + 1 }
      refine ⟨g', ?_, ?_⟩
      · rw [handleEntry_more hmem, joined_pathOf hdone]
        exact he
      · rw [hg, List.map_map]
        simp only [Option.elim, append_assoc, singleton_append, Function.comp_def]

theorem takeWhile_slash_eq_nil (hp : IsName p) (l : List UInt8) :
    (p.bytes ++ l).takeWhile (· = slash) = [] := by
  cases hb : p.bytes with
  | nil => exact absurd hb hp.ne_nil
  | cons b bs =>
    have hne : b ≠ slash := fun e => hp.noSlash (by rw [hb, e]; exact .head _)
    exact takeWhile_cons_of_neg (by simpa using hne)

theorem components_slashed (hps : ps ≠ []) (hnames : ∀ p ∈ ps, IsName p) (fuel : ℕ)
    (hf : ps.length ≤ fuel) : components fuel (slashed ps) = ps := by
  induction ps generalizing fuel with
  | nil => exact absurd rfl hps
  | cons p ps ih =>
    obtain ⟨fuel, rfl⟩ : ∃ f, fuel = f + 1 := ⟨fuel - 1, by simp at hf; omega⟩
    obtain ⟨hp, hnames⟩ := forall_mem_cons.1 hnames
    cases ps with
    | nil =>
      have hskip : p.drop (p.bytes.takeWhile (· = slash)).length = p := by
        rw [← append_nil p.bytes, takeWhile_slash_eq_nil hp]
        rfl
      simp only [components, slashed, hskip, (strchr_eq_none_iff (by decide)).2 hp.noSlash]
    | cons q ps =>
      have hne : q :: ps ≠ [] := cons_ne_nil q ps
      have hbytes := bytes_slashed_cons p hne
      have hskip : (slashed (p :: q :: ps)).drop
          ((slashed (p :: q :: ps)).bytes.takeWhile (· = slash)).length = slashed (p :: q :: ps) := by
        rw [hbytes, takeWhile_slash_eq_nil hp]
        rfl
      have htake : (slashed (p :: q :: ps)).take p.bytes.length = p :=
        CStr.ext (by rw [CStr.bytes_take, hbytes, take_left])
      have hdrop : (slashed (p :: q :: ps)).drop (p.bytes.length + 1) = slashed (q :: ps) :=
        CStr.ext (by rw [CStr.bytes_drop, hbytes, ← drop_drop, drop_left]; rfl)
      have hrest : (slashed (q :: ps)).bytes ≠ [] := by
        have hq := hnames q (.head _)
        obtain rfl | hps := eq_or_ne ps []
        · exact hq.ne_nil
        · rw [bytes_slashed_cons q hps]
          simp
      simp only [components, hskip, strchr_slashed hp hne, htake, hdrop, if_neg hrest,
        ih hne hnames fuel (Nat.le_of_succ_le_succ hf)]

/-! ## `glob` -/

theorem cmpStr_isComparison : IsComparison cmpStr where
  total x y h := by
    rw [cmpStr] at h ⊢
    rw [strcmp_le_zero_iff]
    have hnot := mt (strcmp_le_zero_iff x y).2 (by omega)
    exact (List.le_total _ _).resolve_left hnot
  trans x y z h h' := by
    rw [cmpStr, strcmp_le_zero_iff] at h h' ⊢
    exact List.le_trans h h'

/-- The paths that a pattern has. -/
def paths (w : World) (flags : ℕ) (lead : Bool) (ps : List CStr) : List CStr :=
  (found w flags lead [] ps).map (pathOf lead)

theorem nodup_paths (w : World) (flags : ℕ) (lead : Bool) (ps : List CStr) :
    (paths w flags lead ps).Nodup := by
  refine Nodup.map_on (fun cs hcs cs' hcs' e => ?_) (nodup_found w flags lead [] ps)
  obtain ⟨hlen, hn⟩ := (mem_found_iff.1 hcs).names
  obtain ⟨hlen', hn'⟩ := (mem_found_iff.1 hcs').names
  exact pathOf_injective hn hn' (hlen.trans hlen'.symm) e

theorem length_le_of_isName (h : ∀ p ∈ ps, IsName p) : ps.length ≤ (slashed ps).bytes.length := by
  induction ps with
  | nil => exact Nat.zero_le _
  | cons p ps ih =>
    obtain ⟨hp, hps⟩ := forall_mem_cons.1 h
    have hpos := length_pos_iff.2 hp.ne_nil
    obtain rfl | hne := eq_or_ne ps []
    · exact hpos
    · have hlen := ih hps
      rw [bytes_slashed_cons p hne, length_append, length_cons, length_cons]
      omega

theorem head?_slashed_ne (hps : ps ≠ []) (hnames : ∀ p ∈ ps, IsName p) :
    (slashed ps).bytes.head? ≠ some slash := by
  intro h
  obtain ⟨p, ps, rfl⟩ := exists_cons_of_ne_nil hps
  have hp := hnames p (.head _)
  have hfirst : (slashed (p :: ps)).bytes.head? = p.bytes.head? := by
    obtain rfl | hne := eq_or_ne ps []
    · rfl
    · rw [bytes_slashed_cons p hne, head?_append_of_ne_nil _ hp.ne_nil]
  exact hp.noSlash (mem_of_mem_head? (hfirst.symm.trans h))

/-- Whether the pattern begins with a slash. -/
def isRooted (pattern : CStr) : Bool := decide (pattern.bytes.head? = some slash)

/-- The components of a pattern behind the slash at its beginning. -/
def componentsOf (pattern : CStr) : List CStr :=
  components (pattern.bytes.length + 1) (pattern.drop (if isRooted pattern then 1 else 0))

/-- **`glob` finds the paths** of any pattern, and sorts them. -/
theorem glob_eq_paths (hmem : ∀ n, w.mem n = true) (hsort : flags &&& GLOB_NOSORT = 0)
    (pattern : CStr) :
    glob w (some pattern) flags =
      (if paths w flags (isRooted pattern) (componentsOf pattern) = [] then GLOB_NOMATCH else 0,
        qsort cmpStr (paths w flags (isRooted pattern) (componentsOf pattern))) := by
  have hnil : ∀ c ∈ ([] : List CStr), IsName c := fun c hc => absurd hc not_mem_nil
  have hlen : ∀ n, (pattern.drop n).bytes.length < pattern.bytes.length + 1 := by
    intro n
    rw [CStr.bytes_drop, length_drop]
    omega
  obtain ⟨g, he, hg⟩ := expand_eq hmem hnil flags (isRooted pattern) _ _
    (hlen (if isRooted pattern then 1 else 0)) ⟨[], 0⟩
  have hexpand : (if pattern.bytes.head? = some slash then
        expand w flags (pattern.bytes.length + 1) (str "/") (pattern.drop 1) ⟨[], 0⟩
      else expand w flags (pattern.bytes.length + 1) (str "") pattern ⟨[], 0⟩) = (0, g) := by
    by_cases hroot : pattern.bytes.head? = some slash
    · rw [isRooted, decide_eq_true hroot] at he
      exact (if_pos hroot).trans he
    · rw [isRooted, decide_eq_false hroot] at he
      exact (if_neg hroot).trans he
  have hpaths : g.pathv = paths w flags (isRooted pattern) (componentsOf pattern) := hg
  simp only [glob, hexpand, hpaths, true_and, hsort, and_true]
  by_cases hnone : paths w flags (isRooted pattern) (componentsOf pattern) = []
  · rw [if_pos hnone, hnone, if_neg (by decide)]
    rfl
  · rw [if_neg hnone, if_pos rfl]

theorem isRooted_pathOf (hps : ps ≠ []) (hnames : ∀ p ∈ ps, IsName p) (lead : Bool) :
    isRooted (pathOf lead ps) = lead := by
  cases lead with
  | true => rfl
  | false => exact decide_eq_false (head?_slashed_ne hps hnames)

theorem componentsOf_pathOf (hps : ps ≠ []) (hnames : ∀ p ∈ ps, IsName p) (lead : Bool) :
    componentsOf (pathOf lead ps) = ps := by
  have hfuel : ps.length ≤ (pathOf lead ps).bytes.length + 1 := by
    have hlen := length_le_of_isName hnames
    rw [bytes_pathOf, length_append]
    omega
  rw [componentsOf, isRooted_pathOf hps hnames]
  cases lead <;> exact components_slashed hps hnames _ hfuel

theorem glob_eq (hmem : ∀ n, w.mem n = true) (hps : ps ≠ []) (hnames : ∀ p ∈ ps, IsName p)
    (lead : Bool) (hsort : flags &&& GLOB_NOSORT = 0) :
    glob w (some (pathOf lead ps)) flags =
      (if paths w flags lead ps = [] then GLOB_NOMATCH else 0,
        qsort cmpStr (paths w flags lead ps)) := by
  rw [glob_eq_paths hmem hsort, isRooted_pathOf hps hnames, componentsOf_pathOf hps hnames]

/-- **`glob`.** For a pattern of components with single slashes between them, and with memory for
every allocation: the paths that it returns are sorted, no two of them are the same, and they are
those of the names that match the components; it returns `GLOB_NOMATCH` exactly if there are none.
This holds whatever lies behind the terminators. -/
theorem glob_paths (w : World) (flags : ℕ) (lead : Bool) (ps : List CStr)
    (hmem : ∀ n, w.mem n = true) (hps : ps ≠ []) (hnames : ∀ p ∈ ps, IsName p)
    (hsort : flags &&& GLOB_NOSORT = 0) :
    (∀ path, path ∈ (glob w (some (pathOf lead ps)) flags).2 ↔
      ∃ cs, Leads w flags lead [] ps cs ∧ path = pathOf lead cs) ∧
    (glob w (some (pathOf lead ps)) flags).2.Nodup ∧
    (glob w (some (pathOf lead ps)) flags).2.Pairwise (fun a b => strcmp a b ≤ 0) ∧
    (glob w (some (pathOf lead ps)) flags).1 =
      if (glob w (some (pathOf lead ps)) flags).2 = [] then GLOB_NOMATCH else 0 := by
  have hperm := qsort_perm cmpStr (paths w flags lead ps)
  have hnil : paths w flags lead ps = [] ↔ qsort cmpStr (paths w flags lead ps) = [] := by
    rw [← length_eq_zero_iff, ← length_eq_zero_iff, hperm.length_eq]
  rw [glob_eq hmem hps hnames lead hsort]
  refine ⟨fun path => ?_, hperm.nodup_iff.2 (nodup_paths w flags lead ps),
    cmpStr_isComparison.qsort_pairwise _, ?_⟩
  · rw [hperm.mem_iff, paths, List.mem_map]
    constructor
    · rintro ⟨cs, hcs, rfl⟩
      exact ⟨cs, mem_found_iff.1 hcs, rfl⟩
    · rintro ⟨cs, hcs, rfl⟩
      exact ⟨cs, mem_found_iff.2 hcs, rfl⟩
  · exact if_congr hnil rfl rfl

/-- A directory with two files. -/
def twoFiles : World where
  names dir := if dir = str "." then some [str "a.c", str "b.h"] else none
  nodup dir l h := by
    split_ifs at h
    cases h
    decide
  ne_nil dir l h := by
    split_ifs at h
    cases h
    decide
  noSlash dir l h := by
    split_ifs at h
    cases h
    decide
  mem _ := true
  behind _ _ := []

theorem glob_paths_twoFiles :
    (glob twoFiles (some (str "*.c")) 0).1 = 0 ∧
    str "a.c" ∈ (glob twoFiles (some (str "*.c")) 0).2 ∧
    str "b.h" ∉ (glob twoFiles (some (str "*.c")) 0).2 := by
  obtain ⟨hpaths, -, -, hret⟩ := glob_paths twoFiles 0 false [str "*.c"] (fun _ => rfl) (by simp)
    (forall_mem_singleton.2 ⟨by decide, by decide⟩) rfl
  have hmem : str "a.c" ∈ (glob twoFiles (some (str "*.c")) 0).2 :=
    (hpaths (str "a.c")).2 ⟨[str "a.c"], ⟨⟨⟨_, rfl, by simp⟩, by decide, by decide, by decide⟩, trivial⟩,
      rfl⟩
  refine ⟨hret.trans (if_neg (ne_nil_of_mem hmem)), hmem, fun h => ?_⟩
  obtain ⟨cs, hcs, e⟩ := (hpaths (str "b.h")).1 h
  obtain ⟨hlen, -⟩ := hcs.names
  obtain ⟨c, rfl⟩ := length_eq_one_iff.1 hlen
  obtain rfl : str "b.h" = c := e
  exact absurd hcs.1.fnmatch_eq (by decide)

/-! ## `glob` for a path

A path without wildcards is a pattern that only the path itself can match. `handle_dir` finds it by
its components among the names of the directories, but passes over `.` and `..` there. -/

/-- From where the names `done` lead, the components lead on to an entry: each is a name in its
directory, or is `.` or `..`, which every directory has. -/
def Names (w : World) (lead : Bool) : List CStr → List CStr → Prop
  | _, [] => True
  | done, c :: cs =>
    (∃ l, w.names (dirOf lead done) = some l ∧ (c ∈ l ∨ c = str "." ∨ c = str "..")) ∧
      Names w lead (done ++ [c]) cs

theorem leads_plain_iff (hplain : ∀ c ∈ cs, ∀ b ∈ c.bytes, b ∉ wildcards)
    (h : Names w lead done cs) :
    Leads w flags lead done cs cs' ↔ cs' = cs ∧ ∀ c ∈ cs, c ≠ str "." ∧ c ≠ str ".." := by
  induction cs generalizing done cs' with
  | nil => cases cs' <;> simp [Leads]
  | cons c cs ih =>
    obtain ⟨⟨l, hl, hc⟩, hcs⟩ := h
    obtain ⟨hplainc, hplaincs⟩ := forall_mem_cons.1 hplain
    cases cs' with
    | nil => simp [Leads]
    | cons c' cs' =>
      constructor
      · rintro ⟨hfits, hleads⟩
        obtain rfl := (fnmatch_plain hplainc _ _ _).1 hfits.fnmatch_eq
        obtain ⟨rfl, hdots⟩ := (ih hplaincs hcs).1 hleads
        exact ⟨rfl, forall_mem_cons.2 ⟨⟨hfits.ne_dot, hfits.ne_dotdot⟩, hdots⟩⟩
      · rintro ⟨e, hdots⟩
        cases e
        obtain ⟨⟨hdot, hdotdot⟩, hdots⟩ := forall_mem_cons.1 hdots
        have hmem := hc.resolve_right (not_or.2 ⟨hdot, hdotdot⟩)
        exact ⟨⟨⟨l, hl, hmem⟩, hdot, hdotdot, (fnmatch_plain hplainc _ _ _).2 rfl⟩,
          (ih hplaincs hcs).2 ⟨rfl, hdots⟩⟩

/-- **`glob` for a path** that leads to an entry, with memory for every allocation and whatever lies
behind the terminators: it returns the path, and nothing else, exactly if `.` and `..` are not among
the components. -/
theorem glob_plain_iff (w : World) (lead : Bool) (cs : List CStr) (hmem : ∀ n, w.mem n = true)
    (hcs : cs ≠ []) (hnames : ∀ c ∈ cs, IsName c)
    (hplain : ∀ c ∈ cs, ∀ b ∈ c.bytes, b ∉ wildcards) (hentry : Names w lead [] cs) :
    glob w (some (pathOf lead cs)) 0 = (0, [pathOf lead cs]) ↔
      ∀ c ∈ cs, c ≠ str "." ∧ c ≠ str ".." := by
  have hfound : ∀ cs', cs' ∈ found w 0 lead [] cs ↔
      cs' = cs ∧ ∀ c ∈ cs, c ≠ str "." ∧ c ≠ str ".." :=
    fun cs' => mem_found_iff.trans (leads_plain_iff hplain hentry)
  rw [glob_eq hmem hcs hnames lead rfl, paths]
  by_cases hdots : ∀ c ∈ cs, c ≠ str "." ∧ c ≠ str ".."
  · have hperm : (found w 0 lead [] cs).Perm [cs] := by
      refine (perm_ext_iff_of_nodup (nodup_found w 0 lead [] cs) (nodup_singleton cs)).2 ?_
      intro cs'
      rw [hfound, mem_singleton]
      exact and_iff_left hdots
    rw [perm_singleton.1 hperm]
    exact iff_of_true rfl hdots
  · have hnil : found w 0 lead [] cs = [] :=
      eq_nil_iff_forall_not_mem.2 fun cs' h => hdots ((hfound cs').1 h).2
    rw [hnil, map_nil, if_pos rfl]
    exact iff_of_false (fun e => Nat.one_ne_zero (congrArg Prod.fst e)) hdots

theorem glob_plain_iff_twoFiles : glob twoFiles (some (str "a.c")) 0 = (0, [str "a.c"]) := by
  have hentry : Names twoFiles false [] [str "a.c"] := ⟨⟨_, rfl, .inl (.head _)⟩, trivial⟩
  refine (glob_plain_iff twoFiles false [str "a.c"] (fun _ => rfl) (cons_ne_nil _ _) ?_ ?_
    hentry).2 ?_
  · exact forall_mem_singleton.2 ⟨by decide, by decide⟩
  · exact forall_mem_singleton.2 (by decide +kernel)
  · exact forall_mem_singleton.2 (by decide)

/-- The path `./a.c` leads to an entry, and `glob` does not find it. -/
theorem glob_passes_over_dot :
    Names twoFiles false [] [str ".", str "a.c"] ∧
      pathOf false [str ".", str "a.c"] = str "./a.c" ∧
      glob twoFiles (some (str "./a.c")) 0 = (GLOB_NOMATCH, []) := by
  refine ⟨⟨⟨_, rfl, .inr (.inl rfl)⟩, ⟨_, rfl, .inl (.head _)⟩, trivial⟩, by decide, by decide⟩

end Vlibc.Glob
