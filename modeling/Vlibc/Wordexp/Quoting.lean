import Vlibc.Glob.Paths
import Vlibc.Wordexp.Words

/-!
# Words in single quotes

With memory for everything, `wordexp` returns the words of the text, each of them as what it becomes
(`wordexp_words`). A word in single quotes is read as it is, but it is a pattern like any other: it
becomes the paths that match it. So the words come back exactly if the paths that match a word are the
word itself.
-/

namespace Vlibc.Wordexp

open List Multiset

open Ctype (isspace)
open Glob (Leads componentsOf glob_eq_paths isRooted mem_found_iff nodup_paths pathOf paths)
open Stdlib (qsort_perm)

/-- The strings that a `wordexp_t` holds, as they are read from memory. -/
def Strings.words (we : Strings) (m : Memory Cell Request) : Option (List CStr) :=
  (exec (loadStrings we.array 0 we.count) m).1.toOption.map fun ps => ps.map Prod.snd

variable {host : Host} {i : ℕ} {we : Strings} {ps : List (ℕ × CStr)} {arr bs : Blocks}
  {m : Memory Cell Request} {s w : CStr} {ws : List CStr}

theorem Holds.words_eq (h : Holds we ps arr) (ho : m.heap.Owns (arr + (texts ps + bs))) :
    we.words m = some (ps.map Prod.snd) := by
  have hload : Ends (loadStrings we.array 0 we.count) m fun result m' => result = ps ∧ m' = m := by
    cases h with
    | empty => exact .pure ⟨rfl, rfl⟩
    | @strings a ps hne =>
      refine loadStrings_ends [] ps ho (Multiset.mem_cons_self _ _) fun q hq => ?_
      exact mem_add.2 (.inr (mem_add.2 (.inl (mem_coe.2 (List.mem_map.2 ⟨q, hq, rfl⟩)))))
  obtain ⟨_, m', hexec, rfl, -⟩ := hload
  rw [Strings.words, hexec]
  rfl

/-- **`wordexp` with memory for everything** returns the words of the text, or that there is an
error in it. -/
theorem wordexp_words (host : Host) (hgrants : ∀ n, host.grants n = true) (words : CStr) (t : Strings)
    (m : Memory Cell Request) :
    ∃ ret we m', exec (wordexp host (some words) (some t)) m = (.ok (ret, some we), m') ∧
      ((ret = 0 ∧ expansions host (words.bytes.length + 1) 0 words.bytes = we.words m') ∨
        (ret = WRDE_SYNTAX ∧ expansions host (words.bytes.length + 1) 0 words.bytes = none)) := by
  have hnot : ∀ {r : Request} {l l' : List (Request × Bool)}, ¬ Refused host.grants r l l' := by
    rintro r l l' ⟨gs, -, -, hfalse⟩
    exact absurd ((hgrants _).symm.trans hfalse) (by decide)
  have hstart : m.heap.Owns (0 + (texts [] + m.heap.blocks)) := by
    rw [zero_add]
    exact (zero_add _).symm
  obtain ⟨⟨ret, we⟩, m', hexec, hret⟩ | ⟨e, m', hexec, r, hr, -⟩ :=
    wordLoop_outcome host (words.bytes.length + 1) 0 words.bytes (Nat.lt_succ_self _) words.noNul
      .empty hstart
  · refine ⟨ret, we, m', exec_bind_of_ok hexec, ?_⟩
    obtain ⟨hret, -, qs, arr, hholds, ho, hwords⟩ | ⟨hret, -, -, hwords⟩ | ⟨-, r, -, hr, -⟩ := hret
    · exact .inl ⟨hret, (hwords hgrants).trans (hholds.words_eq ho).symm⟩
    · exact .inr ⟨congrArg Prod.fst hret, hwords⟩
    · exact absurd hr hnot
  · exact absurd hr hnot

/-! ## Quotes -/

/-- A word in single quotes. -/
def quote (w : CStr) : CStr := ((str "'").append w).append (str "'")

/-- The words in single quotes, with blanks between them. -/
def quoted : List CStr → CStr
  | [] => str ""
  | [w] => quote w
  | w :: v :: ws => ((quote w).append (str " ")).append (quoted (v :: ws))

theorem readWord_single (home : CStr) (glob : Bool) (l : List UInt8) {w : List UInt8}
    (hw : '\''.toUInt8 ∉ w) (rest : List UInt8) :
    readWord home .single glob l (w ++ '\''.toUInt8 :: rest) =
      readWord home .none glob (l ++ w) rest := by
  induction w generalizing l with
  | nil => rw [nil_append, readWord, if_pos rfl, append_nil]
  | cons c w ih =>
    obtain ⟨hc, hw⟩ := ne_and_not_mem_of_not_mem_cons hw
    rw [cons_append, readWord, if_neg hc.symm, ih _ hw, append_assoc]
    rfl

theorem readWord_open (home : CStr) (glob : Bool) (l s : List UInt8) :
    readWord home .none glob l ('\''.toUInt8 :: s) = readWord home .single glob l s := by
  cases s <;> rfl

variable {rest : List UInt8}

theorem readWord_end (home : CStr) (glob : Bool) (l : List UInt8)
    (hrest : ∀ c ∈ rest.head?, isspace c = true) :
    readWord home .none glob l rest = some (l, glob, rest) := by
  cases rest with
  | nil => rfl
  | cons c s =>
    have hc : isspace c = true := hrest c rfl
    cases s <;> exact if_pos hc

/-- **A word in single quotes** is read as it is, and is a pattern. -/
theorem readWord_quote (home : CStr) (hw : '\''.toUInt8 ∉ w.bytes)
    (hrest : ∀ c ∈ rest.head?, isspace c = true) :
    readWord home .none true [] ((quote w).bytes ++ rest) = some (w.bytes, true, rest) := by
  have hbytes : (quote w).bytes ++ rest = '\''.toUInt8 :: (w.bytes ++ '\''.toUInt8 :: rest) := by
    simp only [quote, CStr.bytes_append, append_assoc]
    rfl
  rw [hbytes, readWord_open, readWord_single _ _ _ hw, nil_append, readWord_end _ _ _ hrest]

theorem dropWhile_quote (w : CStr) (rest : List UInt8) :
    ((quote w).bytes ++ rest).dropWhile isspace = (quote w).bytes ++ rest := rfl

theorem bytes_quoted_cons (w v : CStr) (ws : List CStr) :
    (quoted (w :: v :: ws)).bytes = (quote w).bytes ++ ' '.toUInt8 :: (quoted (v :: ws)).bytes := by
  simp only [quoted, CStr.bytes_append, append_assoc]
  rfl

theorem expansions_blank (host : Host) (fuel i : ℕ) (p : List UInt8) :
    expansions host fuel i (' '.toUInt8 :: p) = expansions host fuel i p := by
  cases fuel <;> rfl

theorem expansions_quote (host : Host) (hw : '\''.toUInt8 ∉ w.bytes) (fuel i : ℕ)
    (hrest : ∀ c ∈ rest.head?, isspace c = true) :
    expansions host (fuel + 1) i ((quote w).bytes ++ rest) =
      (expansions host fuel (i + 1) rest).map (expansion (host.world i 0) w true ++ ·) := by
  have hne : (quote w).bytes ++ rest ≠ [] := cons_ne_nil _ _
  rw [expansions, dropWhile_quote]
  rw [if_neg hne, readWord_quote _ hw hrest, Option.bind_some]
  dsimp only
  rw [CStr.ofBytes_bytes]

theorem expansions_quoted (host : Host) (hquote : ∀ w ∈ ws, '\''.toUInt8 ∉ w.bytes) (fuel i : ℕ)
    (hf : (quoted ws).bytes.length < fuel) :
    expansions host fuel i (quoted ws).bytes =
      some ((ws.zipIdx i).flatMap fun x => expansion (host.world x.2 0) x.1 true) := by
  induction ws generalizing fuel i with
  | nil =>
    obtain _ | fuel := fuel
    · omega
    rfl
  | cons w ws ih =>
    obtain _ | fuel := fuel
    · omega
    obtain ⟨hw, hquote⟩ := List.forall_mem_cons.1 hquote
    cases ws with
    | nil =>
      have hpos : 0 < (quoted [w]).bytes.length := Nat.zero_lt_succ _
      obtain _ | fuel := fuel
      · omega
      have hone : (quoted [w]).bytes = (quote w).bytes ++ [] := (append_nil _).symm
      rw [hone, expansions_quote host hw _ _ (fun c hc => by cases hc)]
      simp [expansions]
    | cons v ws =>
      have hlen : (quoted (v :: ws)).bytes.length < fuel := by
        rw [bytes_quoted_cons, length_append, length_cons] at hf
        omega
      rw [bytes_quoted_cons, expansions_quote host hw _ _ (fun c hc => by cases hc; rfl),
        expansions_blank, ih hquote fuel (i + 1) hlen]
      rfl

/-! ## What a word becomes -/

variable {w : Glob.World}

/-- **What a word becomes**, with memory for everything: the paths that match it, or the word if there
are none. -/
theorem expansion_eq (hmem : ∀ n, w.mem n = true) (s : CStr) :
    expansion w s true =
      if paths w 0 (isRooted s) (componentsOf s) = [] then [s]
      else Stdlib.qsort Glob.cmpStr (paths w 0 (isRooted s) (componentsOf s)) := by
  rw [expansion, glob_eq_paths hmem rfl]
  by_cases hnone : paths w 0 (isRooted s) (componentsOf s) = []
  · rw [if_pos hnone, if_pos hnone, if_neg (by simp [Glob.GLOB_NOMATCH])]
  · rw [if_neg hnone, if_neg hnone, if_pos ⟨rfl, rfl⟩]

theorem expansion_ne_nil (hmem : ∀ n, w.mem n = true) (s : CStr) :
    expansion w s true ≠ [] := by
  rw [expansion_eq hmem]
  split_ifs with hnone
  · exact cons_ne_nil _ _
  · exact fun e => hnone (Perm.nil_eq (e ▸ qsort_perm _ _)).symm

theorem expansion_eq_singleton_iff (hmem : ∀ n, w.mem n = true) (s : CStr) :
    expansion w s true = [s] ↔
      ∀ cs, Leads w 0 (isRooted s) [] (componentsOf s) cs → pathOf (isRooted s) cs = s := by
  have hpaths : (∀ cs, Leads w 0 (isRooted s) [] (componentsOf s) cs → pathOf (isRooted s) cs = s) ↔
      ∀ path ∈ paths w 0 (isRooted s) (componentsOf s), path = s := by
    rw [paths, forall_mem_map]
    exact forall_congr' fun cs => imp_congr_left mem_found_iff.symm
  have hnodup := nodup_paths w 0 (isRooted s) (componentsOf s)
  rw [expansion_eq hmem, hpaths]
  generalize paths w 0 (isRooted s) (componentsOf s) = l at hnodup
  by_cases hnone : l = []
  · rw [if_pos hnone, hnone]
    exact iff_of_true rfl fun path h => absurd h not_mem_nil
  rw [if_neg hnone]
  constructor
  · intro e path h
    exact List.mem_singleton.1 (e ▸ (qsort_perm Glob.cmpStr l).mem_iff.2 h)
  · intro h
    obtain ⟨path, hpath⟩ := exists_mem_of_ne_nil l hnone
    have hone : l.Perm [s] := by
      refine (perm_ext_iff_of_nodup hnodup (List.nodup_singleton s)).2 fun path' => ?_
      rw [List.mem_singleton]
      exact ⟨h path', fun e => e ▸ h path hpath ▸ hpath⟩
    exact perm_singleton.1 ((qsort_perm Glob.cmpStr l).trans hone)

theorem length_le_length_flatMap {α β : Type} {l : List α} {f : α → List β}
    (hf : ∀ x ∈ l, f x ≠ []) : l.length ≤ (l.flatMap f).length := by
  induction l with
  | nil => exact le_refl _
  | cons x l ih =>
    obtain ⟨hx, hf⟩ := List.forall_mem_cons.1 hf
    have hpos := length_pos_iff.2 hx
    have hle := ih hf
    rw [flatMap_cons, length_append, length_cons]
    omega

/-- Lists that are not empty make up a list with one element for each of them only if they have one
element each. -/
theorem flatMap_eq_map_iff {α β : Type} {l : List α} {f : α → List β} (g : α → β)
    (hf : ∀ x ∈ l, f x ≠ []) : l.flatMap f = l.map g ↔ ∀ x ∈ l, f x = [g x] := by
  induction l with
  | nil => exact iff_of_true rfl fun x hx => absurd hx not_mem_nil
  | cons x l ih =>
    obtain ⟨hx, hf⟩ := List.forall_mem_cons.1 hf
    rw [flatMap_cons, List.map_cons, List.forall_mem_cons, ← ih hf]
    constructor
    · intro e
      obtain ⟨y, ys, hy⟩ := exists_cons_of_ne_nil hx
      rw [hy, cons_append] at e
      obtain ⟨hyx, hrest⟩ := cons.inj e
      have hlen := congrArg List.length hrest
      rw [length_append, length_map] at hlen
      have hle := length_le_length_flatMap hf
      obtain rfl : ys = [] := length_eq_zero_iff.1 (by omega)
      exact ⟨by rw [hy, hyx], hrest⟩
    · rintro ⟨hx, e⟩
      rw [hx, e]
      rfl

/-- **Words in single quotes.** With memory for everything, and whatever the directories and `HOME`:
`wordexp` returns the words themselves exactly if the paths that match a word as a pattern are the word
itself. -/
theorem wordexp_quoted_iff (host : Host) (hgrants : ∀ n, host.grants n = true) (ws : List CStr)
    (hquote : ∀ w ∈ ws, '\''.toUInt8 ∉ w.bytes) (t : Strings) (m : Memory Cell Request) :
    (∃ we m', exec (wordexp host (some (quoted ws)) (some t)) m = (.ok (0, some we), m') ∧
        we.words m' = some ws) ↔
      ∀ w i, (w, i) ∈ ws.zipIdx → ∀ cs,
        Leads (host.world i 0) 0 (isRooted w) [] (componentsOf w) cs → pathOf (isRooted w) cs = w := by
  have hmem : ∀ i n, (host.world i 0).mem n = true := fun i n => hgrants (0 + n)
  have hexp := expansions_quoted host hquote _ 0 (Nat.lt_succ_self _)
  obtain ⟨ret, we, m', hexec, hcases⟩ := wordexp_words host hgrants (quoted ws) t m
  rw [hexp] at hcases
  obtain ⟨rfl, hwe⟩ | ⟨-, hnone⟩ := hcases
  · have hiff : (∃ we m', exec (wordexp host (some (quoted ws)) (some t)) m = (.ok (0, some we), m') ∧
        we.words m' = some ws) ↔
        (ws.zipIdx.flatMap fun x => expansion (host.world x.2 0) x.1 true) = ws.zipIdx.map Prod.fst := by
      rw [hexec, zipIdx_map_fst]
      constructor
      · rintro ⟨we', m'', e, hwords'⟩
        cases e
        exact Option.some.inj (hwe.trans hwords')
      · exact fun e => ⟨we, m', rfl, hwe.symm.trans (congrArg some e)⟩
    rw [hiff, flatMap_eq_map_iff Prod.fst fun x _ => expansion_ne_nil (hmem x.2) x.1, Prod.forall]
    exact forall₃_congr fun w i _ => expansion_eq_singleton_iff (hmem i) w
  · cases hnone

/-- A directory with one file. -/
def oneFile : Host where
  names dir := if dir = str "." then some [str "a"] else none
  nodup dir l h := by
    split_ifs at h
    cases h
    exact List.nodup_singleton _
  ne_nil dir l h := by
    split_ifs at h
    cases h
    decide
  noSlash dir l h := by
    split_ifs at h
    cases h
    decide
  grants _ := true
  behind _ _ _ := []
  home := none

theorem wordexp_quoted_iff_blank :
    ∃ we m', exec (wordexp oneFile (some (quoted [str "b c"])) (some .empty)) (.empty _ _) =
      (.ok (0, some we), m') ∧ we.words m' = some [str "b c"] := by
  refine (wordexp_quoted_iff oneFile (fun _ => rfl) [str "b c"] (by decide) .empty (.empty _ _)).2 ?_
  intro w i hw cs hcs
  cases List.mem_singleton.1 hw
  have hcomps : componentsOf (str "b c") = [str "b c"] := by decide
  rw [hcomps] at hcs
  obtain ⟨hlen, -⟩ := hcs.names
  obtain ⟨c, rfl⟩ := length_eq_one_iff.1 hlen
  obtain ⟨⟨l, hl, hc⟩, -, -, hmatch⟩ := hcs.1
  cases hl
  rw [List.mem_singleton.1 hc] at hmatch
  cases hmatch

/-- The word `*` in single quotes becomes the name of the file. -/
theorem wordexp_expands_quoted_star :
    ∃ we m', exec (wordexp oneFile (some (quoted [str "*"])) (some .empty)) (.empty _ _) =
      (.ok (0, some we), m') ∧ we.words m' = some [str "a"] := by
  obtain ⟨ret, we, m', hexec, hcases⟩ :=
    wordexp_words oneFile (fun _ => rfl) (quoted [str "*"]) .empty (.empty _ _)
  have hexp : expansions oneFile ((quoted [str "*"]).bytes.length + 1) 0 (quoted [str "*"]).bytes =
    some [str "a"] := by decide
  rw [hexp] at hcases
  obtain ⟨rfl, hwe⟩ | ⟨-, hnone⟩ := hcases
  · exact ⟨we, m', hexec, hwe.symm⟩
  · cases hnone

end Vlibc.Wordexp
