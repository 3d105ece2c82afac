import Vlibc.Foundations.Heap
import Vlibc.Strings

/-!
# Strings and arrays of strings in memory

The blocks that `wordexp` and `glob` allocate hold characters or pointers. A `glob_t` and a
`wordexp_t` are the same: an array of pointers to strings with a null pointer behind them, and the
number of the strings. This module has the functions of `memory.c` and `string.c` that they use, and
what the two types hold.
-/

namespace Vlibc.Wordexp

open List Option Multiset

/-- What stands in a place of a block: nothing yet, a character, or a pointer. -/
inductive Cell where
  | junk
  | byte (c : UInt8)
  | null
  | ptr (p : ℕ)
  deriving DecidableEq

/-- What memory is asked for. Some requests come with whether the array exists to which the result is
to be added: `gl_pathv` for the requests of `glob`, `we_wordv` for those of `add_word`. -/
inductive Request where
  | buffer
  | path (held : Bool)
  | pathArray (held : Bool)
  | pathText
  | wordArray
  | wordText (held : Bool)
  deriving DecidableEq

/-- Whether nothing is lost if the request is refused. -/
def Request.harmless : Request → Bool
  | buffer | wordArray => true
  | path held | pathArray held | wordText held => !held
  | pathText => false

/-- A program on the cells of this file. -/
abbrev Run (α : Type) := Prog Cell Request α

/-- Blocks, with their cells. -/
abbrev Blocks := Multiset (ℕ × List Cell)

/-- The cells of a string. -/
def cstring (s : CStr) : List Cell := s.bytes.map .byte ++ [.byte 0]

/-- The string at the beginning of a block. -/
def textOf : List Cell → Option CStr
  | .byte c :: cells =>
    if h : c = 0 then some ⟨[], List.not_mem_nil⟩
    else (textOf cells).map fun s => ⟨c :: s.bytes, List.not_mem_cons_of_ne_of_not_mem (Ne.symm h) s.noNul⟩
  | _ => none

/-- The string at an address. -/
def loadStr (p : ℕ) : Run CStr := do
  match textOf (← cellsAt p) with
  | some s => return s
  | none => throw .outside

section Memory

variable (grants : ℕ → Bool)

/-- `malloc`, for a size other than 0. -/
def malloc (r : Request) (size : ℕ) : Run (Option ℕ) :=
  request grants r (List.replicate size .junk)

/-- `realloc`, for a size other than 0: there is always a new block, and the old one is freed. -/
def realloc (r : Request) (old : Option ℕ) (size : ℕ) : Run (Option ℕ) := do
  match old with
  | none => malloc grants r size
  | some old =>
    let cells ← cellsAt old
    match ← malloc grants r size with
    | none => return none
    | some new =>
      writeAt new 0 (cells.take size)
      release old
      return some new

/-- A block of the size of a string, with the string in it. -/
def newString (r : Request) (s : CStr) : Run (Option ℕ) := do
  match ← malloc grants r (vstrlen s + 1) with
  | none => return none
  | some p =>
    writeAt p 0 (cstring s)
    return some p

/-- `strdup`. -/
def strdup (r : Request) (p : ℕ) : Run (Option ℕ) := do
  let s ← loadStr p
  newString grants r s

end Memory

/-- A `glob_t` or a `wordexp_t`: the number of strings, and the array. -/
structure Strings where
  count : ℕ
  array : Option ℕ
  deriving DecidableEq

/-- No strings. -/
def Strings.empty : Strings := ⟨0, none⟩

/-- The pointer `i` of an array. -/
def loadPtr (array : Option ℕ) (i : ℕ) : Run (Option ℕ) := do
  match array with
  | none => throw .dead
  | some a =>
    match (← cellsAt a)[i]? with
    | some (.ptr p) => return some p
    | some .null => return none
    | _ => throw .outside

/-- `free`. -/
def free : Option ℕ → Run Unit
  | none => return
  | some p => release p

/-- The loop of `globfree` and `wordfree`, from the `i`-th of the strings on, with `n` left. -/
def freeLoop (array : Option ℕ) : ℕ → ℕ → Run Unit
  | _, 0 => return
  | i, n + 1 => do
    free (← loadPtr array i)
    freeLoop array (i + 1) n

/-- `globfree` and `wordfree`. -/
def freeStrings (t : Strings) : Run Strings := do
  freeLoop t.array 0 t.count
  free t.array
  return .empty

/-- `globfree`. -/
def globfree (g : Strings) : Run Strings := freeStrings g

/-- `wordfree`. -/
def wordfree (we : Strings) : Run Strings := freeStrings we

/-! ## What the functions do -/

variable {grants : ℕ → Bool} {m m' : Memory Cell Request} {bs arr : Blocks} {p : ℕ} {s : CStr}
  {r : Request}

theorem textOf_append (s : CStr) (cells : List Cell) :
    textOf (s.bytes.map .byte ++ .byte 0 :: cells) = some s := by
  obtain ⟨l, hl⟩ := s
  induction l with
  | nil => exact dif_pos rfl
  | cons c l ih =>
    obtain ⟨hc, hl'⟩ := ne_and_not_mem_of_not_mem_cons hl
    rw [List.map_cons, cons_append, textOf, dif_neg hc.symm, ih hl']
    rfl

theorem textOf_cstring (s : CStr) : textOf (cstring s) = some s := textOf_append s []

variable {cells : List Cell}

theorem loadStr_ends (ho : m.heap.Owns bs) (hmem : (p, cells) ∈ bs)
    (hs : textOf cells = some s) : Ends (loadStr p) m fun s' m' => s' = s ∧ m' = m := by
  refine (cellsAt_ends ho hmem).bind ?_
  rintro _ _ ⟨rfl, rfl⟩
  rw [hs]
  exact .pure ⟨rfl, rfl⟩

theorem malloc_ends (ho : m.heap.Owns bs) (r : Request) (size : ℕ) :
    Ends (malloc grants r size) m
      (Answered grants r m fun p h => h.Owns ((p, List.replicate size .junk) ::ₘ bs)) :=
  request_ends ho grants r _

theorem newString_ends (ho : m.heap.Owns bs) (r : Request) (s : CStr) :
    Ends (newString grants r s) m (Answered grants r m fun p h => h.Owns ((p, cstring s) ::ₘ bs)) := by
  refine (malloc_ends ho r _).bind ?_
  rintro _ m₁ (⟨hg, hasked, hheap⟩ | ⟨p, hg, hasked, ho₁⟩)
  · exact .pure (.refused hg hasked hheap)
  · have hlen : (cstring s).length = vstrlen s + 1 := by simp [cstring, vstrlen]
    refine (writeAt_ends ho₁ 0 (cstring s) ?_).bind ?_
    · rw [length_replicate, hlen, zero_add]
    · rintro _ m₂ ⟨hasked₂, ho₂⟩
      refine .pure (.granted p hg (hasked₂.trans hasked) ?_)
      have hall : vstrlen s + 1 - (0 + (cstring s).length) = 0 := by omega
      rw [take_zero, nil_append, drop_replicate, hall, List.replicate_zero, append_nil] at ho₂
      exact ho₂

theorem strdup_ends (ho : m.heap.Owns bs) (hmem : (p, cells) ∈ bs)
    (hs : textOf cells = some s) (r : Request) :
    Ends (strdup grants r p) m (Answered grants r m fun p h => h.Owns ((p, cstring s) ::ₘ bs)) := by
  refine (loadStr_ends ho hmem hs).bind ?_
  rintro _ _ ⟨rfl, rfl⟩
  exact newString_ends ho r _

/-- The block of an array or a buffer that may not exist yet. -/
def blockOf (old : Option ℕ) (cells : List Cell) : Blocks := old.elim 0 fun p => {(p, cells)}

/-- **`realloc`** keeps the cells that there are. -/
theorem realloc_ends {old : Option ℕ} {size : ℕ}
    (ho : m.heap.Owns (blockOf old cells + bs)) (hold : old = none → cells = [])
    (hsize : cells.length ≤ size) (r : Request) :
    Ends (realloc grants r old size) m (Answered grants r m fun new h => some new ≠ old ∧
      h.Owns ((new, cells ++ List.replicate (size - cells.length) .junk) ::ₘ bs)) := by
  cases old with
  | none =>
    obtain rfl := hold rfl
    rw [blockOf, Option.elim, zero_add] at ho
    refine (malloc_ends ho r size).imp ?_
    exact fun _ m₁ h => h.imp fun p _ ho₁ => ⟨some_ne_none p, ho₁⟩
  | some old =>
    have ho : m.heap.Owns ((old, cells) ::ₘ bs) := ho
    refine (cellsAt_ends ho (Multiset.mem_cons_self _ _)).bind ?_
    rintro _ _ ⟨rfl, rfl⟩
    refine (malloc_ends ho r size).bind ?_
    rintro _ m₁ (⟨hg, hasked, hheap⟩ | ⟨new, hg, hasked, ho₁⟩)
    · exact .pure (.refused hg hasked hheap)
    · have hne : old ≠ new := ho₁.ne (old, _) (Multiset.mem_cons_self _ _)
      rw [take_of_length_le hsize]
      refine (writeAt_ends ho₁ 0 _ ?_).bind ?_
      · rw [length_replicate, zero_add]
        exact hsize
      rintro _ m₂ ⟨hasked₂, ho₂⟩
      rw [cons_swap] at ho₂
      refine (release_ends ho₂).bind ?_
      rintro _ m₃ ⟨hasked₃, ho₃⟩
      refine .pure (.granted new hg (hasked₃.trans (hasked₂.trans hasked)) ⟨?_, ?_⟩)
      · exact fun e => hne (some.inj e).symm
      · rw [take_zero, nil_append, drop_replicate, zero_add] at ho₃
        exact ho₃

/-! ## What the arrays hold -/

/-- The cells of an array of pointers. -/
def pointers (ps : List (ℕ × CStr)) : List Cell := ps.map fun p => .ptr p.1

/-- The blocks of strings. -/
def texts (ps : List (ℕ × CStr)) : Blocks := (ps.map fun p => (p.1, cstring p.2) : List _)

/-- The `glob_t` or `wordexp_t` holds these strings, and the array is this block. Without a string
there is no array. -/
inductive Holds : Strings → List (ℕ × CStr) → Blocks → Prop
  | empty : Holds .empty [] 0
  | strings {a : ℕ} {ps : List (ℕ × CStr)} (h : ps ≠ []) :
    Holds ⟨ps.length, some a⟩ ps {(a, pointers ps ++ [.null])}

variable {t : Strings} {a : ℕ} {ps rest : List (ℕ × CStr)} {q : ℕ × CStr}

theorem texts_cons (q : ℕ × CStr) (ps : List (ℕ × CStr)) :
    texts (q :: ps) = (q.1, cstring q.2) ::ₘ texts ps := rfl

theorem texts_concat (ps : List (ℕ × CStr)) (q : ℕ × CStr) :
    texts (ps ++ [q]) = (q.1, cstring q.2) ::ₘ texts ps := by
  rw [texts, map_append, ← coe_add, add_comm]
  rfl

theorem Holds.count_eq (h : Holds t ps arr) : t.count = ps.length := by
  cases h <;> rfl

theorem loadPtr_ends (ho : m.heap.Owns bs) (hmem : (a, pointers (ps ++ q :: rest) ++ cells) ∈ bs) :
    Ends (loadPtr (some a) ps.length) m fun p m' => p = some q.1 ∧ m' = m := by
  refine (cellsAt_ends ho hmem).bind ?_
  rintro _ _ ⟨rfl, rfl⟩
  have hget : (pointers (ps ++ q :: rest) ++ cells)[ps.length]? = some (.ptr q.1) := by
    simp [pointers]
  rw [hget]
  exact .pure ⟨rfl, rfl⟩

theorem freeLoop_ends (rest : List (ℕ × CStr))
    (ho : m.heap.Owns ((a, pointers (ps ++ rest) ++ [.null]) ::ₘ (texts rest + bs))) :
    Ends (freeLoop (some a) ps.length rest.length) m fun _ m' =>
      m'.asked = m.asked ∧ m'.heap.Owns ((a, pointers (ps ++ rest) ++ [.null]) ::ₘ bs) := by
  induction rest generalizing ps m with
  | nil => exact .pure ⟨rfl, by simpa [texts] using ho⟩
  | cons q rest ih =>
    refine (loadPtr_ends ho (Multiset.mem_cons_self _ _)).bind ?_
    rintro _ m ⟨rfl, rfl⟩
    rw [texts_cons, cons_add, cons_swap] at ho
    refine (release_ends ho).bind ?_
    rintro _ m₁ ⟨hasked, ho₁⟩
    have hsplit : ps ++ q :: rest = ps ++ [q] ++ rest := by simp
    rw [hsplit] at ho₁ ⊢
    have hrest := ih ho₁
    rw [length_append] at hrest
    refine hrest.imp ?_
    rintro _ m₂ ⟨hasked₂, ho₂⟩
    exact ⟨hasked₂.trans hasked, ho₂⟩

theorem freeStrings_ends (h : Holds t ps arr) (ho : m.heap.Owns (arr + (texts ps + bs))) :
    Ends (freeStrings t) m fun t' m' => t' = .empty ∧ m'.asked = m.asked ∧ m'.heap.Owns bs := by
  cases h with
  | empty => exact .pure ⟨rfl, rfl, by simpa [texts] using ho⟩
  | @strings a ps h =>
    have ho : m.heap.Owns ((a, pointers ([] ++ ps) ++ [.null]) ::ₘ (texts ps + bs)) := ho
    refine (freeLoop_ends ps ho).bind ?_
    rintro _ m₁ ⟨hasked, ho₁⟩
    refine (release_ends ho₁).bind ?_
    rintro _ m₂ ⟨hasked₂, ho₂⟩
    exact .pure ⟨rfl, hasked₂.trans hasked, ho₂⟩

theorem freeStrings_faults (ht : t.array = some a) (hc : t.count ≠ 0) (ho : m.heap.Owns bs)
    (hne : ∀ b ∈ bs, b.1 ≠ a) : Faults (freeStrings t) m fun m' => m' = m := by
  obtain ⟨n, hn⟩ := Nat.exists_eq_succ_of_ne_zero hc
  rw [freeStrings, ht, hn]
  exact (((cellsAt_faults ho hne).bind).bind).bind

theorem realloc_array_ends (h : Holds t ps arr) (ho : m.heap.Owns (arr + bs)) (r : Request) :
    Ends (realloc grants r t.array (t.count + 2)) m (Answered grants r m fun new h =>
      some new ≠ t.array ∧ ∃ c, h.Owns ((new, pointers ps ++ [c, .junk]) ::ₘ bs)) := by
  cases h with
  | empty =>
    have ho : m.heap.Owns (blockOf none [] + bs) := ho
    refine (realloc_ends ho (fun _ => rfl) (Nat.zero_le _) r).imp fun _ m₁ h => h.imp ?_
    rintro new _ ⟨hne, ho₁⟩
    exact ⟨hne, .junk, ho₁⟩
  | @strings a ps h =>
    have hlen : (pointers ps ++ [Cell.null]).length = ps.length + 1 := by simp [pointers]
    have ho : m.heap.Owns (blockOf (some a) (pointers ps ++ [.null]) + bs) := ho
    have hsize : (pointers ps ++ [Cell.null]).length ≤ ps.length + 2 := by omega
    have hold : some a = none → pointers ps ++ [Cell.null] = [] := fun h =>
      absurd h (some_ne_none a)
    refine (realloc_ends ho hold hsize r).imp fun _ m₁ h => h.imp ?_
    rintro new _ ⟨hne, ho₁⟩
    rw [hlen, Nat.add_sub_add_left, append_assoc] at ho₁
    exact ⟨hne, .null, ho₁⟩

theorem writeAt_pointer_ends {c c' d : Cell}
    (ho : m.heap.Owns ((a, pointers ps ++ [c, d]) ::ₘ bs)) :
    Ends (writeAt a ps.length [c']) m fun _ m' =>
      m'.asked = m.asked ∧ m'.heap.Owns ((a, pointers ps ++ [c', d]) ::ₘ bs) := by
  have hlen : (pointers ps).length = ps.length := length_map _
  refine (writeAt_ends ho _ _ ?_).imp ?_
  · simp [hlen]
  · rintro _ m₁ ⟨hasked, ho₁⟩
    rw [← hlen, take_left, length_singleton, drop_length_add_append, append_assoc] at ho₁
    exact ⟨hasked, ho₁⟩

theorem writeAt_null_ends {d : Cell} (q : ℕ × CStr)
    (ho : m.heap.Owns ((a, pointers ps ++ [.ptr q.1, d]) ::ₘ (q.1, cstring q.2) ::ₘ
      (texts ps + bs))) :
    Ends (writeAt a (ps.length + 1) [.null]) m fun _ m' => m'.asked = m.asked ∧
      ∃ arr, Holds ⟨ps.length + 1, some a⟩ (ps ++ [q]) arr ∧
        m'.heap.Owns (arr + (texts (ps ++ [q]) + bs)) := by
  have hlen : (pointers (ps ++ [q])).length = ps.length + 1 := by simp [pointers]
  have hcells : pointers ps ++ [.ptr q.1, d] = pointers (ps ++ [q]) ++ [d] := by simp [pointers]
  rw [hcells] at ho
  refine (writeAt_ends ho _ _ ?_).imp ?_
  · simp [hlen]
  · rintro _ m₁ ⟨hasked, ho₁⟩
    have hholds := Holds.strings (a := a) (append_ne_nil_of_right_ne_nil ps (cons_ne_nil q []))
    rw [length_append] at hholds
    refine ⟨hasked, _, hholds, ?_⟩
    rw [← hlen, take_left, length_singleton, drop_length_add_append,
      drop_of_length_le (le_refl 1), append_nil] at ho₁
    rw [texts_concat, cons_add]
    exact ho₁

end Vlibc.Wordexp
