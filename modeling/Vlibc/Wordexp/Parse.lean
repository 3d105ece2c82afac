import Vlibc.Wordexp.Matches

/-!
# `parse_word`

The function reads a word into a buffer that it enlarges when it is full. What the word is does not
depend on the buffer: `readWord` says what it is, and `parse_word` finds it, or finds the error, or
runs out of memory (`parseWord_ends`).
-/

namespace Vlibc.Wordexp

open List

open Ctype (isspace)

/-- `q`. -/
inductive Quote where
  | none
  | single
  | double
  deriving DecidableEq

/-- `buf`, `cap` and `len`. -/
structure Buffer where
  buf : ℕ
  cap : ℕ
  len : ℕ

/-- What `parse_word` returns: the word, whether it is a pattern, and the place behind it; or one of
the errors. -/
inductive Parsed where
  | word (text : ℕ) (doGlob : Bool) (rest : List UInt8)
  | nospace
  | invalid

section Buffers

variable (grants : ℕ → Bool)

/-- The characters are put behind the others. The buffer is enlarged first if it would be full. -/
def put (b : Buffer) (newCap : ℕ) (bytes : List UInt8) : Run (Option Buffer) := do
  if b.cap ≤ b.len + bytes.length then
    match ← realloc grants .buffer (some b.buf) newCap with
    | none =>
      release b.buf
      return none
    | some nb =>
      writeAt nb b.len (bytes.map .byte)
      return some ⟨nb, newCap, b.len + bytes.length⟩
  else
    writeAt b.buf b.len (bytes.map .byte)
    return some { b with len := b.len + bytes.length }

/-- A character goes into the buffer. -/
def putChar (b : Buffer) (c : UInt8) : Run (Option Buffer) := put grants b (b.cap * 2) [c]

/-- The loop that doubles `cap` until it is above `need`. -/
def doubled : ℕ → ℕ → ℕ → ℕ
  | 0, _, cap => cap
  | fuel + 1, need, cap => if cap ≤ need then doubled fuel need (cap * 2) else cap

/-- The home directory goes into the buffer. -/
def putHome (b : Buffer) (home : CStr) : Run (Option Buffer) :=
  put grants b (doubled (b.len + vstrlen home + 1) (b.len + vstrlen home) b.cap) home.bytes

end Buffers

/-- The characters of wildcards. -/
def isWild (c : UInt8) : Bool := c = '*'.toUInt8 ∨ c = '?'.toUInt8 ∨ c = '['.toUInt8

/-- The word is terminated. -/
def finish (b : Buffer) (glob : Bool) (s : List UInt8) : Run Parsed := do
  writeAt b.buf b.len [.byte 0]
  return .word b.buf glob s

/-- A quote is not closed, or there is nothing behind a backslash. -/
def fail (b : Buffer) : Run Parsed := do
  release b.buf
  return .invalid

/-- Go on with the buffer, or return if there is no memory for it. -/
def orNospace (x : Run (Option Buffer)) (f : Buffer → Run Parsed) : Run Parsed := do
  match ← x with
  | none => return .nospace
  | some b => f b

/-- The loop over the characters of a word, by the quote that is open. -/
def parseLoop (host : Host) : Quote → Bool → Buffer → List UInt8 → Run Parsed
  | q, glob, b, [] => if q = .none then finish b glob [] else fail b
  | .none, glob, b, c :: s =>
    if isspace c then finish b glob (c :: s)
    else if c = '\\'.toUInt8 then
      match s with
      | [] => fail b
      | d :: s => orNospace (putChar host.grants b d) fun b =>
        parseLoop host .none (if isWild d then false else glob) b s
    else if c = '\''.toUInt8 then parseLoop host .single glob b s
    else if c = '"'.toUInt8 then parseLoop host .double glob b s
    else if c = '~'.toUInt8 ∧ b.len = 0 then
      orNospace (putHome host.grants b (host.home.getD (str ""))) fun b =>
        parseLoop host .none glob b s
    else
      orNospace (putChar host.grants b c) fun b =>
        parseLoop host .none (if isWild c then true else glob) b s
  | .single, glob, b, c :: s =>
    if c = '\''.toUInt8 then parseLoop host .none glob b s
    else orNospace (putChar host.grants b c) fun b => parseLoop host .single glob b s
  | .double, glob, b, c :: s =>
    if c = '"'.toUInt8 then parseLoop host .none glob b s
    else if c = '\\'.toUInt8 then
      match s with
      | [] => fail b
      | d :: s => orNospace (putChar host.grants b d) fun b => parseLoop host .double glob b s
    else orNospace (putChar host.grants b c) fun b => parseLoop host .double glob b s

/-- `parse_word`. -/
def parseWord (host : Host) (s : List UInt8) : Run Parsed := do
  match ← malloc host.grants .buffer 16 with
  | none => return .nospace
  | some buf => parseLoop host .none true ⟨buf, 16, 0⟩ s

/-- The word at a place of the text, behind what has been read of it: its characters, whether it is a
pattern, and the place behind it. A backslash or double quotes keep a character as it is; a tilde at
the beginning is `HOME`. -/
def readWord (home : CStr) : Quote → Bool → List UInt8 → List UInt8 →
    Option (List UInt8 × Bool × List UInt8)
  | q, glob, word, [] => if q = .none then some (word, glob, []) else none
  | .none, glob, word, c :: s =>
    if isspace c then some (word, glob, c :: s)
    else if c = '\\'.toUInt8 then
      match s with
      | [] => none
      | d :: s => readWord home .none (if isWild d then false else glob) (word ++ [d]) s
    else if c = '\''.toUInt8 then readWord home .single glob word s
    else if c = '"'.toUInt8 then readWord home .double glob word s
    else if c = '~'.toUInt8 ∧ word = [] then readWord home .none glob home.bytes s
    else readWord home .none (if isWild c then true else glob) (word ++ [c]) s
  | .single, glob, word, c :: s =>
    if c = '\''.toUInt8 then readWord home .none glob word s
    else readWord home .single glob (word ++ [c]) s
  | .double, glob, word, c :: s =>
    if c = '"'.toUInt8 then readWord home .none glob word s
    else if c = '\\'.toUInt8 then
      match s with
      | [] => none
      | d :: s => readWord home .double glob (word ++ [d]) s
    else readWord home .double glob (word ++ [c]) s

theorem readWord_rest {home : CStr} {q : Quote} {glob glob' : Bool} {l l' s rest : List UInt8}
    (h : readWord home q glob l s = some (l', glob', rest)) :
    rest <:+ s ∧ ∀ c ∈ rest.head?, isspace c = true := by
  fun_induction readWord home q glob l s with
  | case1 glob l =>
    cases h
    exact ⟨suffix_refl _, fun c hc => by cases hc⟩
  | case3 glob l c s hspace =>
    cases h
    exact ⟨suffix_refl _, fun d hd => by cases hd; exact hspace⟩
  | case2 | case4 | case13 => cases h
  | case5 glob l d s _ ih | case14 glob l d s _ ih =>
    obtain ⟨hsuffix, hhead⟩ := ih h
    exact ⟨hsuffix.trans ((suffix_cons d s).trans (suffix_cons _ _)), hhead⟩
  | case6 | case7 | case8 | case9 | case10 | case11 | case12 | case15 =>
    rename_i ih
    obtain ⟨hsuffix, hhead⟩ := ih h
    exact ⟨hsuffix.trans (suffix_cons _ _), hhead⟩

/-! ## The buffer -/

/-- The buffer holds these characters, and has room for the terminator. -/
structure Buffer.Holds (b : Buffer) (l : List UInt8) : Prop where
  len_eq : b.len = l.length
  lt_cap : l.length < b.cap

/-- The cells of a buffer that holds these characters. -/
def Buffer.cells (b : Buffer) (l : List UInt8) : List Cell :=
  l.map .byte ++ List.replicate (b.cap - l.length) .junk

variable {grants : ℕ → Bool} {b : Buffer} {l bytes : List UInt8} {bs : Blocks}
  {m m' : Memory Cell Request}

theorem Buffer.length_cells (h : b.Holds l) : (b.cells l).length = b.cap := by
  have := h.lt_cap
  simp only [cells, length_append, length_map, length_replicate]
  omega

open Buffer

theorem writeAt_bytes_ends (bytes : List UInt8) (hlen : l.length + bytes.length ≤ b.cap)
    (ho : m.heap.Owns ((b.buf, b.cells l) ::ₘ bs)) :
    Ends (writeAt b.buf l.length (bytes.map .byte)) m fun _ m' =>
      m'.asked = m.asked ∧ m'.heap.Owns ((b.buf, b.cells (l ++ bytes)) ::ₘ bs) := by
  refine (writeAt_ends ho _ _ ?_).imp ?_
  · simp only [cells, length_append, length_map, length_replicate]
    omega
  · rintro _ m₁ ⟨hasked, ho₁⟩
    have hcells : (b.cells l).take l.length ++ bytes.map Cell.byte ++
        (b.cells l).drop (l.length + (bytes.map Cell.byte).length) = b.cells (l ++ bytes) := by
      have hl : (l.map Cell.byte).length = l.length := length_map _
      rw [cells, cells, length_map, take_left' hl, ← drop_drop,
        drop_left' hl, drop_replicate, Nat.sub_sub, map_append, length_append]
    rw [hcells] at ho₁
    exact ⟨hasked, ho₁⟩

/-- The characters have been put behind the others, or the buffer has been freed. -/
def PutTo (grants : ℕ → Bool) (l : List UInt8) (bs : Blocks) (m : Memory Cell Request)
    (answer : Option Buffer) (m' : Memory Cell Request) : Prop :=
  (answer = none ∧ Refused grants .buffer m.asked m'.asked ∧ m'.heap.Owns bs) ∨
  (∃ b', answer = some b' ∧ Granted m.asked m'.asked ∧ b'.Holds l ∧
    m'.heap.Owns ((b'.buf, b'.cells l) ::ₘ bs))

/-- **The buffer is enlarged if necessary**, or the request is refused and it is freed. -/
theorem put_ends (h : b.Holds l) {newCap : ℕ} (hle : b.cap ≤ newCap)
    (hnew : b.cap ≤ l.length + bytes.length → l.length + bytes.length < newCap)
    (ho : m.heap.Owns ((b.buf, b.cells l) ::ₘ bs)) :
    Ends (put grants b newCap bytes) m (PutTo grants (l ++ bytes) bs m) := by
  have hlt := h.lt_cap
  have hl : (l ++ bytes).length = l.length + bytes.length := length_append
  rw [put, h.len_eq]
  by_cases hfull : b.cap ≤ l.length + bytes.length
  · rw [if_pos hfull]
    have hsize := (length_cells h).trans_le hle
    have ho' : m.heap.Owns (blockOf (some b.buf) (b.cells l) + bs) := ho
    refine (realloc_ends ho' (fun e => absurd e (Option.some_ne_none _)) hsize .buffer).bind ?_
    rintro _ m₁ (⟨hg, hasked₁, hheap⟩ | ⟨nb, -, hasked₁, -, ho₁⟩)
    · rw [← hheap] at ho
      refine (release_ends ho).bind ?_
      rintro _ m₂ ⟨hasked₂, ho₂⟩
      exact .pure (.inl ⟨rfl, by rw [hasked₂, hasked₁]; exact refused_concat hg _, ho₂⟩)
    · have hcells : b.cells l ++ List.replicate (newCap - (b.cells l).length) Cell.junk =
          cells ⟨nb, newCap, l.length⟩ l := by
        rw [length_cells h, cells, cells, append_assoc, replicate_append_replicate]
        congr 2
        change b.cap - l.length + (newCap - b.cap) = newCap - l.length
        omega
      rw [hcells] at ho₁
      refine (writeAt_bytes_ends (b := ⟨nb, newCap, l.length⟩) _ (le_of_lt (hnew hfull)) ho₁).bind ?_
      rintro _ m₂ ⟨hasked₂, ho₂⟩
      refine .pure (.inr ⟨_, rfl, ?_, ⟨hl.symm, hl.trans_lt (hnew hfull)⟩, ho₂⟩)
      rw [hasked₂, hasked₁]
      exact granted_concat _ _
  · rw [if_neg hfull]
    refine (writeAt_bytes_ends _ (le_of_lt (Nat.lt_of_not_le hfull)) ho).bind ?_
    rintro _ m₁ ⟨hasked₁, ho₁⟩
    refine .pure (.inr ⟨_, rfl, hasked₁ ▸ .refl _, ⟨hl.symm, hl.trans_lt (Nat.lt_of_not_le hfull)⟩, ho₁⟩)

theorem lt_doubled (fuel need : ℕ) {cap : ℕ} (hcap : 0 < cap) (hfuel : need < cap + fuel) :
    cap ≤ doubled fuel need cap ∧ need < doubled fuel need cap := by
  induction fuel generalizing cap with
  | zero => exact ⟨le_refl _, hfuel⟩
  | succ fuel ih =>
    rw [doubled]
    by_cases hle : cap ≤ need
    · rw [if_pos hle]
      obtain ⟨h1, h2⟩ := @ih (cap * 2) (by omega) (by omega)
      exact ⟨by omega, h2⟩
    · rw [if_neg hle]
      exact ⟨le_refl _, Nat.lt_of_not_le hle⟩

theorem putChar_ends (h : b.Holds l) (ho : m.heap.Owns ((b.buf, b.cells l) ::ₘ bs)) (c : UInt8) :
    Ends (putChar grants b c) m (PutTo grants (l ++ [c]) bs m) := by
  have hlt := h.lt_cap
  exact put_ends h (by omega) (by rw [length_singleton]; omega) ho

theorem putHome_ends (h : b.Holds []) (ho : m.heap.Owns ((b.buf, b.cells []) ::ₘ bs)) (home : CStr) :
    Ends (putHome grants b home) m (PutTo grants home.bytes bs m) := by
  have hlt := h.lt_cap
  have hlen : b.len = 0 := h.len_eq
  have hdoubled := lt_doubled (b.len + vstrlen home + 1) (b.len + vstrlen home)
    (Nat.zero_lt_of_lt hlt) (by omega)
  refine put_ends h hdoubled.1 (fun _ => ?_) ho
  have hneed := hdoubled.2
  rw [hlen] at hneed ⊢
  exact hneed

/-! ## The loop -/

/-- What is left after `parse_word`: the word in a block of its own, or nothing. -/
def Outcome (grants : ℕ → Bool) (bs : Blocks) (m : Memory Cell Request)
    (word : Option (List UInt8 × Bool × List UInt8)) :
    Parsed → Memory Cell Request → Prop
  | .nospace, m' => Refused grants .buffer m.asked m'.asked ∧ m'.heap.Owns bs
  | .invalid, m' => word = none ∧ Granted m.asked m'.asked ∧ m'.heap.Owns bs
  | .word p glob rest, m' => ∃ (text : CStr) (cells : List Cell), word = some (text.bytes, glob, rest) ∧
    Granted m.asked m'.asked ∧ textOf cells = some text ∧ m'.heap.Owns ((p, cells) ::ₘ bs)

variable {word : Option (List UInt8 × Bool × List UInt8)} {out : Parsed}

theorem Outcome.of_granted {m₁ : Memory Cell Request} (hg : Granted m.asked m₁.asked)
    (h : Outcome grants bs m₁ word out m') : Outcome grants bs m word out m' := by
  cases out with
  | nospace => exact ⟨hg.refused h.1, h.2⟩
  | invalid => exact ⟨h.1, hg.trans h.2.1, h.2.2⟩
  | word p glob rest =>
    obtain ⟨text, cells, hword, hg', hcells, ho⟩ := h
    exact ⟨text, cells, hword, hg.trans hg', hcells, ho⟩

theorem orNospace_ends {x : Run (Option Buffer)} {f : Buffer → Run Parsed}
    (hx : Ends x m (PutTo grants l bs m))
    (hf : ∀ b m', b.Holds l → m'.heap.Owns ((b.buf, b.cells l) ::ₘ bs) →
      Ends (f b) m' (Outcome grants bs m' word)) : Ends (orNospace x f) m (Outcome grants bs m word) := by
  refine hx.bind ?_
  rintro _ m₁ (⟨rfl, hr, ho⟩ | ⟨b', rfl, hg, hb, ho⟩)
  · exact .pure ⟨hr, ho⟩
  · exact (hf b' m₁ hb ho).imp fun out m₂ hout => hout.of_granted hg

theorem finish_ends (h : b.Holds l) (h0 : 0 ∉ l) (ho : m.heap.Owns ((b.buf, b.cells l) ::ₘ bs))
    (glob : Bool) (s : List UInt8) :
    Ends (finish b glob s) m (Outcome grants bs m (some (l, glob, s))) := by
  have hlt := h.lt_cap
  rw [finish, h.len_eq]
  refine (writeAt_bytes_ends [0] hlt ho).bind ?_
  rintro _ m₁ ⟨hasked, ho₁⟩
  refine .pure ⟨⟨l, h0⟩, _, rfl, hasked ▸ .refl _, ?_, ho₁⟩
  rw [cells, map_append, append_assoc]
  exact textOf_append ⟨l, h0⟩ _

theorem fail_ends (ho : m.heap.Owns ((b.buf, b.cells l) ::ₘ bs)) :
    Ends (fail b) m (Outcome grants bs m none) := by
  refine (release_ends ho).bind ?_
  rintro _ m₁ ⟨hasked, ho₁⟩
  exact .pure ⟨rfl, hasked ▸ .refl _, ho₁⟩

theorem not_mem_concat {c : UInt8} (hl : 0 ∉ l) (hc : 0 ≠ c) : 0 ∉ l ++ [c] := by
  simp [hl, hc]

theorem parseLoop_ends (host : Host) (q : Quote) (glob : Bool) (l s : List UInt8) (hs : 0 ∉ s)
    (hl : 0 ∉ l) (hb : b.Holds l) (ho : m.heap.Owns ((b.buf, b.cells l) ::ₘ bs)) :
    Ends (parseLoop host q glob b s) m
      (Outcome host.grants bs m (readWord (host.home.getD (str "")) q glob l s)) := by
  fun_induction readWord (host.home.getD (str "")) q glob l s generalizing b m with
  | case1 glob l =>
    rw [parseLoop, if_pos rfl]
    exact finish_ends hb hl ho glob []
  | case2 q glob l hq =>
    rw [parseLoop, if_neg hq]
    exact fail_ends ho
  | case3 glob l c s hspace =>
    rw [parseLoop.eq_def]
    dsimp only
    rw [if_pos hspace]
    exact finish_ends hb hl ho glob (c :: s)
  | case4 glob l hspace =>
    rw [parseLoop, if_neg hspace, if_pos rfl]
    exact fail_ends ho
  | case5 glob l d s hspace ih =>
    obtain ⟨hd, hs⟩ := ne_and_not_mem_of_not_mem_cons (not_mem_of_not_mem_cons hs)
    rw [parseLoop, if_neg hspace, if_pos rfl]
    exact orNospace_ends (putChar_ends hb ho d) fun b m => ih hs (not_mem_concat hl hd)
  | case6 glob l s hspace hesc ih =>
    rw [parseLoop.eq_def]
    dsimp only
    rw [if_neg hspace, if_neg hesc, if_pos rfl]
    exact ih (not_mem_of_not_mem_cons hs) hl hb ho
  | case7 glob l s hspace hesc hsingle ih =>
    rw [parseLoop.eq_def]
    dsimp only
    rw [if_neg hspace, if_neg hesc, if_neg hsingle, if_pos rfl]
    exact ih (not_mem_of_not_mem_cons hs) hl hb ho
  | case8 glob l c s hspace hesc hsingle hdouble htilde ih =>
    obtain ⟨hc, rfl⟩ := htilde
    rw [parseLoop.eq_def]
    dsimp only
    rw [if_neg hspace, if_neg hesc, if_neg hsingle, if_neg hdouble, if_pos ⟨hc, hb.len_eq⟩]
    exact orNospace_ends (putHome_ends hb ho _) fun b m =>
      ih (not_mem_of_not_mem_cons hs) (CStr.noNul _)
  | case9 glob l c s hspace hesc hsingle hdouble htilde ih =>
    obtain ⟨hc, hs⟩ := ne_and_not_mem_of_not_mem_cons hs
    have htilde' : ¬ (c = '~'.toUInt8 ∧ b.len = 0) := fun h =>
      htilde ⟨h.1, length_eq_zero_iff.1 (hb.len_eq.symm.trans h.2)⟩
    rw [parseLoop.eq_def]
    dsimp only
    rw [if_neg hspace, if_neg hesc, if_neg hsingle, if_neg hdouble, if_neg htilde']
    exact orNospace_ends (putChar_ends hb ho c) fun b m => ih hs (not_mem_concat hl hc)
  | case10 glob l s ih =>
    rw [parseLoop, if_pos rfl]
    exact ih (not_mem_of_not_mem_cons hs) hl hb ho
  | case11 glob l c s hquote ih =>
    obtain ⟨hc, hs⟩ := ne_and_not_mem_of_not_mem_cons hs
    rw [parseLoop, if_neg hquote]
    exact orNospace_ends (putChar_ends hb ho c) fun b m => ih hs (not_mem_concat hl hc)
  | case12 glob l s ih =>
    rw [parseLoop.eq_def]
    dsimp only
    rw [if_pos rfl]
    exact ih (not_mem_of_not_mem_cons hs) hl hb ho
  | case13 glob l hquote =>
    rw [parseLoop, if_neg hquote, if_pos rfl]
    exact fail_ends ho
  | case14 glob l d s hquote ih =>
    obtain ⟨hd, hs⟩ := ne_and_not_mem_of_not_mem_cons (not_mem_of_not_mem_cons hs)
    rw [parseLoop, if_neg hquote, if_pos rfl]
    exact orNospace_ends (putChar_ends hb ho d) fun b m => ih hs (not_mem_concat hl hd)
  | case15 glob l c s hquote hesc ih =>
    obtain ⟨hc, hs⟩ := ne_and_not_mem_of_not_mem_cons hs
    rw [parseLoop.eq_def]
    dsimp only
    rw [if_neg hquote, if_neg hesc]
    exact orNospace_ends (putChar_ends hb ho c) fun b m => ih hs (not_mem_concat hl hc)

theorem parseWord_ends (host : Host) (s : List UInt8) (hs : 0 ∉ s) (ho : m.heap.Owns bs) :
    Ends (parseWord host s) m
      (Outcome host.grants bs m (readWord (host.home.getD (str "")) .none true [] s)) := by
  refine (malloc_ends ho .buffer 16).bind ?_
  rintro _ m₁ (⟨hg, hasked, hheap⟩ | ⟨p, -, hasked, ho₁⟩)
  · exact .pure ⟨hasked ▸ refused_concat hg _, hheap ▸ ho⟩
  · have hstart : Buffer.Holds ⟨p, 16, 0⟩ [] := ⟨rfl, Nat.zero_lt_succ 15⟩
    refine (parseLoop_ends host .none true [] s hs not_mem_nil hstart ho₁).imp ?_
    exact fun out m₂ hout => hout.of_granted (hasked ▸ granted_concat _ _)

end Vlibc.Wordexp
