import Mathlib.Data.List.Chain
import Vlibc.Stdio.Pushback

/-!
# Records of `getdelim`

A call of `getdelim` takes the bytes up to the first delimiter, or all that are left (`upTo`), and
leaves them with a terminator in a buffer that it makes larger when it has to (`getdelim_record`).
The calls up to the one that returns `-1` share the buffer and split what the stream has to give
(`getdelims_records`).
-/

namespace Vlibc.Stdio

open List Option

variable {α : Type*} [Octet α] {k : Kernel α} {s : Stream α} {d : UInt8} {rest : List α}

/-- The bytes up to the first delimiter, or all if there is none. -/
def upTo (d : UInt8) : List α → List α
  | [] => []
  | c :: rest => if Octet.byte c = d then [c] else c :: upTo d rest

/-- A record with its delimiter, which stands nowhere else. -/
def Delimited (d : UInt8) (t : List α) : Prop :=
  ∃ xs c, t = xs ++ [c] ∧ Octet.byte c = d ∧ ∀ x ∈ xs, Octet.byte x ≠ d

theorem upTo_isPrefix (d : UInt8) (rest : List α) : upTo d rest <+: rest := by
  induction rest with
  | nil => exact prefix_refl []
  | cons c rest ih =>
    rw [upTo]
    split
    · exact ⟨rest, rfl⟩
    · exact (prefix_cons_inj c).2 ih

theorem upTo_eq_nil_iff : upTo d rest = [] ↔ rest = [] := by
  cases rest with
  | nil => simp [upTo]
  | cons c rest =>
    rw [upTo]
    split <;> simp

theorem upTo_delimited (d : UInt8) (rest : List α) :
    Delimited d (upTo d rest) ∨ upTo d rest = rest ∧ ∀ x ∈ rest, Octet.byte x ≠ d := by
  induction rest with
  | nil => exact .inr ⟨rfl, by simp⟩
  | cons c rest ih =>
    rw [upTo]
    split
    · next hc => exact .inl ⟨[], c, rfl, hc, by simp⟩
    · next hc =>
      rcases ih with ⟨xs, b, heq, hb, hxs⟩ | ⟨heq, hnone⟩
      · refine .inl ⟨c :: xs, b, by rw [heq]; rfl, hb, ?_⟩
        exact forall_mem_cons.2 ⟨hc, hxs⟩
      · exact .inr ⟨by rw [heq], forall_mem_cons.2 ⟨hc, hnone⟩⟩

variable {l : Line α}

omit [Octet α] in
theorem Line.Holds.empty {bs : List α} {room : ℕ} (h : l.Holds bs room)
    (hpos : 0 < bs.length + room) : l.Holds [] 1 := by
  obtain ⟨⟨r, hptr, hlen, -⟩, hroom⟩ := h
  exact ⟨⟨r, hptr, hlen, rfl⟩, by simp only [length_nil]; omega⟩

omit [Octet α] in
theorem Line.Holds.text_append {bs cs : List α} {room : ℕ}
    (h : l.Holds (bs ++ cs) room) : l.text bs.length = bs := by
  obtain ⟨⟨r, hptr, -, hbs⟩, -⟩ := h
  have := congrArg (List.take bs.length) hbs
  rw [take_take, take_left, Nat.min_eq_left (by simp)] at this
  simp [Line.text, hptr, this]

omit [Octet α] in
/-- With memory to be had there is room, and the buffer does not become smaller. -/
theorem Line.reserve_some {pos : ℕ} (halloc : ∀ i, (k.alloc i).isSome) (y : Sys α)
    (hpos : pos < SSIZE_MAX) :
    ∃ y' l', l.reserve k y pos = (y', some l') ∧ l.n ≤ l'.n := by
  unfold Line.reserve
  split
  · next hle =>
    obtain ⟨⟨addr, fresh⟩, ha⟩ := isSome_iff_exists.1 (halloc y.tick)
    refine ⟨y.next, ⟨some ⟨addr, regrow ((l.ptr.map Region.bytes).getD []) fresh (l.n * 2 % 2 ^ 64)⟩,
      l.n * 2 % 2 ^ 64⟩, by simp only [Line.alloc, ha], ?_⟩
    unfold SSIZE_MAX at hpos
    dsimp only
    omega
  · exact ⟨y, l, rfl, le_refl _⟩

omit [Octet α] in
theorem Shows.of_disk {y : Sys α} (h : Shows s rest) (hy : y.disk = s.sys.disk) :
    Shows ⟨s.file, y⟩ rest := by
  refine ⟨?_, h.sound, h.ungot, h.eof⟩
  rw [← h.ahead]
  simp only [Stream.ahead, hy]

/-! ## One call -/

/-- What a call leaves: the rest of the stream, and the record with a terminator in the buffer. At
the end of the stream it returns `-1`. -/
structure Recorded (t rest : List α) (l : Line α) (s' : Stream α) (l' : Line α) (r : ℤ) : Prop where
  stream : Shows s' rest
  grows : l.n ≤ l'.n
  buffer : l'.Holds [] 1
  ended : t = [] → r = -1
  record : t ≠ [] → r = t.length ∧ l'.Holds (t ++ [Octet.nul]) 0

/-- By induction on what is left: the line holds the bytes before it, among which the delimiter is
not. -/
theorem getdelimLoop_record (hk : k.Reads) (halloc : ∀ i, (k.alloc i).isSome) {fuel : ℕ}
    {bs : List α} (hs : Shows s rest) (hl : l.Holds bs 1)
    (hlen : bs.length + rest.length ≤ SSIZE_MAX) (hfuel : rest.length < fuel) :
    ∃ s' l' r, Stream.getdelimLoop k d.toNat fuel s l bs.length = some (s', l', r) ∧
      Recorded (bs ++ upTo d rest) (rest.drop (upTo d rest).length) l s' l' r := by
  induction rest generalizing s l bs fuel with
  | nil =>
    obtain _ | fuel := fuel
    · omega
    rcases hgetc : s.fgetc k with ⟨t, c⟩
    obtain ⟨hc, hsound, heof⟩ := fgetc_all hk hs.sound hs.ungot hgetc
    rw [hs.ahead] at hc
    subst hc
    have ht := hs.of_gave (fgetc_gave hs.ungot hgetc) hsound heof
    rw [Stream.getdelimLoop, hgetc]
    dsimp only [head?_nil]
    rw [upTo, append_nil]
    split
    · next hbs =>
      refine ⟨t, l, -1, rfl, ht, le_refl _, hl.empty (by omega), fun _ => rfl, fun h => ?_⟩
      exact absurd (length_eq_zero_iff.1 hbs) h
    · next hbs =>
      have hset := hl.set (Octet.nul : α)
      refine ⟨t, l.set bs.length Octet.nul, bs.length, rfl, ht, le_refl _, hset.empty (by simp),
        fun h => absurd (h ▸ rfl) hbs, fun _ => ⟨rfl, hset⟩⟩
  | cons c rest ih =>
    obtain _ | fuel := fuel
    · omega
    rcases hgetc : s.fgetc k with ⟨t, c'⟩
    obtain ⟨hc, hsound, heof⟩ := fgetc_all hk hs.sound hs.ungot hgetc
    rw [hs.ahead, head?_cons] at hc
    subst hc
    have ht := hs.of_gave (fgetc_gave hs.ungot hgetc) hsound heof
    rw [length_cons] at hlen hfuel
    have hpos : bs.length < SSIZE_MAX := by omega
    obtain ⟨y, lr, hres, hgrows⟩ := Line.reserve_some (l := l) halloc t.sys hpos
    have hset := (hl.reserve (by omega) hres).set c
    have hlen' : (bs ++ [c]).length = bs.length + 1 := length_append
    rw [Stream.getdelimLoop, hgetc]
    dsimp only
    rw [hres]
    dsimp only
    rw [upTo]
    by_cases hd : Octet.byte c = d
    · rw [if_pos (by rw [hd]), if_pos hd, ← hlen']
      have hterm := hset.set (Octet.nul : α)
      refine ⟨_, _, _, rfl, ht.of_disk (Line.reserve_disk hres), hgrows, hterm.empty (by simp),
        fun h => absurd h (by simp), fun _ => ⟨rfl, hterm⟩⟩
    · have hne : ¬ ((Octet.byte c).toNat : ℤ) = d.toNat := by
        intro h
        exact hd (UInt8.toNat_inj.1 (by exact_mod_cast h))
      rw [if_neg hne, if_neg hd, ← hlen']
      obtain ⟨s', l', r, hrun, htook⟩ := ih (ht.of_disk (Line.reserve_disk hres)) hset
        (by rw [hlen']; omega) (by omega : rest.length < fuel)
      rw [append_assoc, singleton_append] at htook
      exact ⟨s', l', r, hrun, htook.stream, hgrows.trans htook.grows, htook.buffer, htook.ended,
        htook.record⟩

/-- `*lineptr` is `NULL`, or a buffer of `*n` bytes with room for one at least. -/
def Line.Usable (l : Line α) : Prop := l.ptr = none ∨ l.Holds [] 1

/-- **A call of `getdelim`** takes the record that the stream begins with. -/
theorem getdelim_record (hk : k.Reads) (halloc : ∀ i, (k.alloc i).isSome) (d : UInt8)
    (hs : Shows s rest) (hl : l.Usable) (hlen : rest.length ≤ SSIZE_MAX) :
    ∃ s' l' r, s.getdelim k l d.toNat = some (s', l', r) ∧
      Recorded (upTo d rest) (rest.drop (upTo d rest).length) l s' l' r := by
  have hrounds : rest.length < s.ahead.length + 2 := by
    rw [hs.ahead]
    omega
  unfold Stream.getdelim
  dsimp only
  split
  · next hnone =>
    obtain ⟨⟨addr, fresh⟩, ha⟩ := isSome_iff_exists.1 (halloc s.sys.tick)
    generalize hn : (if l.n = 0 then 128 else l.n) = n
    have hpos : l.n ≤ n ∧ 0 < n := by
      rw [← hn]
      split <;> omega
    rw [Line.alloc, ha]
    have hholds : (⟨some ⟨addr, regrow [] fresh n⟩, n⟩ : Line α).Holds [] 1 :=
      ⟨⟨_, rfl, length_regrow _ _ _, rfl⟩, by simp only [length_nil]; omega⟩
    obtain ⟨s', l', r, hrun, htook⟩ := getdelimLoop_record (d := d) hk halloc
      (hs.of_disk (y := s.sys.next) rfl) hholds (by simpa using hlen) hrounds
    exact ⟨s', l', r, hrun, htook.stream, hpos.1.trans htook.grows, htook.buffer, htook.ended,
      htook.record⟩
  · next hbuf =>
    have hholds : l.Holds [] 1 := by
      rcases hl with h | h
      · exact absurd (.inl (by rw [h]; rfl)) hbuf
      · exact h
    exact getdelimLoop_record hk halloc hs hholds (by simpa using hlen) hrounds

/-! ## Calls up to the end -/

/-- Calls of `getdelim` until one returns `-1`: the line and the return value of each but the last,
and the line after the last. -/
def Stream.getdelims (k : Kernel α) (delim : ℤ) :
    (calls : ℕ) → Stream α → Line α → Option (List (Line α × ℤ) × Line α)
  | 0, _, _ => none
  | calls + 1, s, l =>
    match s.getdelim k l delim with
    | none => none
    | some (s, l, r) =>
      if r = -1 then some ([], l)
      else (getdelims k delim calls s l).map fun (rs, last) => ((l, r) :: rs, last)

/-- The record that a call of `getdelim` returned. -/
def recordOf (p : Line α × ℤ) : List α := p.1.text p.2

/-- The records split `c`, and each one lies with a terminator in the buffer of its call. -/
structure Splits (d : UInt8) (c : List α) (l : Line α) (rs : List (Line α × ℤ)) (last : Line α) :
    Prop where
  concat : rs.flatMap recordOf = c
  nonempty : ∀ p ∈ rs, recordOf p ≠ []
  delimited : ∀ p ∈ rs.dropLast, Delimited d (recordOf p)
  final : ∀ p ∈ rs.getLast?, Delimited d (recordOf p) ∨ ∀ x ∈ recordOf p, Octet.byte x ≠ d
  buffer : ∀ p ∈ rs, p.2 = (recordOf p).length ∧ p.1.Holds (recordOf p ++ [Octet.nul]) 0
  grows : List.IsChain (· ≤ ·) (l.n :: (rs.map fun p => p.1.n) ++ [last.n])

theorem Splits.cons {l l' last : Line α} {rs : List (Line α × ℤ)} {t c : List α} {r : ℤ}
    (h : Splits d c l' rs last) (hne : t ≠ [])
    (hrecord : r = t.length ∧ l'.Holds (t ++ [Octet.nul]) 0) (hgrows : l.n ≤ l'.n)
    (ht : Delimited d t ∨ c = [] ∧ ∀ x ∈ t, Octet.byte x ≠ d) :
    Splits d (t ++ c) l ((l', r) :: rs) last := by
  have htext : recordOf (l', r) = t := by
    rw [recordOf, hrecord.1]
    exact hrecord.2.text_append
  refine ⟨?_, ?_, ?_, ?_, ?_, ?_⟩
  · rw [flatMap_cons, htext, h.concat]
  · rw [forall_mem_cons, htext]
    exact ⟨hne, h.nonempty⟩
  · cases rs with
    | nil => simp
    | cons p rs =>
      rw [dropLast_cons_of_ne_nil (cons_ne_nil p rs), forall_mem_cons, htext]
      refine ⟨ht.resolve_right fun hc => ?_, h.delimited⟩
      -- another record follows, so something is left
      have hp := h.nonempty p mem_cons_self
      have hconcat := h.concat
      rw [hc.1, flatMap_cons, append_eq_nil_iff] at hconcat
      exact hp hconcat.1
  · cases rs with
    | nil =>
      intro p hp
      obtain rfl : (l', r) = p := some.inj hp
      rw [htext]
      exact ht.imp_right And.right
    | cons p rs =>
      rw [getLast?_cons_cons]
      exact h.final
  · rw [forall_mem_cons, htext]
    exact ⟨hrecord, h.buffer⟩
  · rw [map_cons, cons_append, cons_append, isChain_cons_cons]
    exact ⟨hgrows, h.grows⟩

/-- **Repeated calls of `getdelim` split a stream into records.** With `read` returning at least one
byte until the file ends and memory to be had, from any buffer, a call that returns `-1` is reached;
the records of the calls before it make up the content, each one ends with the delimiter and has it
nowhere else, except that the last may lack it; each call leaves its record and a terminator in a
buffer of `*n` bytes, and `*n` does not decrease. -/
theorem getdelims_records (hk : k.Reads) (halloc : ∀ i, (k.alloc i).isSome) (d : UInt8)
    {c : List α} (hs : Shows s c) (hlen : c.length ≤ SSIZE_MAX) {l : Line α} (hl : l.Usable) :
    ∃ rs last, s.getdelims k d.toNat (c.length + 1) l = some (rs, last) ∧ Splits d c l rs last := by
  suffices h : ∀ calls, c.length < calls → ∃ rs last,
      s.getdelims k d.toNat calls l = some (rs, last) ∧ Splits d c l rs last from h _ (by omega)
  intro calls hcalls
  induction calls generalizing s c l with
  | zero => omega
  | succ calls ih =>
    obtain ⟨s', l', r, hrun, htook⟩ := getdelim_record hk halloc d hs hl hlen
    rw [Stream.getdelims, hrun]
    dsimp only
    by_cases hc : c = []
    · have hr := htook.ended (upTo_eq_nil_iff.2 hc)
      rw [if_pos hr]
      refine ⟨[], l', rfl, hc.symm, by simp, by simp, by simp, by simp, ?_⟩
      simpa using htook.grows
    · have ht : upTo d c ≠ [] := mt upTo_eq_nil_iff.1 hc
      obtain ⟨hr, hholds⟩ := htook.record ht
      have hsplit := prefix_iff_eq_append.1 (upTo_isPrefix d c)
      have hlength := congrArg List.length hsplit
      rw [length_append] at hlength
      have hpos := length_pos_iff.2 ht
      obtain ⟨rs, last, hrest, hsplits⟩ := ih htook.stream (by omega) (.inr htook.buffer) (by omega)
      have hdelim : Delimited d (upTo d c) ∨
          c.drop (upTo d c).length = [] ∧ ∀ x ∈ upTo d c, Octet.byte x ≠ d := by
        refine (upTo_delimited d c).imp_right fun h => ?_
        rw [h.1, drop_length]
        exact ⟨rfl, h.2⟩
      have hcons := hsplits.cons ht ⟨hr, hholds⟩ htook.grows hdelim
      rw [hsplit] at hcons
      rw [if_neg (by omega), hrest]
      exact ⟨(l', r) :: rs, last, rfl, hcons⟩

/-- One byte from every call of `read`, and memory. -/
def roomy : Kernel UInt8 := { slowReads with alloc := fun i => some (i, fun _ => 0) }

/-- A stream on a file with the lines `a` and `b`, the second one without its newline. -/
def lines : Stream UInt8 := Stream.onFile ⟨File.fopen 3, Sys.start⟩ [97, 10, 98]

theorem getdelims_records_lines :
    Shows lines [97, 10, 98] ∧ (⟨none, 0⟩ : Line UInt8).Usable ∧
    ∃ rs last, lines.getdelims roomy (10 : UInt8).toNat 4 ⟨none, 0⟩ = some (rs, last) ∧
      Splits 10 [97, 10, 98] ⟨none, 0⟩ rs last := by
  have hs : Shows lines [97, 10, 98] := Opened.shows (.fopen (k := roomy) 3) rfl _
  exact ⟨hs, .inl rfl, getdelims_records (k := roomy) (fun _ => rfl) (fun _ => rfl) 10 hs (by decide)
    (.inl rfl)⟩

end Vlibc.Stdio
