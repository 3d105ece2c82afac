import Vlibc.Stdio.Ahead

/-!
# Reading a file

Each call of `fgetc`, `fgets` and `fread` on a descriptor stream returns the next bytes of the file,
as many as it may (`ReadOp.expects`). A stream that shows the rest of a file (`Shows`) returns what
the specification says and shows what is left then, one call after the other (`reads_shows`).
-/

namespace Vlibc.Stdio

open List Stdio.Stream

variable {α : Type*} {k : Kernel α} {s s' t : Stream α} {rest : List α} {n : ℕ}

/-- The functions that read. -/
inductive ReadOp
  | fgetc
  | fgets (size : ℤ)
  | fread (size nmemb : ℕ)

/-- What they return. -/
inductive Got (α : Type*)
  /-- A byte, or `-1`. -/
  | char (c : Option α)
  /-- A string with its terminator, or `NULL`. -/
  | line (str : Option (List α))
  /-- The bytes stored, and the number of whole items. -/
  | items (bytes : List α) (count : ℕ)

/-- The bytes of the stream that the caller has got. -/
def Got.bytes : Got α → List α
  | char c => c.toList
  | line str => (str.getD []).dropLast
  | items bytes _ => bytes

/-- The first `n` bytes, up to the first newline. -/
def record [Octet α] (n : ℕ) (rest : List α) : List α :=
  (rest.take n).take ((rest.take n).findIdx (fun c => Octet.byte c = 10) + 1)

namespace ReadOp

/-- Calls that ask for something: a size of at least one, a number of bytes below `SIZE_MAX`. -/
def Fits : ReadOp → Prop
  | fgetc => True
  | fgets size => 1 ≤ size
  | fread size nmemb => size * nmemb < 2 ^ 64

/-- What the call is to return if `rest` is left of the file. -/
def expects [Octet α] (rest : List α) : ReadOp → Got α
  | fgetc => .char rest.head?
  | fgets size =>
    let n := (size - 1).toNat
    .line (if rest = [] ∧ n ≠ 0 then none else some (record n rest ++ [Octet.nul]))
  | fread size nmemb =>
    let bytes := rest.take (size * nmemb)
    .items bytes (bytes.length / size)

/-- What a call does. -/
def exec [Octet α] (k : Kernel α) (s : Stream α) : ReadOp → Stream α × Got α
  | fgetc => ((s.fgetc k).1, .char (s.fgetc k).2)
  | fgets size => ((s.fgets k size).1, .line (s.fgets k size).2)
  | fread size nmemb =>
    let (s, bytes, count) := s.fread k size nmemb
    (s, .items bytes count)

end ReadOp

/-- What the calls return for a content. -/
def expected [Octet α] : List ReadOp → List α → List (Got α)
  | [], _ => []
  | op :: ops, rest =>
    op.expects rest :: expected ops (rest.drop (op.expects rest).bytes.length)

/-- A sequence of calls. -/
def Stream.reads [Octet α] (k : Kernel α) : List ReadOp → Stream α → Stream α × List (Got α)
  | [], s => (s, [])
  | op :: ops, s =>
    let (s, got) := op.exec k s
    let (s, gots) := reads k ops s
    (s, got :: gots)

/-- The stream on a file with the content `c`, at its start. -/
def Stream.onFile (s : Stream α) (c : List α) : Stream α := ⟨s.file, { s.sys with disk := ⟨c, 0⟩ }⟩

section record

variable [Octet α]

theorem record_zero (rest : List α) : record 0 rest = [] := by
  simp [record]

theorem record_nil (n : ℕ) : record n ([] : List α) = [] := by
  simp [record]

theorem record_cons (n : ℕ) (c : α) (rest : List α) :
    record (n + 1) (c :: rest) = if Octet.byte c = 10 then [c] else c :: record n rest := by
  unfold record
  rw [take_succ_cons, findIdx_cons]
  split <;> simp_all

theorem record_eq_take (n : ℕ) (rest : List α) :
    record n rest = rest.take (record n rest).length := by
  unfold record
  rw [take_take, length_take]
  rw [List.take_eq_take_iff]
  omega

theorem record_ne_nil (hn : n ≠ 0) (hrest : rest ≠ []) : record n rest ≠ [] := by
  obtain ⟨c, rest, rfl⟩ := exists_cons_of_ne_nil hrest
  obtain ⟨n, rfl⟩ := Nat.exists_eq_succ_of_ne_zero hn
  rw [record_cons]
  split <;> simp

end record

/-! ## One call -/

/-- The stream shows the rest of a file. -/
structure Shows (s : Stream α) (rest : List α) : Prop where
  ahead : s.ahead = rest
  sound : s.file.Sound
  ungot : s.file.ungot = none
  eof : s.file.eof = true → rest = []

theorem Shows.of_gave {xs : List α} (h : Shows s rest) (hg : Gave s xs s') (hs : s'.file.Sound)
    (he : MarksEnd s s') : Shows s' (rest.drop xs.length) := by
  have hahead : s'.ahead = rest.drop xs.length := by
    rw [← h.ahead, hg.ahead, drop_left]
  refine ⟨hahead, hs, hg.ungot.trans h.ungot, fun heof => ?_⟩
  rcases he heof with h' | h'
  · rw [h.eof h', drop_nil]
  · rw [← hahead, h']

variable [Octet α]

theorem fgetsLoop_shows {xs : List α} (hk : k.Reads) (h : Shows s rest)
    (hloop : Stream.fgetsLoop k n s = (s', xs)) :
    xs = record n rest ∧ Shows s' (rest.drop xs.length) := by
  induction n generalizing s s' xs rest with
  | zero =>
    cases hloop
    exact ⟨(record_zero rest).symm, h⟩
  | succ n ih =>
    rw [fgetsLoop] at hloop
    split at hloop
    · next t ht =>
      cases hloop
      obtain ⟨hc, hs, he⟩ := fgetc_all hk h.sound h.ungot ht
      rw [h.ahead] at hc
      have hnil : rest = [] := head?_eq_none_iff.1 hc.symm
      exact ⟨by rw [hnil, record_nil], h.of_gave (fgetc_gave h.ungot ht) hs he⟩
    · next t c ht =>
      obtain ⟨hc, hs, he⟩ := fgetc_all hk h.sound h.ungot ht
      rw [h.ahead] at hc
      obtain ⟨rest', rfl⟩ : ∃ rest', rest = c :: rest' := head?_eq_some_iff.1 hc.symm
      have ht' := h.of_gave (fgetc_gave h.ungot ht) hs he
      rw [record_cons]
      split at hloop
      · next hnl =>
        cases hloop
        exact ⟨by rw [if_pos hnl], ht'⟩
      · next hnl =>
        cases hloop
        obtain ⟨hxs, hshows⟩ := ih ht' rfl
        refine ⟨?_, hshows⟩
        rw [if_neg hnl, hxs]
        rfl

theorem bytes_expects_fgets (size : ℤ) (rest : List α) :
    ((ReadOp.fgets size).expects rest).bytes = record (size - 1).toNat rest := by
  simp only [ReadOp.expects, Got.bytes]
  split
  · next hend => simp [hend.1, record_nil]
  · simp

theorem fgets_shows {size : ℤ} (hk : k.Reads) (h : Shows s rest) (hsize : 1 ≤ size) :
    Got.line (s.fgets k size).2 = (ReadOp.fgets size).expects rest ∧
      Shows (s.fgets k size).1 (rest.drop (record (size - 1).toNat rest).length) := by
  rcases hloop : fgetsLoop k (size - 1).toNat s with ⟨t, cs⟩
  obtain ⟨rfl, hshows⟩ := fgetsLoop_shows hk h hloop
  have hnull : record (size - 1).toNat rest = [] ∧ 1 < size ↔ rest = [] ∧ (size - 1).toNat ≠ 0 := by
    constructor
    · rintro ⟨hnil, hlt⟩
      have hn : (size - 1).toNat ≠ 0 := by omega
      exact ⟨not_not.1 fun hrest => record_ne_nil hn hrest hnil, hn⟩
    · rintro ⟨rfl, hn⟩
      exact ⟨record_nil _, by omega⟩
  simp only [fgets, if_neg (show ¬ size ≤ 0 by omega), hloop, ReadOp.expects]
  by_cases hend : rest = [] ∧ (size - 1).toNat ≠ 0
  · rw [if_pos (hnull.2 hend), if_pos hend]
    exact ⟨rfl, hshows⟩
  · rw [if_neg (fun h => hend (hnull.1 h)), if_neg hend]
    exact ⟨rfl, hshows⟩

/-- **One call returns what it is to return**, and shows what is left. -/
theorem exec_shows {op : ReadOp} (hk : k.Reads) (h : Shows s rest) (hop : op.Fits) :
    (op.exec k s).2 = op.expects rest ∧
      Shows (op.exec k s).1 (rest.drop (op.expects rest).bytes.length) := by
  cases op with
  | fgetc =>
    rcases hfgetc : s.fgetc k with ⟨t, c⟩
    obtain ⟨rfl, hs, he⟩ := fgetc_all hk h.sound h.ungot hfgetc
    have hshows := h.of_gave (fgetc_gave h.ungot hfgetc) hs he
    simp only [ReadOp.exec, hfgetc, ReadOp.expects, Got.bytes, ← h.ahead]
    exact ⟨trivial, h.ahead ▸ hshows⟩
  | fgets size =>
    rw [bytes_expects_fgets]
    exact fgets_shows hk h hop
  | fread size nmemb =>
    rcases hfread : s.fread k size nmemb with ⟨t, out, r⟩
    obtain ⟨hgave, -, rfl⟩ := fread_gave hfread
    obtain ⟨hout, hs, he⟩ := fread_all hk h.sound hfread
    rw [h.ahead, Nat.mod_eq_of_lt hop] at hout
    have hshows := h.of_gave hgave hs he
    simp only [ReadOp.exec, hfread, ReadOp.expects, Got.bytes, ← hout]
    exact ⟨trivial, hshows⟩

/-! ## A sequence of calls -/

theorem bytes_expects_append (op : ReadOp) (rest : List α) :
    (op.expects rest).bytes ++ rest.drop (op.expects rest).bytes.length = rest := by
  have htake : (op.expects rest).bytes = rest.take (op.expects rest).bytes.length := by
    cases op with
    | fgetc => cases rest <;> rfl
    | fgets size =>
      rw [bytes_expects_fgets]
      exact record_eq_take _ _
    | fread size nmemb => simp [ReadOp.expects, Got.bytes]
  conv_lhs => rw [htake]
  rw [length_take_of_le ?_, take_append_drop]
  rw [htake, length_take]
  omega

/-- By induction on the calls. -/
theorem reads_shows {ops : List ReadOp} (hk : k.Reads) (h : Shows s rest)
    (hops : ∀ op ∈ ops, op.Fits) :
    (s.reads k ops).2 = expected ops rest ∧
      ∃ rest', rest = (s.reads k ops).2.flatMap Got.bytes ++ rest' ∧
        Shows (s.reads k ops).1 rest' := by
  induction ops generalizing s rest with
  | nil => exact ⟨rfl, rest, rfl, h⟩
  | cons op ops ih =>
    obtain ⟨hgot, hshows⟩ := exec_shows hk h (hops op mem_cons_self)
    obtain ⟨hgots, rest', hrest, hshows'⟩ :=
      ih hshows fun o ho => hops o (mem_cons_of_mem _ ho)
    refine ⟨?_, rest', ?_, hshows'⟩
    · simp only [reads, expected, hgot, hgots]
    · simp only [reads, hgot, flatMap_cons, append_assoc]
      rw [← hrest, bytes_expects_append]

omit [Octet α] in
theorem Opened.flags (h : Opened k s) : s.file.ungot = none ∧ s.file.eof = false := by
  induction h with
  | fopen fd | fdopen fd | fopencookie read write seek close => exact ⟨rfl, rfl⟩
  | setvbuf _ buf mode size _ ih =>
    unfold Stream.setvbuf
    split
    · exact ih
    dsimp only
    split
    · exact ih
    split
    · exact ih
    split <;> exact ih

omit [Octet α] in
theorem Opened.shows (h : Opened k s) (hfd : s.file.isCookie = false) (c : List α) :
    Shows (s.onFile c) c := by
  have hfresh := h.fresh
  have hempty : s.file.buflen ≤ s.file.bufpos := by rw [hfresh.empty]; exact Nat.zero_le _
  refine ⟨?_, ⟨hfd, fun _ hb => ?_, fun r _ => ?_⟩, h.flags.1, ?_⟩
  · rw [ahead_of_fd (s := s.onFile c) hfd hfresh.ready.notMem]
    change s.file.unread ++ c.drop 0 = c
    rw [unread_of_le hempty, drop_zero, nil_append]
  · obtain ⟨r, hr⟩ := Option.isSome_iff_exists.1 hb
    exact (hfresh.ready.size r hr).2
  · change s.file.buflen ≤ _
    rw [hfresh.empty]
    exact Nat.zero_le _
  · change s.file.eof = true → _
    simp [h.flags.2]

/-- **Reads refine the content of the file**: whatever the buffering, and however many bytes at a
time `read` returns, every call of a sequence returns what it is to return at its place in the file.
What the calls have returned is the beginning of the file, and all of it when the end is marked. -/
theorem reads_refine_content (hk : k.Reads) (hs : Opened k s) (hfd : s.file.isCookie = false)
    (c : List α) (ops : List ReadOp) (hops : ∀ op ∈ ops, op.Fits) :
    ((s.onFile c).reads k ops).2 = expected ops c ∧
      ((s.onFile c).reads k ops).2.flatMap Got.bytes <+: c ∧
      (((s.onFile c).reads k ops).1.file.eof = true →
        ((s.onFile c).reads k ops).2.flatMap Got.bytes = c) := by
  obtain ⟨hgot, rest, hc, hshows⟩ := reads_shows hk (hs.shows hfd c) hops
  refine ⟨hgot, ⟨rest, hc.symm⟩, fun heof => ?_⟩
  rw [hshows.eof heof, append_nil] at hc
  exact hc.symm

/-- A buffer of two bytes, and one byte from every call of `read`. -/
def slowReads : Kernel UInt8 := { Kernel.steady [] with read := fun _ => .took 1 }

/-- A stream with a buffer of two bytes. -/
def readStream : Stream UInt8 :=
  (Stream.setvbuf slowReads ⟨File.fopen 3, Sys.start⟩ (some ⟨64, [0, 0]⟩) 0 2).1

theorem readStream_opened : Opened slowReads readStream := by
  apply Opened.setvbuf (.fopen 3)
  rintro r ⟨⟩
  rfl

/-- `fgetc(f); fgets(s, 8, f); fread(p, 1, 5, f)`. -/
def readOps : List ReadOp := [.fgetc, .fgets 8, .fread 1 5]

theorem reads_refine_content_line :
    ((readStream.onFile [97, 98, 10, 33]).reads slowReads readOps).2
        = expected readOps [97, 98, 10, 33] ∧
      expected readOps [(97 : UInt8), 98, 10, 33]
        = [.char (some 97), .line (some [98, 10, 0]), .items [33] 1] := by
  have hops : ∀ op ∈ readOps, op.Fits := by simp [readOps, ReadOp.Fits]
  exact ⟨(reads_refine_content (fun _ => rfl) readStream_opened rfl _ _ hops).1, rfl⟩

end Vlibc.Stdio
