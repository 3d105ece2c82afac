import Vlibc.Stdio.Content

/-!
# Positions on a stream that reads ahead

`bufpos` and `buflen` have two meanings: for a writer, `buf[0 .. buflen)` is pending output; for a
reader, `buf[bufpos .. buflen)` is read ahead. `flush_buffer` knows the first only, so `ftell` and
`fseek` write what has been read ahead back to the file, behind the place it came from.
-/

namespace Vlibc.Stdio

open List Stdio.Stream

variable {α : Type*} {k : Kernel α} {s s' t : Stream α} {y y' : Sys α} {xs ys : List α} {n : ℕ}

/-- A descriptor stream with a buffer. -/
structure File.ReadsAhead (f : File α) : Prop where
  notCookie : f.isCookie = false
  notMem : f.isMem = false
  buf : f.buf.isSome

theorem File.ReadsAhead.of_same {f g : File α} (hf : f.ReadsAhead) (h : SameSetup f g) :
    g.ReadsAhead :=
  ⟨h.isCookie.trans hf.notCookie, h.isMem.trans hf.notMem, h.buf ▸ hf.buf⟩

/-- The buffer holds something once the stream has given something. -/
def Fed (s : Stream α) (xs : List α) (s' : Stream α) : Prop :=
  0 < s'.file.buflen ↔ 0 < s.file.buflen ∨ xs ≠ []

theorem Fed.refl (s : Stream α) : Fed s [] s := by
  simp [Fed]

theorem Fed.trans (h₁ : Fed s xs t) (h₂ : Fed t ys s') : Fed s (xs ++ ys) s' := by
  unfold Fed at *
  rw [h₂, h₁, or_assoc, ne_eq, ne_eq, ne_eq, append_eq_nil_iff, not_and_or]

theorem Round.fed (hs : s.file.ReadsAhead) (hn : 0 < n) (h : Round k s n s' xs) : Fed s xs s' := by
  cases h with
  | mute hc => simp [hs.notCookie] at hc
  | ended hc hm => simp [hs.notMem] at hm
  | copied hc hb hlt =>
    have hpos := Nat.zero_lt_of_lt hlt
    exact iff_of_true hpos (.inl hpos)
  | direct h hd =>
    have := hs.buf
    simp [hs.notCookie, hs.notMem] at hd
    simp [hd] at this
  | dry hc hm hb hle h =>
    obtain ⟨⟨error, eof, hfile⟩, -⟩ := fetch_spec h
    simp [Fed, hfile]
  | @filled t b bs hc hm hb hle h =>
    obtain ⟨⟨error, eof, hfile⟩, -⟩ := fetch_spec h
    refine iff_of_true (Nat.succ_pos _) (.inr fun hnil => ?_)
    have hunread := copyOut_nil hn hnil
    rw [unread_fill _ (by rw [hfile]; exact hb)] at hunread
    exact cons_ne_nil _ _ hunread

theorem freadLoop_fed {fuel : ℕ} (hs : s.file.ReadsAhead)
    (h : Stream.freadLoop k fuel n s = (s', xs)) : Fed s xs s' := by
  induction fuel generalizing n s s' xs with
  | zero =>
    cases h
    exact .refl s
  | succ fuel ih =>
    cases n with
    | zero =>
      cases h
      exact .refl s
    | succ n =>
      rw [freadLoop] at h
      split at h
      · next t ht =>
        cases h
        exact (freadRound_cases ht).fed hs n.succ_pos
      · next t b bs ht =>
        have hround := freadRound_cases ht
        cases h
        exact (hround.fed hs n.succ_pos).trans (ih (hs.of_same hround.gave.1.same) rfl)

theorem fread_fed {size nmemb r : ℕ} (hs : s.file.ReadsAhead)
    (h : s.fread k size nmemb = (s', xs, r)) : Fed s xs s' :=
  freadLoop_fed hs (fread_loop h).1

theorem fgetc_fed {c : Option α} (hs : s.file.ReadsAhead) (hu : s.file.ungot = none)
    (h : s.fgetc k = (s', c)) : Fed s c.toList s' := by
  obtain ⟨r, hr⟩ := fgetc_eq_fread hu h
  exact fread_fed hs hr

/-! ## A sequence of calls -/

/-- What a reader knows of its place: it has given the first `n` bytes of the file, and the
descriptor is ahead of it by what is unread. -/
structure At (c : List α) (n : ℕ) (s : Stream α) : Prop where
  readsAhead : s.file.ReadsAhead
  sound : s.file.Sound
  ungot : s.file.ungot = none
  cells : s.sys.disk.cells = c
  pos : s.sys.disk.pos = n + s.file.unread.length
  fed : 0 < s.file.buflen ↔ 0 < n

variable {c : List α}

theorem At.step (h : At c n s) (hg : Gave s xs s') (hf : Fed s xs s')
    (hs : s'.file.Sound) : At c (n + xs.length) s' := by
  refine ⟨h.readsAhead.of_same hg.same, hs, hg.ungot.trans h.ungot, hg.cells.trans h.cells, ?_, ?_⟩
  · have := hg.pos
    have := h.pos
    omega
  · have hfed : 0 < s'.file.buflen ↔ 0 < s.file.buflen ∨ xs ≠ [] := hf
    rw [hfed, h.fed, ← length_pos_iff]
    omega

theorem fgetc_at {ch : Option α} (hk : k.Reads) (h : At c n s)
    (hf : s.fgetc k = (s', ch)) : At c (n + ch.toList.length) s' :=
  h.step (fgetc_gave h.ungot hf) (fgetc_fed h.readsAhead h.ungot hf)
    (fgetc_all hk h.sound h.ungot hf).2.1

variable [Octet α]

theorem fgetsLoop_at {c cs : List α} {m : ℕ} (hk : k.Reads) (h : At c n s)
    (hloop : Stream.fgetsLoop k m s = (s', cs)) : At c (n + cs.length) s' := by
  induction m generalizing n s s' cs with
  | zero =>
    cases hloop
    exact h
  | succ m ih =>
    rw [fgetsLoop] at hloop
    split at hloop
    · next t ht =>
      cases hloop
      exact fgetc_at hk h ht
    · next t ch ht =>
      have hstep := fgetc_at hk h ht
      split at hloop
      · cases hloop
        exact hstep
      · cases hloop
        rw [length_cons, add_comm _ 1, ← add_assoc]
        exact ih hstep rfl

theorem exec_at (hk : k.Reads) (h : At c n s) (op : ReadOp) :
    At c (n + (op.exec k s).2.bytes.length) (op.exec k s).1 := by
  cases op with
  | fgetc =>
    rcases hfgetc : s.fgetc k with ⟨t, c'⟩
    simp only [ReadOp.exec, hfgetc, Got.bytes]
    exact fgetc_at hk h hfgetc
  | fgets size =>
    simp only [ReadOp.exec, Got.bytes, fgets]
    split
    · exact h
    · rcases hloop : fgetsLoop k (size - 1).toNat s with ⟨t, cs⟩
      have hat := fgetsLoop_at hk h hloop
      dsimp only
      split
      · next hnil => simpa [hnil.1] using hat
      · simpa using hat
  | fread size nmemb =>
    rcases hfread : s.fread k size nmemb with ⟨t, out, r⟩
    simp only [ReadOp.exec, hfread, Got.bytes]
    exact h.step (fread_gave hfread).1 (fread_fed h.readsAhead hfread)
      (fread_all hk h.sound hfread).2.1

theorem reads_at (hk : k.Reads) (h : At c n s) (ops : List ReadOp) :
    At c (n + ((s.reads k ops).2.flatMap Got.bytes).length) (s.reads k ops).1 := by
  induction ops generalizing n s with
  | nil => exact h
  | cons op ops ih =>
    have hat := ih (exec_at hk h op)
    simp only [reads, flatMap_cons, length_append]
    rw [← add_assoc]
    exact hat

theorem writeAll_pos {as : List Answer} {bs : List α} (h : writeAll as bs y = some (y', true)) :
    y'.disk.pos = y.disk.pos + bs.length := by
  obtain ⟨n, hn, hdisk⟩ := writeAll_wrote h
  rw [hdisk, Tape.pos_write, hn.all rfl, take_length]

theorem At.flush_pos {r : ℤ} (h : At c n s) (hn : 0 < n)
    (hflush : s.flushBuffer k = some (s', r)) :
    r = -1 ∨ n < s'.sys.disk.pos ∧ s'.file.isMem = false ∧ s'.file.isCookie = false := by
  obtain ⟨reg, hbuf⟩ := Option.isSome_iff_exists.1 h.readsAhead.buf
  have hlen := h.fed.2 hn
  have hheld := h.sound.held reg hbuf
  simp only [flushBuffer, hbuf, if_neg hlen.ne', h.readsAhead.notMem, h.readsAhead.notCookie,
    Bool.false_eq_true, false_and, if_false] at hflush
  split at hflush
  · simp at hflush
  · next y hy =>
    cases hflush
    refine .inr ⟨?_, h.readsAhead.notMem, h.readsAhead.notCookie⟩
    have hpos := writeAll_pos hy
    have := h.pos
    rw [length_take, min_eq_left hheld] at hpos
    rw [hpos]
    change n < s.sys.disk.pos + _
    omega
  · cases hflush
    exact .inl rfl

omit [Octet α] in
theorem lseek_here {p : ℕ} (h : y.lseek k 0 1 = (y', some p)) : p = y.disk.pos := by
  unfold Sys.lseek at h
  split at h
  · simp at h
  · split at h
    · simp at h
    · next q hq =>
      cases hq
      split at h
      · simp at h
      · obtain ⟨-, hp⟩ := Prod.mk.inj h
        simpa using (Option.some.inj hp).symm

theorem At.ftell_ne {r : ℤ} (h : At c n s) (hn : 0 < n)
    (hftell : s.ftell k = some (s', r)) : r ≠ n := by
  unfold ftell at hftell
  split at hftell
  · simp at hftell
  next t ret hflush =>
  rcases h.flush_pos hn hflush with rfl | ⟨hpos, hm, hc⟩
  · cases hftell
    omega
  · simp only [hm, hc, Bool.false_eq_true, if_false] at hftell
    split at hftell
    · cases hftell
      omega
    split at hftell
    · cases hftell
      omega
    · next y p hp =>
      cases hftell
      rw [lseek_here hp]
      omega

/-! ### Before the first byte -/

omit [Octet α] in
theorem lseek_start (hseek : ∀ i, k.lseek i = none) (h0 : y.disk.pos = 0) :
    y.lseek k 0 1 = (y.next, some 0) := by
  have hdisk : y.disk = { y.disk with pos := 0 } := by rw [← h0]
  simp only [Sys.lseek, hseek, seekTarget, h0]
  norm_num [OFF_MAX]
  rw [← hdisk]
  rfl

omit [Octet α] in
theorem At.start_pos (h : At c 0 s) :
    s.file.buflen = 0 ∧ s.sys.disk.pos = 0 := by
  have h0 : s.file.buflen = 0 := by
    have := h.fed
    omega
  have hpos := h.pos
  rw [unread_of_le (by omega), length_nil] at hpos
  exact ⟨h0, hpos⟩

theorem At.ftell_start (hseek : ∀ i, k.lseek i = none) (h : At c 0 s) :
    ∃ t, s.ftell k = some (t, 0) ∧ t.sys.disk.cells = c := by
  obtain ⟨h0, hpos⟩ := h.start_pos
  refine ⟨⟨s.file, s.sys.next⟩, ?_, h.cells⟩
  simp only [ftell, flushBuffer_eq_of_empty h0, h.readsAhead.notMem, h.readsAhead.notCookie,
    Bool.false_eq_true, if_false, lseek_start hseek hpos]
  rfl

theorem At.fseek_start (hk : k.Reads) (hseek : ∀ i, k.lseek i = none)
    (h : At c 0 s) :
    ∃ t, s.fseek k 0 1 = some (t, 0) ∧ t.sys.disk.cells = c ∧ (t.fgetc k).2 = c.head? := by
  obtain ⟨h0, hpos⟩ := h.start_pos
  refine ⟨⟨s.file.sought, s.sys.next⟩, ?_, h.cells, ?_⟩
  · simp only [fseek, flushBuffer_eq_of_empty h0, h.readsAhead.notMem,
      h.readsAhead.notCookie, Bool.false_eq_true, if_false, lseek_start hseek hpos]
    rfl
  · have hsound : s.file.sought.Sound := ⟨h.sound.notCookie, h.sound.room, fun _ _ => Nat.zero_le _⟩
    have hahead : ahead ⟨s.file.sought, s.sys.next⟩ = c := by
      rw [ahead_of_fd (s := ⟨s.file.sought, s.sys.next⟩) h.readsAhead.notCookie
        h.readsAhead.notMem, unread_of_le le_rfl, nil_append]
      change s.sys.disk.rest = c
      rw [Tape.rest, h.cells, hpos, drop_zero]
    rcases hget : fgetc k ⟨s.file.sought, s.sys.next⟩ with ⟨t, ch⟩
    obtain ⟨rfl, -⟩ := fgetc_all hk hsound rfl hget
    rw [hahead]

omit [Octet α] in
theorem Opened.at (h : Opened k s) (hfd : s.file.isCookie = false) (hbuf : s.file.buf.isSome)
    (c : List α) : At c 0 (s.onFile c) := by
  have hshows := h.shows hfd c
  have hempty := h.fresh.empty
  refine ⟨⟨hfd, h.fresh.ready.notMem, hbuf⟩, hshows.sound, hshows.ungot, rfl, ?_, ?_⟩
  · change 0 = 0 + s.file.unread.length
    rw [unread_of_le (by omega)]
    rfl
  · change 0 < s.file.buflen ↔ 0 < 0
    rw [hempty]

/-- **Positions on a stream that reads ahead**: after a sequence of reading calls that has returned
`n` bytes, `ftell` returns `n`, `fseek(f, 0, SEEK_CUR)` leaves the byte `content[n]` to be read
next, and neither changes the file, if and only if `n` is zero. -/
theorem position_kept_iff (hk : k.Reads) (hseek : ∀ i, k.lseek i = none) (hs : Opened k s)
    (hfd : s.file.isCookie = false) (hbuf : s.file.buf.isSome) {content : List α}
    {ops : List ReadOp} {got : List (Got α)}
    (hrun : (s.onFile content).reads k ops = (t, got))
    (hn : (got.flatMap Got.bytes).length = n) :
    ((∃ u, t.ftell k = some (u, (n : ℤ)) ∧ u.sys.disk.cells = content) ∧
      ∃ u, t.fseek k 0 1 = some (u, 0) ∧ u.sys.disk.cells = content ∧
        (u.fgetc k).2 = content[n]?) ↔
      n = 0 := by
  have hat := reads_at hk (hs.at hfd hbuf content) ops
  rw [hrun, zero_add, hn] at hat
  constructor
  · rintro ⟨⟨u, hftell, -⟩, -⟩
    by_contra hpos
    exact hat.ftell_ne (pos_of_ne_zero hpos) hftell rfl
  · rintro rfl
    rw [← head?_eq_getElem?]
    exact ⟨hat.ftell_start hseek, hat.fseek_start hk hseek⟩

/-- `fread(p, 1, 0, f)`, which asks for nothing. -/
theorem position_kept_iff_idle :
    ∃ t, (readStream.onFile [97]).reads slowReads [.fread 1 0] = (t, [.items [] 0]) ∧
      (∃ u, t.ftell slowReads = some (u, 0) ∧ u.sys.disk.cells = [97]) ∧
      ∃ u, t.fseek slowReads 0 1 = some (u, 0) ∧ u.sys.disk.cells = [97] ∧
        (u.fgetc slowReads).2 = some 97 := by
  have hrun : ∃ t, (readStream.onFile [97]).reads slowReads [.fread 1 0] = (t, [.items [] 0]) :=
    ⟨_, rfl⟩
  obtain ⟨t, hrun⟩ := hrun
  exact ⟨t, hrun, (position_kept_iff (fun _ => rfl) (fun _ => rfl) readStream_opened rfl rfl hrun
    rfl).2 rfl⟩

/-- `fgetc(f); ftell(f)` on the file `abcd`, with a buffer of two bytes: the position is 4, and the
file is `abab`. -/
theorem ftell_writes_back :
    ((((readStream.onFile [97, 98, 99, 100]).fgetc (Kernel.steady [.took 2])).1.ftell
      (Kernel.steady [.took 2])).map fun (t, r) => (r, t.sys.disk.cells))
    = some (4, [97, 98, 97, 98]) := by
  decide

end Vlibc.Stdio
