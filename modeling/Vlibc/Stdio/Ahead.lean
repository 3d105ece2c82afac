import Vlibc.Stdio.Read
import Vlibc.Stdio.Transparent

/-!
# What the readers take from a stream

`Gave s xs s'` says that the stream has given the bytes `xs`: what it had to give was `xs` and then
what it still has. Every round of the loop of `fread` is such a step, so `fread` and `fgetc` are. If
`read` returns at least one byte until the file ends, they also take as much as they are asked for
(`freadLoop_all`), and mark the end of the file only there.
-/

namespace Vlibc.Stdio

open List Option Stdio.Stream

variable {α : Type*} {k : Kernel α} {s s' t : Stream α} {f : File α} {xs ys : List α} {n : ℕ}

/-- The stream has given `xs`. -/
structure Gave (s : Stream α) (xs : List α) (s' : Stream α) : Prop where
  ahead : s.ahead = xs ++ s'.ahead
  same : SameSetup s.file s'.file
  ungot : s'.file.ungot = s.file.ungot
  cells : s'.sys.disk.cells = s.sys.disk.cells
  -- the position of the descriptor is ahead of the reader by what is unread
  pos : s'.sys.disk.pos + s.file.unread.length
    = s.sys.disk.pos + s'.file.unread.length + xs.length

theorem Gave.refl (s : Stream α) : Gave s [] s :=
  ⟨rfl, SameSetup.refl _, rfl, rfl, rfl⟩

theorem Gave.trans (h₁ : Gave s xs t) (h₂ : Gave t ys s') : Gave s (xs ++ ys) s' where
  ahead := by rw [h₁.ahead, h₂.ahead, append_assoc]
  same := h₁.same.trans h₂.same
  ungot := h₂.ungot.trans h₁.ungot
  cells := h₂.cells.trans h₁.cells
  pos := by
    have := h₁.pos
    have := h₂.pos
    rw [length_append]
    omega

/-! ## One round -/

theorem Sys.read_spec {y y' : Sys α} {r : Option (List α)} (h : y.read k n = (y', r)) :
    y'.disk = y.disk.advance (r.getD []).length ∧
      r.getD [] = y.disk.rest.take (r.getD []).length ∧ (r.getD []).length ≤ n := by
  unfold Sys.read at h
  split at h
  · cases h
    exact ⟨rfl, rfl, Nat.zero_le _⟩
  · next c _ =>
    cases h
    refine ⟨rfl, ?_, ?_⟩
    · simp
    · simp [taken]

theorem fetch_spec (h : s.fetch k n = (s', xs)) :
    (∃ error eof, s'.file = { s.file with error := error, eof := eof }) ∧
      s'.sys.disk = s.sys.disk.advance xs.length ∧
      xs = s.sys.disk.rest.take xs.length ∧ xs.length ≤ n := by
  unfold fetch at h
  split at h
  all_goals
    next hread =>
    cases h
    exact ⟨⟨_, _, rfl⟩, Sys.read_spec hread⟩

theorem fetch_rest (h : s.fetch k n = (s', xs)) :
    s.sys.disk.rest = xs ++ s'.sys.disk.rest := by
  obtain ⟨-, hdisk, hxs, -⟩ := fetch_spec h
  rw [hdisk, Tape.rest_advance]
  conv_lhs => rw [← take_append_drop xs.length s.sys.disk.rest, ← hxs]

theorem unread_of_le (h : f.buflen ≤ f.bufpos) : f.unread = [] := by
  unfold File.unread
  split
  · rfl
  · exact drop_eq_nil_of_le ((length_take_le _ _).trans h)

theorem unread_of_none (h : f.buf = none) : f.unread = [] := by
  simp [File.unread, h]

theorem ahead_of_fd (hc : s.file.isCookie = false) (hm : s.file.isMem = false) :
    s.ahead = s.file.unread ++ s.sys.disk.rest := by
  simp [Stream.ahead, hc, hm]

theorem unread_fill (xs : List α) (h : f.buf.isSome) : (f.fill xs).unread = xs := by
  obtain ⟨r, hr⟩ := isSome_iff_exists.1 h
  simp [File.unread, File.fill, hr, Region.put]

theorem Gave.of_fetch (h : s.fetch k n = (s', xs))
    (hd : s.file.isCookie = true ∨ s.file.isMem = false ∧ s.file.buf = none) :
    Gave s xs s' := by
  obtain ⟨⟨error, eof, hfile⟩, hdisk, hxs, -⟩ := fetch_spec h
  have hunread : s'.file.unread = s.file.unread := by rw [hfile]; rfl
  refine ⟨?_, ?_, ?_, ?_, ?_⟩
  · unfold Stream.ahead
    rw [fetch_rest h, hunread, hfile]
    rcases hd with hc | ⟨hm, hb⟩
    · simp [hc]
    · simp [hm, unread_of_none hb]
  · rw [hfile]
    exact ⟨rfl, rfl, rfl, rfl, rfl, rfl⟩
  · rw [hfile]
  · rw [hdisk]
    rfl
  · rw [hunread, hdisk, Tape.pos_advance]
    omega

theorem Gave.setEof (s : Stream α) : Gave s [] ⟨s.file.setEof, s.sys⟩ :=
  ⟨rfl, ⟨rfl, rfl, rfl, rfl, rfl, rfl⟩, rfl, rfl, rfl⟩

theorem Gave.of_dry (h : s.fetch k n = (s', [])) : Gave s [] s' := by
  obtain ⟨⟨error, eof, hfile⟩, hdisk, -, -⟩ := fetch_spec h
  have hdisk : s'.sys.disk = s.sys.disk := hdisk
  have hunread : s'.file.unread = s.file.unread := by rw [hfile]; rfl
  refine ⟨?_, ?_, ?_, by rw [hdisk], by rw [hdisk, hunread]; rfl⟩
  · unfold Stream.ahead
    rw [hunread, hdisk, hfile, nil_append]
  · rw [hfile]
    exact ⟨rfl, rfl, rfl, rfl, rfl, rfl⟩
  · rw [hfile]

theorem Gave.of_fill (h : s.fetch k n = (s', xs)) (hc : s.file.isCookie = false)
    (hm : s.file.isMem = false) (hb : s.file.buf.isSome) (hle : s.file.buflen ≤ s.file.bufpos) :
    Gave s [] ⟨s'.file.fill xs, s'.sys⟩ := by
  obtain ⟨⟨error, eof, hfile⟩, hdisk, -, -⟩ := fetch_spec h
  have hunread : (s'.file.fill xs).unread = xs := unread_fill xs (by rw [hfile]; exact hb)
  refine ⟨?_, ?_, ?_, ?_, ?_⟩
  · rw [ahead_of_fd hc hm, unread_of_le hle, fetch_rest h, nil_append, nil_append,
      ahead_of_fd (by rw [hfile]; exact hc) (by rw [hfile]; exact hm), hunread]
  · rw [hfile]
    exact ⟨rfl, rfl, rfl, rfl, rfl, by simp [File.fill]⟩
  · rw [hfile]
    rfl
  · rw [hdisk]
    rfl
  · simp only [hunread, hdisk, unread_of_le hle, Tape.pos_advance, length_nil]

theorem unread_copyOut (s : Stream α) (want : ℕ) :
    (s.copyOut want).1.file.unread
      = s.file.unread.drop (min want (s.file.buflen - s.file.bufpos)) := by
  unfold copyOut File.unread
  dsimp only
  split
  · simp
  · rw [drop_drop]

theorem Gave.of_copyOut (hc : s.file.isCookie = false) (want : ℕ) :
    Gave s (s.copyOut want).2 (s.copyOut want).1 := by
  have hunread := unread_copyOut s want
  have hsplit := take_append_drop (min want (s.file.buflen - s.file.bufpos)) s.file.unread
  refine ⟨?_, ⟨rfl, rfl, rfl, rfl, rfl, rfl⟩, rfl, rfl, ?_⟩
  · unfold Stream.ahead
    rw [hunread]
    simp only [copyOut, hc]
    by_cases hm : s.file.isMem
    · simp [hm]
    · simp only [hm, Bool.false_eq_true, if_false]
      rw [← append_assoc, hsplit]
  · have := congrArg List.length hsplit
    rw [length_append] at this
    rw [hunread]
    simp only [copyOut]
    omega

theorem copyOut_length_le (s : Stream α) (want : ℕ) : (s.copyOut want).2.length ≤ want := by
  simp only [copyOut, length_take]
  omega

/-- The ways a round of the loop of `fread` goes. -/
inductive Round (k : Kernel α) (s : Stream α) (n : ℕ) : Stream α → List α → Prop
  /-- The cookie has no `read` callback. -/
  | mute (hc : s.file.isCookie = true) : Round k s n ⟨s.file.setEof, s.sys⟩ []
  /-- The end of a memory stream. -/
  | ended (hc : s.file.isCookie = false) (hm : s.file.isMem = true)
      (hle : s.file.buflen ≤ s.file.bufpos) : Round k s n ⟨s.file.setEof, s.sys⟩ []
  /-- Bytes of the buffer. -/
  | copied (hc : s.file.isCookie = false) (hb : s.file.isMem = true ∨ s.file.buf.isSome)
      (hlt : s.file.bufpos < s.file.buflen) : Round k s n (s.copyOut n).1 (s.copyOut n).2
  /-- A call of `read` whose bytes go to the caller. -/
  | direct {s' : Stream α} {xs : List α} (h : s.fetch k n = (s', xs))
      (hd : s.file.isCookie = true ∨ s.file.isMem = false ∧ s.file.buf = none) : Round k s n s' xs
  /-- A call of `read` that does not fill the buffer. -/
  | dry {s' : Stream α} (hc : s.file.isCookie = false) (hm : s.file.isMem = false)
      (hb : s.file.buf.isSome) (hle : s.file.buflen ≤ s.file.bufpos)
      (h : s.fetch k s.file.bufsize = (s', [])) : Round k s n s' []
  /-- Bytes of the buffer, after a call of `read` that fills it. -/
  | filled {t : Stream α} {b : α} {bs : List α} (hc : s.file.isCookie = false)
      (hm : s.file.isMem = false) (hb : s.file.buf.isSome) (hle : s.file.buflen ≤ s.file.bufpos)
      (h : s.fetch k s.file.bufsize = (t, b :: bs)) :
      Round k s n (Stream.copyOut ⟨t.file.fill (b :: bs), t.sys⟩ n).1
        (Stream.copyOut ⟨t.file.fill (b :: bs), t.sys⟩ n).2

theorem freadRound_cases (h : s.freadRound k n = (s', xs)) : Round k s n s' xs := by
  have copied : s.file.isCookie = false → (s.file.isMem = true ∨ s.file.buf.isSome) →
      ¬ s.file.buflen ≤ s.file.bufpos → s.copyOut n = (s', xs) → Round k s n s' xs := by
    intro hc hb hlt hcopy
    have hround := Round.copied (k := k) (n := n) hc hb (not_le.1 hlt)
    rw [hcopy] at hround
    exact hround
  unfold freadRound at h
  split at h
  · next hc =>
    split at h
    · exact .direct h (.inl hc)
    · cases h
      exact .mute hc
  next hc =>
  have hc : s.file.isCookie = false := by simpa using hc
  split at h
  · next hm =>
    split at h
    · next hle =>
      cases h
      exact .ended hc hm hle
    · next hlt => exact copied hc (.inl hm) hlt h
  next hm =>
  have hm : s.file.isMem = false := by simpa using hm
  split at h
  · next hb =>
    split at h
    · next hle =>
      split at h
      · next t ht =>
        cases h
        exact .dry hc hm hb hle ht
      · next t b bs ht =>
        have hround := Round.filled (n := n) hc hm hb hle ht
        rw [h] at hround
        exact hround
    · next hlt => exact copied hc (.inr hb) hlt h
  · next hb => exact .direct h (.inr ⟨hm, by simpa using hb⟩)

theorem Round.gave (h : Round k s n s' xs) : Gave s xs s' ∧ xs.length ≤ n := by
  cases h with
  | mute | ended => exact ⟨.setEof s, Nat.zero_le _⟩
  | copied hc => exact ⟨.of_copyOut hc n, copyOut_length_le s n⟩
  | direct h hd => exact ⟨.of_fetch h hd, (fetch_spec h).2.2.2⟩
  | dry hc hm hb hle h => exact ⟨.of_dry h, Nat.zero_le _⟩
  | filled hc hm hb hle h =>
    have hfill := Gave.of_fill h hc hm hb hle
    exact ⟨hfill.trans (.of_copyOut (hfill.same.isCookie.trans hc) n), copyOut_length_le _ n⟩

theorem freadLoop_gave {fuel : ℕ} (h : Stream.freadLoop k fuel n s = (s', xs)) :
    Gave s xs s' ∧ xs.length ≤ n := by
  induction fuel generalizing n s s' xs with
  | zero =>
    cases h
    exact ⟨.refl s, Nat.zero_le _⟩
  | succ fuel ih =>
    cases n with
    | zero =>
      cases h
      exact ⟨.refl s, Nat.zero_le _⟩
    | succ n =>
      rw [freadLoop] at h
      split at h
      · next t ht =>
        cases h
        exact ⟨(freadRound_cases ht).gave.1, Nat.zero_le _⟩
      · next t b bs ht =>
        obtain ⟨hround, hle⟩ := (freadRound_cases ht).gave
        cases h
        obtain ⟨hloop, hle'⟩ := ih (n := n - bs.length) (s := t) rfl
        refine ⟨hround.trans hloop, ?_⟩
        rw [length_append]
        simp only [length_cons] at hle ⊢
        omega

variable {size nmemb r : ℕ}

theorem fread_loop (h : s.fread k size nmemb = (s', xs, r)) :
    Stream.freadLoop k (size * nmemb % 2 ^ 64) (size * nmemb % 2 ^ 64) s = (s', xs) ∧
      r = xs.length / size := by
  unfold fread at h
  split at h
  · next h0 =>
    cases h
    rw [Nat.mul_eq_zero.2 h0]
    exact ⟨rfl, (Nat.zero_div _).symm⟩
  · cases h
    exact ⟨rfl, rfl⟩

theorem fread_gave (h : s.fread k size nmemb = (s', xs, r)) :
    Gave s xs s' ∧ xs.length ≤ size * nmemb % 2 ^ 64 ∧ r = xs.length / size := by
  obtain ⟨hloop, hr⟩ := fread_loop h
  obtain ⟨hgave, hle⟩ := freadLoop_gave hloop
  exact ⟨hgave, hle, hr⟩

variable {c : Option α}

theorem fgetc_eq_fread (hu : s.file.ungot = none) (h : s.fgetc k = (s', c)) :
    ∃ r, s.fread k 1 1 = (s', c.toList, r) := by
  rcases hfread : s.fread k 1 1 with ⟨t, out, r⟩
  obtain ⟨-, hle, rfl⟩ := fread_gave hfread
  simp only [fgetc, hu, hfread, Nat.div_one] at h
  cases h
  cases out with
  | nil => exact ⟨_, rfl⟩
  | cons b bs =>
    obtain rfl : bs = [] := by simpa using hle
    exact ⟨_, rfl⟩

theorem fgetc_gave (hu : s.file.ungot = none) (h : s.fgetc k = (s', c)) :
    Gave s c.toList s' := by
  obtain ⟨r, hr⟩ := fgetc_eq_fread hu h
  exact (fread_gave hr).1

/-! ## Nothing is held back -/

/-- `read` returns at least one byte until the file ends. -/
def Kernel.Reads (k : Kernel α) : Prop := ∀ i, (k.read i).Positive

/-- A descriptor or memory stream whose buffer has what it says; that of a descriptor stream has
room. -/
structure File.Sound (f : File α) : Prop where
  notCookie : f.isCookie = false
  room : f.isMem = false → f.buf.isSome → 0 < f.bufsize
  held : ∀ r, f.buf = some r → f.buflen ≤ r.bytes.length

/-- A step that marks the end of the file at the end only. -/
def MarksEnd (s s' : Stream α) : Prop :=
  s'.file.eof = true → s.file.eof = true ∨ s'.ahead = []

theorem Sys.read_all (hk : k.Reads) {y y' : Sys α} {r : Option (List α)} (hn : 0 < n)
    (h : y.read k n = (y', r)) : ∃ bs, r = some bs ∧ (bs = [] → y.disk.rest = []) := by
  unfold Sys.read at h
  have hpos := hk y.tick
  split at h
  · next e he => simp [he, Answer.Positive] at hpos
  · next c hc =>
    cases h
    have hc : 0 < c := by simpa [hc, Answer.Positive] using hpos
    refine ⟨_, rfl, fun hnil => ?_⟩
    exact (take_eq_nil_iff.1 hnil).resolve_left (taken_pos hc hn).ne'

theorem fetch_all (hk : k.Reads) (hn : 0 < n) (h : s.fetch k n = (s', xs)) :
    (xs = [] → s.sys.disk.rest = []) ∧ (xs ≠ [] → s'.file = s.file) := by
  unfold fetch at h
  split at h
  all_goals
    next hread =>
    obtain ⟨bs, hbs, hend⟩ := Sys.read_all hk hn hread
    cases h
    simp_all

theorem File.Sound.marked (hf : f.Sound) (error eof : Bool) :
    ({ f with error := error, eof := eof } : File α).Sound :=
  ⟨hf.notCookie, hf.room, hf.held⟩

theorem File.Sound.fill (hf : f.Sound) (xs : List α) : (f.fill xs).Sound := by
  refine ⟨hf.notCookie, fun hm hb => hf.room hm ?_, ?_⟩
  · simpa [File.fill] using hb
  · intro r hr
    obtain ⟨r', -, rfl⟩ := map_eq_some_iff.1 hr
    simp [File.fill, Region.put]

theorem File.Sound.copyOut (hf : s.file.Sound) (want : ℕ) : (s.copyOut want).1.file.Sound :=
  ⟨hf.notCookie, hf.room, hf.held⟩

theorem File.Sound.unread_ne_nil (hf : f.Sound) (hb : f.buf.isSome) (hlt : f.bufpos < f.buflen) :
    f.unread ≠ [] := by
  obtain ⟨r, hr⟩ := isSome_iff_exists.1 hb
  have := hf.held r hr
  simp only [File.unread, hr, ne_eq, drop_eq_nil_iff, length_take]
  omega

theorem copyOut_nil (hn : 0 < n) (h : (s.copyOut n).2 = []) : s.file.unread = [] := by
  simp only [copyOut, take_eq_nil_iff] at h
  rcases h with h | h
  · exact unread_of_le (by omega)
  · exact h

theorem Round.all (hk : k.Reads) (hf : s.file.Sound) (hn : 0 < n) (h : Round k s n s' xs) :
    (xs = [] → s.ahead = []) ∧ s'.file.Sound ∧ (xs ≠ [] → s'.file.eof = s.file.eof) := by
  cases h with
  | mute hc => simp [hf.notCookie] at hc
  | ended hc hm hle =>
    have hend : s.ahead = [] := by simp [Stream.ahead, hc, hm, unread_of_le hle]
    exact ⟨fun _ => hend, hf.marked s.file.error true, fun hne => absurd rfl hne⟩
  | copied hc hb hlt =>
    refine ⟨fun hnil => ?_, hf.copyOut n, fun _ => rfl⟩
    have hunread := copyOut_nil hn hnil
    rcases hb with hm | hb
    · simp [Stream.ahead, hc, hm, hunread]
    · exact absurd hunread (hf.unread_ne_nil hb hlt)
  | direct h hd =>
    obtain ⟨hm, hb⟩ : s.file.isMem = false ∧ s.file.buf = none := by
      simpa [hf.notCookie] using hd
    obtain ⟨hnil, hsome⟩ := fetch_all hk hn h
    obtain ⟨⟨error, eof, hfile⟩, -⟩ := fetch_spec h
    refine ⟨fun hxs => ?_, by rw [hfile]; exact hf.marked error eof, fun hxs => by rw [hsome hxs]⟩
    rw [ahead_of_fd hf.notCookie hm, unread_of_none hb, hnil hxs]
    rfl
  | dry hc hm hb hle h =>
    obtain ⟨hnil, -⟩ := fetch_all hk (hf.room hm hb) h
    obtain ⟨⟨error, eof, hfile⟩, -⟩ := fetch_spec h
    refine ⟨fun _ => ?_, by rw [hfile]; exact hf.marked error eof, fun hne => absurd rfl hne⟩
    rw [ahead_of_fd hc hm, unread_of_le hle, hnil rfl]
    rfl
  | @filled t b bs hc hm hb hle h =>
    obtain ⟨-, hsome⟩ := fetch_all hk (hf.room hm hb) h
    have hfile := hsome (cons_ne_nil _ _)
    have heof : t.file.eof = s.file.eof := by rw [hfile]
    refine ⟨fun hnil => ?_, ?_, fun _ => heof⟩
    · have hunread := copyOut_nil hn hnil
      rw [unread_fill _ (by rw [hfile]; exact hb)] at hunread
      exact absurd hunread (cons_ne_nil _ _)
    · apply File.Sound.copyOut
      rw [hfile]
      exact hf.fill _

/-- `fread` takes as much as it is to store, or all there is. By induction on the rounds: a round
that gives nothing is made at the end, and the others leave the rest to the next. -/
theorem freadLoop_all {fuel : ℕ} (hk : k.Reads) (hf : s.file.Sound) (hfuel : n ≤ fuel)
    (h : Stream.freadLoop k fuel n s = (s', xs)) :
    xs = s.ahead.take n ∧ s'.file.Sound ∧ MarksEnd s s' := by
  induction fuel generalizing n s s' xs with
  | zero =>
    obtain rfl : n = 0 := by omega
    cases h
    exact ⟨by simp, hf, .inl⟩
  | succ fuel ih =>
    cases n with
    | zero =>
      cases h
      exact ⟨by simp, hf, .inl⟩
    | succ n =>
      rw [freadLoop] at h
      split at h
      · next t ht =>
        have hround := freadRound_cases ht
        cases h
        obtain ⟨hnil, hsound, -⟩ := hround.all hk hf n.succ_pos
        have hend := hround.gave.1.ahead
        rw [hnil rfl, nil_append] at hend
        exact ⟨by simp [hnil rfl], hsound, fun _ => .inr hend.symm⟩
      · next t b bs ht =>
        have hround := freadRound_cases ht
        obtain ⟨hgave, hle⟩ := hround.gave
        obtain ⟨-, hsound, heof⟩ := hround.all hk hf n.succ_pos
        cases h
        obtain ⟨hrest, hsound', hend⟩ := ih hsound (by omega : n - bs.length ≤ fuel) rfl
        refine ⟨?_, hsound', fun he => ?_⟩
        · rw [hrest, hgave.ahead, take_append, take_of_length_le hle]
          simp
        · rw [← heof (cons_ne_nil _ _)]
          exact hend he

theorem fread_all (hk : k.Reads) (hf : s.file.Sound)
    (h : s.fread k size nmemb = (s', xs, r)) :
    xs = s.ahead.take (size * nmemb % 2 ^ 64) ∧ s'.file.Sound ∧ MarksEnd s s' :=
  freadLoop_all hk hf le_rfl (fread_loop h).1

theorem fgetc_all (hk : k.Reads) (hf : s.file.Sound) (hu : s.file.ungot = none)
    (h : s.fgetc k = (s', c)) : c = s.ahead.head? ∧ s'.file.Sound ∧ MarksEnd s s' := by
  obtain ⟨r, hr⟩ := fgetc_eq_fread hu h
  obtain ⟨hout, hrest⟩ := fread_all hk hf hr
  refine ⟨?_, hrest⟩
  cases c <;> cases hahead : s.ahead <;> simp_all

end Vlibc.Stdio
