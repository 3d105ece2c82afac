import Vlibc.Foundations.Pipe
import Vlibc.Stdio.Stream

/-!
# Descriptor and cookie streams are pipes

What a stream has accepted, delivered and still holds is a `Pipe` (`Stream.pipe`), and each writing
function moves it as a pipe moves. `File.Ready` is the invariant of the `FILE` record this rests on;
`Moves k s s'` says that it is kept, that the buffering stays what it was, and that the pipe of `s`
reaches that of `s'`. A flush that fails half-way is an `abort`; under `Kernel.FailsFirst` none
does.
-/

namespace Vlibc.Stdio

open List Option Stdio.Stream

open Pipe (Event Reach)

variable {α : Type*} {k : Kernel α} {s s' t : Stream α} {f : File α} {y y' : Sys α}

/-- A failure that ends a loop of `flush_buffer`. -/
def Answer.Hard : Answer → Prop
  | .took _ => False
  | .failed e => ¬ Retries e

instance : DecidablePred Answer.Hard
  | .took _ => inferInstanceAs (Decidable False)
  | .failed e => inferInstanceAs (Decidable (¬ Retries e))

/-- If the loop fails, it does so before any byte is taken. -/
def FailsFirst : List Answer → Prop
  | [] => True
  | .took c :: as => if c = 0 then FailsFirst as else ∀ a ∈ as, ¬ a.Hard
  | .failed e :: as => Retries e → FailsFirst as

/-- Every flush that fails does so before any byte is taken. -/
def Kernel.FailsFirst (k : Kernel α) : Prop := ∀ i, Stdio.FailsFirst (k.flush i)

theorem taken_le (c n : ℕ) : taken c n ≤ n := by
  unfold taken
  omega

theorem taken_pos {c n : ℕ} (hc : 0 < c) (hn : 0 < n) : 0 < taken c n := by
  unfold taken SSIZE_MAX
  omega

variable {as : List Answer}

theorem failsFirst_of_soft (h : ∀ a ∈ as, ¬ a.Hard) : FailsFirst as := by
  induction as with
  | nil => trivial
  | cons a as ih =>
    have has : ∀ a ∈ as, ¬ a.Hard := fun b hb => h b (mem_cons_of_mem _ hb)
    cases a with
    | took c =>
      unfold FailsFirst
      split
      · exact ih has
      · exact has
    | failed e => exact fun _ => ih has

theorem writeAll_of_soft [Octet α] {bs : List α} {ok : Bool}
    (has : ∀ a ∈ as, ¬ a.Hard) (h : writeAll as bs y = some (y', ok)) : ok = true := by
  induction as, bs, y using writeAll.induct with
  | case1 => simp_all [writeAll]
  | case2 => simp [writeAll] at h
  | case3 c as b bs y w ih => exact ih (fun a ha => has a (mem_cons_of_mem _ ha)) h
  | case4 e as b bs y he ih =>
    rw [writeAll, if_pos he] at h
    exact ih (fun a ha => has a (mem_cons_of_mem _ ha)) h
  | case5 e as b bs y he => exact absurd he (has _ mem_cons_self)

/-- The outcome of a loop of `flush_buffer`: the first `n` bytes were taken. -/
structure Wrote (as : List Answer) (bs : List α) (y y' : Sys α) (ok : Bool) (n : ℕ) : Prop where
  le : n ≤ bs.length
  delivered : y'.delivered = y.delivered ++ bs.take n
  accepted : y'.accepted = y.accepted
  all : ok = true → n = bs.length
  some : ok = false → n < bs.length
  first : ok = false → FailsFirst as → n = 0

theorem writeAll_wrote [Octet α] {bs : List α} {ok : Bool}
    (h : writeAll as bs y = some (y', ok)) :
    ∃ n, Wrote as bs y y' ok n ∧ y'.disk = y.disk.write Octet.nul (bs.take n) := by
  induction as, bs, y using writeAll.induct with
  | case1 as y =>
    obtain ⟨rfl, rfl⟩ : y = y' ∧ true = ok := by simpa [writeAll] using h
    exact ⟨0, ⟨by simp, by simp, rfl, by simp, by simp, by simp⟩, (Tape.write_nil ..).symm⟩
  | case2 => simp [writeAll] at h
  | case3 c as b bs y w ih =>
    obtain ⟨n, hn, hdisk⟩ := ih h
    have hw : w ≤ (b :: bs).length := taken_le _ _
    have hle := hn.le
    rw [length_drop] at hle
    refine ⟨w + n, ⟨by omega, ?_, hn.accepted, ?_, ?_, ?_⟩, ?_⟩
    · rw [hn.delivered, take_add]
      simp only [Sys.deliver, append_assoc]
    · intro hok
      have hall := hn.all hok
      rw [length_drop] at hall
      omega
    · intro hok
      have hlt := hn.some hok
      rw [length_drop] at hlt
      omega
    · intro hok hff
      unfold FailsFirst at hff
      split at hff
      · next hc =>
        have hw0 : w = 0 := by simp [w, taken, hc]
        rw [hw0, hn.first hok hff]
      · rw [writeAll_of_soft hff h] at hok
        cases hok
    · rw [hdisk, take_add]
      exact Tape.write_write ..
  | case4 e as b bs y he ih =>
    rw [writeAll, if_pos he] at h
    obtain ⟨n, hn, hdisk⟩ := ih h
    exact ⟨n, ⟨hn.le, hn.delivered, hn.accepted, hn.all, hn.some,
      fun hok hff => hn.first hok (hff he)⟩, hdisk⟩
  | case5 e as b bs y he =>
    rw [writeAll, if_neg he] at h
    cases h
    exact ⟨0, ⟨by simp, by simp [Sys.fail], rfl, by simp, by simp, by simp⟩,
      (Tape.write_nil ..).symm⟩

/-! ## The `FILE` record -/

/-- The bytes in the buffer that are not written yet. -/
def File.pending (f : File α) : List α :=
  match f.buf with
  | none => []
  | some r => r.bytes.take f.buflen

/-- The stream as a pipe. -/
def Stream.pipe (s : Stream α) : Pipe α := ⟨s.sys.accepted, s.sys.delivered, s.file.pending⟩

/-- A stream whose writes go through its buffer. -/
def File.Filling (f : File α) : Prop := f.isCookie = false ∧ f.Buffered

/-- The invariant of a descriptor or cookie stream: its buffer is as long as it says, and holds
something only if writes go through it. -/
structure File.Ready (f : File α) : Prop where
  notMem : f.isMem = false
  size : ∀ r, f.buf = some r → r.bytes.length = f.bufsize ∧ 0 < f.bufsize
  le : f.buf.isSome → f.buflen ≤ f.bufsize
  direct : ¬ f.Filling → f.buflen = 0

theorem pending_eq_nil (h : f.buflen = 0) : f.pending = [] := by
  unfold File.pending
  split
  · rfl
  · simp [h]

theorem File.Ready.pending_length (hf : f.Ready) : f.pending.length = f.buflen := by
  unfold File.pending
  split
  · next hbuf => exact (hf.direct fun h => by simp [File.Filling, File.Buffered, hbuf] at h).symm
  · next r hbuf =>
    rw [length_take, (hf.size r hbuf).1]
    exact min_eq_left (hf.le (by simp [hbuf]))

theorem File.Ready.filling (hf : f.Ready) (hne : f.buflen ≠ 0) : f.Filling := by
  by_contra hd
  exact hne (hf.direct hd)

theorem File.Ready.pending_of_direct (hf : f.Ready) (hd : ¬ f.Filling) : f.pending = [] :=
  pending_eq_nil (hf.direct hd)

/-- What the writing functions leave alone. -/
structure SameSetup (f g : File α) : Prop where
  fd : g.fd = f.fd
  isMem : g.isMem = f.isMem
  isCookie : g.isCookie = f.isCookie
  bufMode : g.bufMode = f.bufMode
  bufsize : g.bufsize = f.bufsize
  buf : g.buf.isSome = f.buf.isSome

theorem SameSetup.refl (f : File α) : SameSetup f f := ⟨rfl, rfl, rfl, rfl, rfl, rfl⟩

theorem SameSetup.trans {f g h : File α} (h₁ : SameSetup f g) (h₂ : SameSetup g h) :
    SameSetup f h :=
  ⟨h₂.fd.trans h₁.fd, h₂.isMem.trans h₁.isMem, h₂.isCookie.trans h₁.isCookie,
    h₂.bufMode.trans h₁.bufMode, h₂.bufsize.trans h₁.bufsize, h₂.buf.trans h₁.buf⟩

theorem SameSetup.filling_iff {f g : File α} (h : SameSetup f g) : g.Filling ↔ f.Filling := by
  unfold File.Filling File.Buffered
  rw [h.isCookie, h.buf, h.bufMode]

theorem SameSetup.setError (f : File α) : SameSetup f f.setError := ⟨rfl, rfl, rfl, rfl, rfl, rfl⟩

theorem File.Ready.setError (hf : f.Ready) : f.setError.Ready :=
  ⟨hf.notMem, hf.size, hf.le, hf.direct⟩

/-- The moves of the pipe that the system allows. -/
def Kernel.Allows (k : Kernel α) (e : Event α) : Prop := k.FailsFirst → e.Clean

/-- What a writing function does to a stream. -/
structure Moves (k : Kernel α) (s s' : Stream α) : Prop where
  ready : s'.file.Ready
  same : SameSetup s.file s'.file
  reach : Reach k.Allows s.pipe s'.pipe

theorem Moves.refl (h : s.file.Ready) : Moves k s s := ⟨h, SameSetup.refl _, Reach.refl _⟩

theorem Moves.trans (h₁ : Moves k s t) (h₂ : Moves k t s') : Moves k s s' :=
  ⟨h₂.ready, h₁.same.trans h₂.same, h₁.reach.trans h₂.reach⟩

theorem Kernel.allows_of_ne_abort {e : Event α} (h : ∀ n, e ≠ .abort n) : k.Allows e :=
  fun _ n hn => absurd hn (h n)

theorem Moves.of_step {e : Event α} {p : Pipe α} (hready : s'.file.Ready)
    (hsame : SameSetup s.file s'.file) (hpipe : s'.pipe = p) (hstep : Pipe.Step s.pipe e p)
    (he : k.Allows e) : Moves k s s' := by
  subst hpipe
  exact ⟨hready, hsame, hstep.reach he⟩

theorem Moves.of_pass {xs : List α} (hready : s'.file.Ready)
    (hsame : SameSetup s.file s'.file) (hpend : s.file.pending = [])
    (hpend' : s'.file.pending = []) (hacc : s'.sys.accepted = s.sys.accepted ++ xs)
    (hdel : s'.sys.delivered = s.sys.delivered ++ xs) : Moves k s s' := by
  apply Moves.of_step hready hsame _ (.pass s.pipe xs hpend)
  · exact Kernel.allows_of_ne_abort (by simp)
  · unfold pipe
    rw [hacc, hdel, hpend']

theorem Moves.of_eq (h : s.file.Ready) (hfile : s'.file = s.file)
    (hacc : s'.sys.accepted = s.sys.accepted) (hdel : s'.sys.delivered = s.sys.delivered) :
    Moves k s s' := by
  have hpipe : s'.pipe = s.pipe := by
    unfold pipe
    rw [hfile, hacc, hdel]
  exact ⟨hfile ▸ h, hfile ▸ SameSetup.refl _, hpipe ▸ Reach.refl _⟩

/-- The outcomes of `flush_buffer`: the buffer is empty, or the loop failed. -/
structure Flushed (k : Kernel α) (s s' : Stream α) (r : ℤ) : Prop extends Moves k s s' where
  accepted : s'.sys.accepted = s.sys.accepted
  ret : r = 0 ∧ s'.file.buflen = 0 ∨ r = -1

section flush

variable [Octet α] {r : ℤ}

theorem flushBuffer_of_empty (h0 : s.file.buflen = 0)
    (h : s.flushBuffer k = some (s', r)) : s = s' ∧ 0 = r := by
  unfold flushBuffer at h
  split at h
  · simpa using h
  · simpa [h0] using h

theorem flushBuffer_loop (hf : s.file.Ready) (hne : s.file.buflen ≠ 0)
    (h : s.flushBuffer k = some (s', r)) :
    ∃ y ok, writeAll (k.flush s.sys.tick) s.file.pending s.sys.next = some (y, ok) ∧
      (s', r) = if ok then (⟨s.file.rewound, y⟩, 0)
        else (⟨s.file.setError, y⟩, -1) := by
  have hfill := hf.filling hne
  obtain ⟨reg, hbuf⟩ := isSome_iff_exists.1 hfill.2.1
  have hpend : s.file.pending = reg.bytes.take s.file.buflen := by simp [File.pending, hbuf]
  rw [hpend]
  simp only [flushBuffer, hbuf] at h
  rw [if_neg hne, if_neg (by simp [hf.notMem]), if_neg (by simp [hfill.1])] at h
  split at h
  · cases h
  · next y hw => exact ⟨y, true, hw, (some.inj h).symm⟩
  · next y hw => exact ⟨y, false, hw, (some.inj h).symm⟩

theorem flushBuffer_flushed (hf : s.file.Ready) (h : s.flushBuffer k = some (s', r)) :
    Flushed k s s' r := by
  by_cases hne : s.file.buflen = 0
  · obtain ⟨rfl, rfl⟩ := flushBuffer_of_empty hne h
    exact ⟨Moves.refl hf, rfl, .inl ⟨rfl, hne⟩⟩
  obtain ⟨y, ok, hw, hres⟩ := flushBuffer_loop hf hne h
  obtain ⟨n, hn, -⟩ := writeAll_wrote hw
  cases ok with
  | true =>
    cases hres
    have hready : s.file.rewound.Ready :=
      ⟨hf.notMem, hf.size, fun _ => Nat.zero_le _, fun _ => rfl⟩
    have hpipe : (mk s.file.rewound y).pipe
        = ⟨s.pipe.accepted, s.pipe.delivered ++ s.pipe.pending, []⟩ := by
      unfold pipe
      rw [hn.accepted, hn.delivered, hn.all rfl, take_length,
        pending_eq_nil (f := s.file.rewound) rfl]
      rfl
    refine ⟨?_, hn.accepted, .inl ⟨rfl, rfl⟩⟩
    exact Moves.of_step hready ⟨rfl, rfl, rfl, rfl, rfl, rfl⟩ hpipe (.drain s.pipe)
      (Kernel.allows_of_ne_abort (by simp))
  | false =>
    cases hres
    have hpipe : (mk s.file.setError y).pipe
        = ⟨s.pipe.accepted, s.pipe.delivered ++ s.pipe.pending.take n, s.pipe.pending⟩ := by
      unfold pipe
      rw [hn.accepted, hn.delivered]
      rfl
    refine ⟨?_, hn.accepted, .inr rfl⟩
    apply Moves.of_step hf.setError (SameSetup.setError _) hpipe (.abort s.pipe n (hn.some rfl))
    intro hff m hm
    rw [Event.abort.injEq] at hm
    rw [← hm, hn.first rfl (hff _)]

theorem flushIf_flushed {c : Prop} [Decidable c] (hf : s.file.Ready)
    (h : s.flushIf k c = some (s', r)) :
    Moves k s s' ∧ s'.sys.accepted = s.sys.accepted ∧ (r < 0 ∨ r = 0 ∧ (c → s'.file.buflen = 0) ∧
      (¬ c → s' = s)) := by
  unfold flushIf at h
  split at h
  · next hc =>
    have hfl := flushBuffer_flushed hf h
    refine ⟨hfl.toMoves, hfl.accepted, ?_⟩
    rcases hfl.ret with ⟨hr, hlen⟩ | hr
    · exact .inr ⟨hr, fun _ => hlen, fun hnc => absurd hc hnc⟩
    · exact .inl (by omega)
  · next hc =>
    cases h
    exact ⟨Moves.refl hf, rfl, .inr ⟨rfl, fun h => absurd h hc, fun _ => rfl⟩⟩

end flush

/-! ## `fwrite` -/

/-- What a writing loop does that is given `data` and leaves `rest`. -/
structure Took (k : Kernel α) (s s' : Stream α) (data rest : List α) : Prop
    extends Moves k s s' where
  accepted : ∃ xs, data = xs ++ rest ∧ s'.sys.accepted = s.sys.accepted ++ xs

theorem Took.none_taken {data : List α} (h : Moves k s s')
    (hacc : s'.sys.accepted = s.sys.accepted) : Took k s s' data data :=
  ⟨h, [], rfl, by simp [hacc]⟩

theorem Took.trans {d₁ d₂ d₃ : List α} (h₁ : Took k s t d₁ d₂) (h₂ : Took k t s' d₂ d₃) :
    Took k s s' d₁ d₃ := by
  obtain ⟨xs, hxs, hacc⟩ := h₁.accepted
  obtain ⟨zs, hzs, hacc'⟩ := h₂.accepted
  exact ⟨h₁.toMoves.trans h₂.toMoves, xs ++ zs, by rw [hxs, hzs, append_assoc],
    by rw [hacc', hacc, append_assoc]⟩

theorem push_took {xs rest : List α} (hf : s.file.Ready) (hfill : s.file.Filling)
    (hroom : s.file.buflen + xs.length ≤ s.file.bufsize) :
    Took k s (s.push xs) (xs ++ rest) rest := by
  obtain ⟨r, hbuf⟩ := isSome_iff_exists.1 hfill.2.1
  obtain ⟨hlen, hpos⟩ := hf.size r hbuf
  have hready : (s.push xs).file.Ready := by
    refine ⟨hf.notMem, ?_, fun _ => hroom, fun hd => absurd ?_ hd⟩
    · intro r' hr'
      obtain rfl : r.put s.file.buflen xs = r' := by simpa [push, hbuf] using hr'
      refine ⟨?_, hpos⟩
      simp only [Region.put, length_append, length_take, length_drop, hlen]
      change _ = s.file.bufsize
      omega
    · exact ⟨hfill.1, by simp [push, hbuf], hfill.2.2⟩
  have hpend : (s.push xs).file.pending = s.file.pending ++ xs := by
    have htake : (r.bytes.take s.file.buflen).length = s.file.buflen := by
      rw [length_take, hlen]
      omega
    simp only [File.pending, push, hbuf, map_some, Region.put]
    rw [take_append_of_le_length (by rw [length_append, htake]),
      take_of_length_le (by rw [length_append, htake])]
  have hpipe : (s.push xs).pipe
      = ⟨s.pipe.accepted ++ xs, s.pipe.delivered, s.pipe.pending ++ xs⟩ := by
    unfold pipe
    rw [hpend]
    rfl
  refine ⟨?_, xs, rfl, rfl⟩
  exact Moves.of_step hready ⟨rfl, rfl, rfl, rfl, rfl, by simp [push]⟩ hpipe
    (.accept s.pipe xs) (Kernel.allows_of_ne_abort (by simp))

theorem room_after_flush (hf : s.file.Ready) (hfill : s.file.Filling) (hm : Moves k s s')
    (h : (s.file.Full → s'.file.buflen = 0) ∧ (¬ s.file.Full → s' = s)) :
    s'.file.buflen < s'.file.bufsize := by
  obtain ⟨r, hbuf⟩ := isSome_iff_exists.1 (hm.same.filling_iff.2 hfill).2.1
  by_cases hfull : s.file.Full
  · rw [h.1 hfull]
    exact (hm.ready.size r hbuf).2
  · rw [h.2 hfull]
    exact lt_of_le_of_ne (hf.le hfill.2.1) hfull

theorem round_took [Octet α] {data xs rest : List α} {c : Prop} [Decidable c]
    {t₁ t₂ : Stream α} {r₁ r₂ : ℤ} (hf : s.file.Ready) (hfill : s.file.Filling)
    (hdata : data = xs ++ rest)
    (hpre : s.flushIf k s.file.Full = some (t₁, r₁))
    (hroom : t₁.file.buflen + xs.length ≤ t₁.file.bufsize)
    (hpost : (t₁.push xs).flushIf k c = some (t₂, r₂)) : Took k s t₂ data rest := by
  subst hdata
  obtain ⟨hm₁, hacc₁, -⟩ := flushIf_flushed hf hpre
  have hpush : Took k s (t₁.push xs) (xs ++ rest) rest :=
    (Took.none_taken hm₁ hacc₁).trans (push_took hm₁.ready (hm₁.same.filling_iff.2 hfill) hroom)
  obtain ⟨hm₂, hacc₂, -⟩ := flushIf_flushed hpush.ready hpost
  exact hpush.trans (Took.none_taken hm₂ hacc₂)

/-- What the loops of `fwrite` through the buffer keep, because a flush and a round do. A round stores
as many bytes as there is room for, and at least one. -/
structure Rounds [Octet α] (k : Kernel α) (I : Stream α → List α → Prop) : Prop where
  flush : ∀ {t t₁ d r}, I t d → t.flushIf k t.file.Full = some (t₁, r) → I t₁ d
  round : ∀ {t t₁ t₂ xs d r₁ r₂ c} [Decidable c], I t (xs ++ d) →
    t.flushIf k t.file.Full = some (t₁, r₁) → ¬ r₁ < 0 →
    xs.length ≤ max 1 (t₁.file.bufsize - t₁.file.buflen) →
    (t₁.push xs).flushIf k c = some (t₂, r₂) → I t₂ d

variable {data rest : List α} {I : Stream α → List α → Prop}

theorem Rounds.fwriteLine [Octet α] (hk : Rounds k I)
    (hI : I s data) (h : Stream.fwriteLine k data s = some (s', rest)) :
    I s' rest := by
  induction data generalizing s with
  | nil =>
    cases h
    exact hI
  | cons c data ih =>
    rw [fwriteLine] at h
    split at h
    · cases h
    next t₁ r₁ hpre =>
    split at h
    · cases h
      exact hk.flush hI hpre
    next hr₁ =>
    dsimp only at h
    split at h
    · cases h
    next t₂ r₂ hpost =>
    have hI' : I s ([c] ++ data) := hI
    have hI₂ : I t₂ data := hk.round hI' hpre hr₁ (le_max_left ..) hpost
    split at h
    · cases h
      exact hI₂
    · exact ih hI₂ h

theorem Rounds.fwriteFull [Octet α] (hk : Rounds k I) {fuel : ℕ}
    (hI : I s data)
    (h : Stream.fwriteFull k fuel data s = some (s', rest)) : I s' rest := by
  induction fuel generalizing s data with
  | zero =>
    cases data with
    | nil =>
      cases h
      exact hI
    | cons c data => exact absurd h (by simp [fwriteFull])
  | succ fuel ih =>
    cases data with
    | nil =>
      cases h
      exact hI
    | cons c data =>
      rw [fwriteFull] at h
      split at h
      · cases h
      next t₁ r₁ hpre =>
      split at h
      · cases h
        exact hk.flush hI hpre
      next hr₁ =>
      dsimp only at h
      generalize hn : min (c :: data).length (t₁.file.bufsize - t₁.file.buflen) = n at h
      split at h
      · cases h
      next t₂ r₂ hpost =>
      rw [← take_append_drop n (c :: data)] at hI
      have hI₂ : I t₂ ((c :: data).drop n) :=
        hk.round hI hpre hr₁ (by rw [length_take]; omega) hpost
      split at h
      · cases h
        exact hI₂
      · exact ih hI₂ h

theorem rounds_took [Octet α] {data : List α} (hfill : s.file.Filling) :
    Rounds k fun t d => Took k s t data d where
  flush h hpre := by
    obtain ⟨hm, hacc, -⟩ := flushIf_flushed h.ready hpre
    exact h.trans (Took.none_taken hm hacc)
  round h hpre hr₁ hxs hpost := by
    obtain ⟨hm, -, hret⟩ := flushIf_flushed h.ready hpre
    have hfill' := h.same.filling_iff.2 hfill
    have hroom := room_after_flush h.ready hfill' hm (hret.resolve_left hr₁).2
    exact h.trans (round_took h.ready hfill' rfl hpre (by omega) hpost)

theorem writeDirect_took [Octet α]
    (h : writeDirect as data y = some (y', rest)) :
    ∃ xs, data = xs ++ rest ∧ y'.accepted = y.accepted ++ xs ∧
      y'.delivered = y.delivered ++ xs ∧ y'.disk = y.disk.write Octet.nul xs := by
  induction as, data, y using writeDirect.induct with
  | case1 as y =>
    obtain ⟨rfl, rfl⟩ : y = y' ∧ [] = rest := by simpa [writeDirect] using h
    exact ⟨[], by simp⟩
  | case2 => simp [writeDirect] at h
  | case3 c as b bs y w hw =>
    rw [writeDirect, if_pos hw] at h
    cases h
    exact ⟨[], by simp⟩
  | case4 c as b bs y w hw xs ih =>
    rw [writeDirect, if_neg hw] at h
    obtain ⟨zs, hzs, hacc, hdel, hdisk⟩ := ih h
    refine ⟨xs ++ zs, ?_, ?_, ?_, ?_⟩
    · rw [append_assoc, ← hzs, take_append_drop]
    · rw [hacc]
      simp [Sys.accept, Sys.deliver]
    · rw [hdel]
      simp [Sys.accept, Sys.deliver]
    · rw [hdisk]
      exact Tape.write_write ..
  | case5 e as b bs y =>
    cases h
    exact ⟨[], by simp [Sys.fail]⟩

theorem fwriteDirect_took [Octet α] (hf : s.file.Ready)
    (hd : ¬ s.file.Filling) (h : s.fwriteDirect k data = some (s', rest)) :
    Took k s s' data rest := by
  have hpass : ∀ y : Sys α, ∀ g : File α, g = s.file ∨ g = s.file.setError →
      writeDirect (k.direct s.sys.tick) data s.sys.next = some (y, rest) →
      Took k s ⟨g, y⟩ data rest := by
    intro y g hg hw
    obtain ⟨xs, hxs, hacc, hdel, -⟩ := writeDirect_took hw
    have hready : g.Ready := by
      rcases hg with rfl | rfl
      · exact hf
      · exact hf.setError
    have hsame : SameSetup s.file g := by
      rcases hg with rfl | rfl
      · exact SameSetup.refl _
      · exact SameSetup.setError _
    exact ⟨Moves.of_pass hready hsame (hf.pending_of_direct hd)
      (hready.pending_of_direct (mt hsame.filling_iff.1 hd)) hacc hdel, xs, hxs, hacc⟩
  unfold fwriteDirect at h
  split at h
  · cases h
  · next y hw =>
    cases h
    exact hpass y _ (.inl rfl) hw
  · next y b bs hw =>
    cases h
    exact hpass y _ (.inr rfl) hw

/-- **`fwrite` moves a descriptor or cookie stream as a pipe**, accepting an initial part of its
data. -/
theorem fwriteBytes_took [Octet α] (hf : s.file.Ready)
    (h : s.fwriteBytes k data = some (s', rest)) : Took k s s' data rest := by
  unfold fwriteBytes at h
  split at h
  · next hc =>
    have hd : ¬ s.file.Filling := fun hfill => by simp [hfill.1] at hc
    split at h
    · exact fwriteDirect_took hf hd h
    split at h
    · next hnil =>
      cases h
      exact hnil ▸ Took.none_taken (Moves.refl hf) rfl
    · cases h
      refine Took.none_taken ⟨hf.setError, SameSetup.setError _, ?_⟩ rfl
      exact Reach.refl _
  next hc =>
  rw [if_neg (by simp [hf.notMem])] at h
  split at h
  · next hbuf =>
    have hfill : s.file.Filling := ⟨by simpa using hc, hbuf⟩
    have hnone : Took k s s data data := .none_taken (Moves.refl hf) rfl
    split at h
    · exact (rounds_took hfill).fwriteLine hnone h
    · exact (rounds_took hfill).fwriteFull hnone h
  · next hbuf => exact fwriteDirect_took hf (fun hfill => hbuf hfill.2) h

end Vlibc.Stdio
