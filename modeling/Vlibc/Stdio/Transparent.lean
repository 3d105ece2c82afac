import Vlibc.Stdio.Session

/-!
# Output through a descriptor stream arrives

When the system keeps taking bytes (`Kernel.Serves`), every writing function returns with all of its
bytes taken. So a session delivers the bytes of its calls, in their order, whatever the buffering.
What the calls report is a different matter: `fputs` returns the length of its string as an `int`,
and that is negative for a length with bit 31 set.
-/

namespace Vlibc.Stdio

open List Stdio.Stream

open Pipe (Reach)

variable {α : Type*} {k : Kernel α} {s s' t : Stream α} {y : Sys α} {f : File α} {n : ℕ}

/-- The call has taken bytes. -/
def Answer.Positive : Answer → Bool
  | .took c => 0 < c
  | .failed _ => false

/-- A system that takes bytes: no loop of `flush_buffer` meets an error other than `EINTR` and
`EAGAIN`, the calls of the other loops return positive counts, and in every loop at least `n` calls
do. -/
structure Kernel.Writes (k : Kernel α) (n : ℕ) : Prop where
  flush : ∀ i, ∀ a ∈ k.flush i, ¬ a.Hard
  flushes : ∀ i, n ≤ (k.flush i).countP Answer.Positive
  direct : ∀ i, ∀ a ∈ k.direct i, a.Positive
  directs : ∀ i, n ≤ (k.direct i).countP Answer.Positive

/-- And in which `fsync` and `close` succeed. -/
structure Kernel.Serves (k : Kernel α) (n : ℕ) : Prop extends k.Writes n where
  fsync : ∀ i, k.fsync i = none
  close : ∀ i, k.close i = none

theorem Kernel.Writes.failsFirst (hk : k.Writes n) : k.FailsFirst :=
  fun i => failsFirst_of_soft (hk.flush i)

variable {as : List Answer} {bs : List α}

theorem length_drop_taken {c : ℕ} (hbs : bs ≠ [])
    (h : bs.length ≤ (Answer.took c :: as).countP Answer.Positive) :
    (bs.drop (taken c bs.length)).length ≤ as.countP Answer.Positive := by
  rw [length_drop]
  rcases Nat.eq_zero_or_pos c with hc | hc
  · rw [countP_cons_of_neg (by simp [Answer.Positive, hc])] at h
    omega
  · rw [countP_cons_of_pos (by simp [Answer.Positive, hc])] at h
    have := taken_pos hc (length_pos_iff.2 hbs)
    omega

theorem writeAll_done [Octet α] (has : ∀ a ∈ as, ¬ a.Hard)
    (hn : bs.length ≤ as.countP Answer.Positive) : ∃ y', writeAll as bs y = some (y', true) := by
  induction as, bs, y using writeAll.induct with
  | case1 as y => exact ⟨y, by simp [writeAll]⟩
  | case2 b bs y => simp at hn
  | case3 c as b bs y w ih =>
    rw [writeAll]
    exact ih (fun a ha => has a (mem_cons_of_mem _ ha)) (length_drop_taken (cons_ne_nil _ _) hn)
  | case4 e as b bs y he ih =>
    rw [writeAll, if_pos he]
    rw [countP_cons_of_neg (by simp [Answer.Positive])] at hn
    exact ih (fun a ha => has a (mem_cons_of_mem _ ha)) hn
  | case5 e as b bs y he => exact absurd he (has _ mem_cons_self)

theorem writeDirect_done [Octet α]
    (has : ∀ a ∈ as, a.Positive)
    (hn : bs.length ≤ as.countP Answer.Positive) : ∃ y', writeDirect as bs y = some (y', []) := by
  induction as, bs, y using writeDirect.induct with
  | case1 as y => exact ⟨y, by simp [writeDirect]⟩
  | case2 b bs y => simp at hn
  | case3 c as b bs y w hw =>
    have hc : 0 < c := by simpa [Answer.Positive] using has _ mem_cons_self
    exact absurd hw (taken_pos hc (by simp)).ne'
  | case4 c as b bs y w hw xs ih =>
    rw [writeDirect, if_neg hw]
    exact ih (fun a ha => has a (mem_cons_of_mem _ ha)) (length_drop_taken (cons_ne_nil _ _) hn)
  | case5 e as b bs y => exact absurd (has _ mem_cons_self) (by simp [Answer.Positive])

theorem writeDirect_at_once [Octet α] {str : List α} (hne : str ≠ [])
    (hlen : str.length ≤ SSIZE_MAX) (y : Sys α) :
    writeDirect [.took str.length] str y = some ((y.accept str).deliver str, []) := by
  obtain ⟨b, bs, rfl⟩ := exists_cons_of_ne_nil hne
  have htaken : taken (b :: bs).length (b :: bs).length = (b :: bs).length := by
    unfold taken
    omega
  rw [writeDirect]
  simp only [htaken, take_length, drop_length]
  simp [writeDirect]

/-! ## The functions return -/

/-- A descriptor stream with a buffer of at most `n` bytes. -/
structure Served (n : ℕ) (f : File α) : Prop where
  ready : f.Ready
  fd : f.isCookie = false
  le : f.bufsize ≤ n

theorem Served.of_moves (hf : Served n s.file) (hm : Moves k s s') : Served n s'.file :=
  ⟨hm.ready, hm.same.isCookie.trans hf.fd, hm.same.bufsize.trans_le hf.le⟩

variable {data : List α}

theorem fwriteDirect_done [Octet α] (hk : k.Writes n) (hn : data.length ≤ n) :
    ∃ s', s.fwriteDirect k data = some (s', []) := by
  unfold fwriteDirect
  obtain ⟨y, hy⟩ := writeDirect_done (y := s.sys.next) (hk.direct s.sys.tick)
    (hn.trans (hk.directs s.sys.tick))
  rw [hy]
  exact ⟨_, rfl⟩

theorem Took.accepted_all (h : Took k s s' data []) :
    s'.sys.accepted = s.sys.accepted ++ data := by
  obtain ⟨xs, hxs, hacc⟩ := h.accepted
  rw [hacc, hxs, append_nil]

variable [Octet α]

theorem flushBuffer_done (hk : k.Writes n) (hf : Served n s.file) :
    ∃ s', s.flushBuffer k = some (s', 0) := by
  unfold flushBuffer
  split
  · exact ⟨s, rfl⟩
  next r hbuf =>
  split
  · exact ⟨s, rfl⟩
  rw [if_neg (by simp [hf.ready.notMem]), if_neg (by simp [hf.fd])]
  have hlen : (r.bytes.take s.file.buflen).length ≤ n := by
    rw [length_take, (hf.ready.size r hbuf).1]
    exact (min_le_right _ _).trans hf.le
  obtain ⟨y, hy⟩ := writeAll_done (y := s.sys.next) (hk.flush s.sys.tick)
    (hlen.trans (hk.flushes s.sys.tick))
  rw [hy]
  exact ⟨_, rfl⟩

theorem flushIf_done (hk : k.Writes n) (hf : Served n s.file) (c : Prop) [Decidable c] :
    ∃ s', s.flushIf k c = some (s', 0) := by
  unfold flushIf
  split
  · exact flushBuffer_done hk hf
  · exact ⟨s, rfl⟩

theorem round_done (hk : k.Writes n) (hf : Served n s.file) (hfill : s.file.Filling) :
    ∃ t, s.flushIf k s.file.Full = some (t, 0) ∧ t.file.buflen < t.file.bufsize ∧
      ∀ (xs : List α) (c : Prop) [Decidable c], t.file.buflen + xs.length ≤ t.file.bufsize →
        ∃ s', (t.push xs).flushIf k c = some (s', 0) ∧ Moves k s s' := by
  obtain ⟨t, ht⟩ := flushIf_done hk hf s.file.Full
  obtain ⟨hm, -, hret⟩ := flushIf_flushed hf.ready ht
  refine ⟨t, ht, room_after_flush hf.ready hfill hm (hret.resolve_left (by simp)).2, ?_⟩
  intro xs c _ hroom
  have hpush : Took k t (t.push xs) (xs ++ []) [] :=
    push_took hm.ready (hm.same.filling_iff.2 hfill) hroom
  obtain ⟨s', hs'⟩ := flushIf_done hk (hf.of_moves (hm.trans hpush.toMoves)) c
  exact ⟨s', hs', (round_took hf.ready hfill (append_nil xs).symm ht hroom hs').toMoves⟩

theorem fwriteLine_done (hk : k.Writes n) (hf : Served n s.file) (hfill : s.file.Filling)
    (data : List α) : ∃ s', Stream.fwriteLine k data s = some (s', []) := by
  induction data generalizing s with
  | nil => exact ⟨s, rfl⟩
  | cons c data ih =>
    obtain ⟨t, ht, hlt, hpush⟩ := round_done hk hf hfill
    obtain ⟨t', ht', hm⟩ := hpush [c] (Octet.byte c = 10 ∨ (t.push [c]).file.Full) hlt
    rw [fwriteLine, ht]
    simp only [lt_irrefl, if_false, ht']
    exact ih (hf.of_moves hm) (hm.same.filling_iff.2 hfill)

theorem fwriteFull_done {fuel : ℕ} (hk : k.Writes n) (hf : Served n s.file)
    (hfill : s.file.Filling) (hfuel : data.length ≤ fuel) :
    ∃ s', Stream.fwriteFull k fuel data s = some (s', []) := by
  induction fuel generalizing s data with
  | zero =>
    obtain rfl := length_eq_zero_iff.1 (Nat.le_zero.1 hfuel)
    exact ⟨s, rfl⟩
  | succ fuel ih =>
    cases data with
    | nil => exact ⟨s, rfl⟩
    | cons c data =>
      obtain ⟨t, ht, hlt, hpush⟩ := round_done hk hf hfill
      rw [fwriteFull, ht]
      simp only [lt_irrefl, if_false]
      generalize hm : min (c :: data).length (t.file.bufsize - t.file.buflen) = m
      obtain ⟨t', ht', hmoves⟩ := hpush ((c :: data).take m)
        (t.push ((c :: data).take m)).file.Full (by rw [length_take]; omega)
      rw [ht']
      -- room for a byte, so the round takes at least one
      have hm1 : 1 ≤ m := by rw [← hm, length_cons]; omega
      have hrest : ((c :: data).drop m).length ≤ fuel := by
        rw [length_drop]
        omega
      exact ih (hf.of_moves hmoves) (hmoves.same.filling_iff.2 hfill) hrest

theorem fwriteBytes_done (hk : k.Writes n) (hf : Served n s.file)
    (hn : data.length ≤ n) : ∃ s', s.fwriteBytes k data = some (s', []) := by
  unfold fwriteBytes
  rw [if_neg (by simp [hf.fd]), if_neg (by simp [hf.ready.notMem])]
  split
  · next hbuf =>
    split
    · exact fwriteLine_done hk hf ⟨hf.fd, hbuf⟩ data
    · exact fwriteFull_done hk hf ⟨hf.fd, hbuf⟩ le_rfl
  · exact fwriteDirect_done hk hn

theorem fwrite_done (hk : k.Writes n) (hf : Served n s.file) (ptr : List α) (size nmemb : ℕ)
    (hfit : ptr.length = size * nmemb) (hlt : ptr.length < 2 ^ 64) (hn : ptr.length ≤ n) :
    ∃ s', s.fwrite k ptr size nmemb = some (s', fullCount size nmemb) ∧
      s'.sys.accepted = s.sys.accepted ++ ptr := by
  have hret : ∃ s', s.fwrite k ptr size nmemb = some (s', fullCount size nmemb) := by
    unfold fwrite fullCount
    split
    · next h0 =>
      refine ⟨s, ?_⟩
      split
      · rfl
      · next hs => rw [h0.resolve_left hs]
    · next h0 =>
      obtain ⟨hs0, -⟩ := not_or.1 h0
      have htotal : size * nmemb % 2 ^ 64 = ptr.length := by
        rw [← hfit, Nat.mod_eq_of_lt hlt]
      obtain ⟨s', hs'⟩ := fwriteBytes_done hk hf hn
      refine ⟨s', ?_⟩
      simp only [htotal, take_length, hs', if_neg hs0, length_nil, Nat.sub_zero]
      rw [hfit, Nat.mul_div_cancel_left _ (Nat.pos_of_ne_zero hs0)]
  obtain ⟨s', hs'⟩ := hret
  obtain ⟨rest, htook, hall⟩ := fwrite_took hf.ready hfit hlt hs'
  obtain rfl := hall rfl
  exact ⟨s', hs', htook.accepted_all⟩

theorem fflush_done (hk : k.Serves n) (hf : Served n s.file) :
    ∃ s', s.fflush k = some (s', 0) ∧ s'.sys.accepted = s.sys.accepted ∧
      s'.file.buflen = 0 := by
  obtain ⟨t, ht⟩ := flushBuffer_done hk.toWrites hf
  have hfl := flushBuffer_flushed hf.ready ht
  refine ⟨⟨t.file, t.sys.next⟩, ?_, hfl.accepted, (hfl.ret.resolve_right (by simp)).2⟩
  simp [fflush, ht, hfl.ready.notMem, hk.fsync]

omit [Octet α] in
theorem delivered_of_exact (hx : s.pipe.Exact) (hlen : s.file.buflen = 0) :
    s.sys.delivered = s.sys.accepted := by
  change s.sys.accepted = s.sys.delivered ++ s.file.pending at hx
  rw [hx, pending_eq_nil hlen, append_nil]

theorem fclose_done (hk : k.Serves n) (hf : Served n s.file) (hx : s.pipe.Exact) :
    ∃ y, s.fclose k = some (y, 0) ∧ y.delivered = s.sys.accepted := by
  obtain ⟨t, ht⟩ := flushBuffer_done hk.toWrites hf
  have hfl := flushBuffer_flushed hf.ready ht
  have hlen : t.file.buflen = 0 := (hfl.ret.resolve_right (by simp)).2
  have hexact := (hfl.reach.mono fun _ he => he hk.toWrites.failsFirst).exact hx
  have hret : (t.closeFile k).2 = 0 := by
    simp [closeFile, hfl.same.isCookie.trans hf.fd, hfl.ready.notMem, hk.close]
  refine ⟨t.file.freeBuf t.file.owns (t.closeFile k).1, ?_, ?_⟩
  · simp [fclose, ht, hret]
  · rw [(freeBuf_history _ _ _).2, (closeFile_history t).2, ← hfl.accepted]
    exact delivered_of_exact hexact hlen

/-! ## What the calls report -/

/-- The call's length, as an `int`, is not negative. -/
def Op.Countable {α : Type*} : Op α → Prop
  | .fputs str => str.length % 2 ^ 32 < 2 ^ 31
  | _ => True

theorem toInt_nonneg_iff (w : ℕ) : 0 ≤ toInt w ↔ w % 2 ^ 32 < 2 ^ 31 := by
  unfold toInt
  rw [Int.bmod_def]
  split <;> omega

theorem exec_done {op : Op α} (hk : k.Serves n) (hf : Served n s.file) (hfit : op.Fits)
    (hn : op.bytes.length ≤ n) :
    ∃ s' r, op.exec k s = some (s', r) ∧ s'.sys.accepted = s.sys.accepted ++ op.bytes ∧
      (op.Reported r ↔ op.Countable) := by
  cases op with
  | fwrite ptr size nmemb =>
    obtain ⟨s', hs', hacc⟩ := fwrite_done hk.toWrites hf ptr size nmemb hfit.1 hfit.2 hn
    exact ⟨s', fullCount size nmemb, by simp [Op.exec, hs'], hacc, iff_of_true rfl trivial⟩
  | fputc ch =>
    obtain ⟨s', hs', hacc⟩ := fwrite_done hk.toWrites hf [ch] 1 1 rfl (by simp) hn
    refine ⟨s', (Octet.byte ch).toNat, ?_, hacc, iff_of_true ?_ trivial⟩
    · simp [Op.exec, fputc, hs', fullCount]
    · exact Int.natCast_nonneg _
  | fputs str =>
    obtain ⟨s', hs', hacc⟩ := fwrite_done hk.toWrites hf str 1 str.length (by simp) hfit hn
    refine ⟨s', toInt str.length, ?_, hacc, toInt_nonneg_iff _⟩
    simp [Op.exec, fputs, hs', fullCount]
  | fflush =>
    obtain ⟨s', hs', hacc, -⟩ := fflush_done hk hf
    exact ⟨s', 0, hs', by simp [Op.bytes, hacc], iff_of_true rfl trivial⟩

theorem calls_done {ops : List (Op α)} (hk : k.Serves n) (hf : Served n s.file)
    (hfit : ∀ op ∈ ops, op.Fits) (hn : (output ops).length ≤ n) :
    ∃ s' rets, s.calls k ops = some (s', rets) ∧
      s'.sys.accepted = s.sys.accepted ++ output ops ∧
      (List.Forall₂ Op.Reported ops rets ↔ ∀ op ∈ ops, op.Countable) := by
  induction ops generalizing s with
  | nil => exact ⟨s, [], rfl, by simp [output], by simp⟩
  | cons op ops ih =>
    have hout : output (op :: ops) = op.bytes ++ output ops := by simp [output]
    rw [hout, length_append] at hn
    have hfit₁ := hfit op mem_cons_self
    obtain ⟨t, r, ht, hacc, hrep⟩ := exec_done hk hf hfit₁ (by omega)
    obtain ⟨s', rets, hs', hacc', hrep'⟩ := ih (hf.of_moves (exec_ran hf.ready hfit₁ ht).toMoves)
      (fun o ho => hfit o (mem_cons_of_mem _ ho)) (by omega)
    unfold calls at hs'
    refine ⟨s', r :: rets, by simp [calls, each, ht, hs'], ?_, ?_⟩
    · rw [hacc', hacc, hout, append_assoc]
    · rw [forall₂_cons, hrep, hrep', forall_mem_cons]

/-- **Output through a descriptor stream arrives**: under any buffering, a session whose writes are
taken returns from every call and delivers the bytes of its calls in the order of the calls. All
calls report full success exactly when no string given to `fputs` has a length with bit 31 set. -/
theorem session_transparent_iff (hs : Opened k s) (hfd : s.file.isCookie = false)
    (ops : List (Op α)) (hfit : ∀ op ∈ ops, op.Fits)
    (hk : k.Serves (s.file.bufsize + (output ops).length)) :
    ∃ y rets ret, s.session k ops = some (y, rets, ret) ∧ y.delivered = output ops ∧
      (List.Forall₂ Op.Reported ops rets ∧ ret = 0 ↔ ∀ op ∈ ops, op.Countable) := by
  have hfresh := hs.fresh
  have hserved : Served (s.file.bufsize + (output ops).length) s.file :=
    ⟨hfresh.ready, hfd, by omega⟩
  obtain ⟨t, rets, ht, hacc, hrep⟩ := calls_done hk hserved hfit (by omega)
  have hmoves := (calls_ran hfresh.ready hfit ht).1
  have hexact : t.pipe.Exact := hfresh.exact_of_reach hk.toWrites.failsFirst hmoves.reach
  obtain ⟨y, hy, hdel⟩ := fclose_done hk (hserved.of_moves hmoves) hexact
  refine ⟨y, rets, 0, by simp [session, ht, hy], ?_, ?_⟩
  · rw [hdel, hacc, hfresh.accepted, nil_append]
  · rw [hrep]
    simp

/-- Answers that take one byte each. -/
def oneByOne : List Answer := List.replicate 6 (.took 1)

/-- Counts of one byte, and an interruption in every flush. -/
def Kernel.slow : Kernel UInt8 :=
  { Kernel.steady oneByOne with flush := fun _ => .failed EINTR :: oneByOne }

/-- A line-buffered stream with room for two bytes. -/
def lineStream : Stream UInt8 :=
  (Stream.setvbuf Kernel.slow ⟨File.fopen 3, Sys.start⟩ (some ⟨64, [0, 0]⟩) 1 2).1

/-- Two lines of output, the second without an end. -/
def lineOps : List (Op UInt8) := [.fputs [104, 105, 10], .fputc 33, .fflush]

theorem session_transparent_iff_line :
    ∃ y rets ret, lineStream.session .slow lineOps = some (y, rets, ret) ∧
      y.delivered = [104, 105, 10, 33] ∧
      (List.Forall₂ Op.Reported lineOps rets ∧ ret = 0 ↔ ∀ op ∈ lineOps, op.Countable) := by
  have hopened : Opened Kernel.slow lineStream := by
    refine .setvbuf (.fopen 3) _ _ _ ?_
    rintro r ⟨⟩
    rfl
  refine session_transparent_iff hopened rfl lineOps ?_ ⟨⟨?_, ?_, ?_, ?_⟩, ?_, ?_⟩
  · simp [lineOps, Op.Fits]
  · exact fun _ => (by decide : ∀ a ∈ .failed EINTR :: oneByOne, ¬ a.Hard)
  · exact fun _ => (by decide : 6 ≤ (.failed EINTR :: oneByOne).countP Answer.Positive)
  · exact fun _ => (by decide : ∀ a ∈ oneByOne, a.Positive)
  · exact fun _ => (by decide : 6 ≤ oneByOne.countP Answer.Positive)
  · exact fun _ => rfl
  · exact fun _ => rfl

theorem fputs_at_once (fd : ℤ) {str : List α} (hne : str ≠ []) (hlen : str.length ≤ SSIZE_MAX) :
    ∃ y, Stream.session (Kernel.steady [.took str.length]) [.fputs str]
        ⟨File.fopen fd, Sys.start⟩ = some (y, [toInt str.length], 0) ∧ y.delivered = str := by
  have hmod : str.length % 2 ^ 64 = str.length :=
    Nat.mod_eq_of_lt (by unfold SSIZE_MAX at hlen; omega)
  have hbytes : fwriteBytes (Kernel.steady [.took str.length])
      ⟨File.fopen fd, Sys.start⟩ str
        = some (⟨File.fopen fd, (Sys.start.next.accept str).deliver str⟩, []) := by
    change fwriteDirect _ _ _ = _
    have hw := writeDirect_at_once hne hlen (Sys.start : Sys α).next
    simp only [fwriteDirect, Kernel.steady, hw]
  have hfputs : fputs (Kernel.steady [.took str.length]) ⟨File.fopen fd, Sys.start⟩ str
      = some (⟨File.fopen fd, (Sys.start.next.accept str).deliver str⟩, toInt str.length) := by
    simp only [fputs, fwrite, one_mul, hmod, take_length, hbytes]
    simp [hne]
  refine ⟨((Sys.start.next.accept str).deliver str).next, ?_, rfl⟩
  simp only [session, calls, each, Op.exec, hfputs]
  rfl

/-- A string of `2 ^ 32 - 1` bytes arrives in full, and `fputs` returns `-1`. -/
theorem fputs_long_string_reports_failure :
    ∃ y, Stream.session (Kernel.steady [.took (2 ^ 32 - 1)])
        [.fputs (List.replicate (2 ^ 32 - 1) (97 : UInt8))] ⟨File.fopen 3, Sys.start⟩
      = some (y, [-1], 0) ∧ y.delivered = List.replicate (2 ^ 32 - 1) 97 ∧
        ¬ Op.Reported (.fputs (List.replicate (2 ^ 32 - 1) (97 : UInt8))) (-1) := by
  generalize hstr : List.replicate (2 ^ 32 - 1) (97 : UInt8) = str
  have hlen : str.length = 2 ^ 32 - 1 := by rw [← hstr, length_replicate]
  have hne : str ≠ [] := by
    intro h
    simp [h] at hlen
  obtain ⟨y, hy, hdel⟩ := fputs_at_once 3 hne (by rw [hlen]; decide)
  rw [hlen] at hy
  exact ⟨y, hy, hdel, by simp [Op.Reported]⟩

end Vlibc.Stdio
