import Vlibc.Stdio.Session

/-!
# What a write error does to the output

`flush_buffer` leaves its loop at the first error other than `EINTR` and `EAGAIN` with the buffer as
it found it. The next flush starts again at the first byte: what had been taken is delivered a
second time, unless nothing had been (`delivered_sublist_of_failsFirst`). And `fclose` does not look
at what `flush_buffer` returns: it reports success although the buffer is lost, exactly when the
answers to that last flush do not drain it (`fclose_delivers_iff`).
-/

namespace Vlibc.Stdio

open List

open Pipe (Reach)

variable {α : Type*} {k : Kernel α} {s s' t : Stream α} {y y' : Sys α}

theorem fclose_reaches [Octet α] {ret : ℤ} (hf : s.file.Ready) (h : s.fclose k = some (y, ret)) :
    ∃ pending, Reach k.Allows s.pipe ⟨y.accepted, y.delivered, pending⟩ := by
  obtain ⟨t, r, hflush, hacc, hdel, -⟩ := fclose_flushes h
  rw [hacc, hdel]
  exact ⟨t.file.pending, (flushBuffer_flushed hf hflush).reach⟩

/-- **Nothing is delivered twice, as long as a flush that fails has delivered nothing**: in every
state a descriptor or cookie stream reaches, also after `fclose`, the bytes delivered are a
subsequence of the bytes accepted. -/
theorem delivered_sublist_of_failsFirst [Octet α] (hs : Opened k s) (hk : k.FailsFirst)
    (ops : List (Op α)) (hfit : ∀ op ∈ ops, op.Fits) :
    (∀ s' rets, s.calls k ops = some (s', rets) →
      s'.sys.delivered.Sublist s'.sys.accepted) ∧
    (∀ y rets ret, s.session k ops = some (y, rets, ret) → y.delivered.Sublist y.accepted) := by
  have hfresh := hs.fresh
  refine ⟨?_, ?_⟩
  · intro s' rets h
    have hmoves := (calls_ran hfresh.ready hfit h).1
    exact (hfresh.exact_of_reach hk hmoves.reach).sublist
  · intro y rets ret h
    obtain ⟨t, hcalls, hclose⟩ := session_parts h
    have hmoves := (calls_ran hfresh.ready hfit hcalls).1
    obtain ⟨pending, hreach⟩ := fclose_reaches hmoves.ready hclose
    exact (hfresh.exact_of_reach hk (hmoves.reach.trans hreach)).sublist

/-- A fully buffered stream with room for four bytes. -/
def fullStream (k : Kernel UInt8) : Stream UInt8 :=
  (Stream.setvbuf k ⟨File.fopen 3, Sys.start⟩ (some ⟨64, [0, 0, 0, 0]⟩) 0 4).1

theorem fullStream_opened (k : Kernel UInt8) : Opened k (fullStream k) := by
  apply Opened.setvbuf (.fopen 3)
  rintro r ⟨⟩
  rfl

/-- The first flush goes as `first` says, the later ones take everything. -/
def Kernel.once (first : List Answer) : Kernel UInt8 :=
  { Kernel.steady [.took 4] with flush := fun i => if i = 0 then first else [.took 4] }

/-- `fputs("ab", f); fflush(f); fflush(f)`. -/
def retryOps : List (Op UInt8) := [.fputs [97, 98], .fflush, .fflush]

theorem delivered_sublist_of_failsFirst_retry :
    (∀ s' rets, (fullStream (.once [.failed EIO])).calls (.once [.failed EIO]) retryOps
      = some (s', rets) → s'.sys.delivered.Sublist s'.sys.accepted) ∧
    (∀ y rets ret, (fullStream (.once [.failed EIO])).session (.once [.failed EIO]) retryOps
      = some (y, rets, ret) → y.delivered.Sublist y.accepted) := by
  apply delivered_sublist_of_failsFirst (fullStream_opened _)
  · intro i
    simp only [Kernel.once]
    split
    · exact fun h => absurd h (by decide)
    · exact (by decide : ∀ a ∈ ([] : List Answer), ¬ a.Hard)
  · simp [retryOps, Op.Fits]

/-- One byte is taken, then an error; the next flush delivers both bytes: `aab` for `ab`. -/
theorem flush_after_error_repeats :
    ∃ s', (fullStream (.once [.took 1, .failed EIO])).calls (.once [.took 1, .failed EIO]) retryOps
      = some (s', [2, -1, 0]) ∧ s'.sys.accepted = [97, 98] ∧ s'.sys.delivered = [97, 97, 98] ∧
        ¬ s'.sys.delivered.Sublist s'.sys.accepted := by
  refine ⟨_, rfl, rfl, rfl, ?_⟩
  decide

/-! ## The last flush -/

/-- Whether a loop of `flush_buffer` that is answered so ends with all of its `n` bytes taken. -/
def drains : List Answer → ℕ → Bool
  | _, 0 => true
  | [], _ + 1 => false
  | .took c :: as, n + 1 => drains as (n + 1 - taken c (n + 1))
  | .failed e :: as, n + 1 => decide (Retries e) && drains as (n + 1)

theorem writeAll_drains [Octet α] {as : List Answer} {bs : List α} {ok : Bool}
    (h : writeAll as bs y = some (y', ok)) : ok = drains as bs.length := by
  induction as, bs, y using writeAll.induct with
  | case1 as y =>
    obtain ⟨-, rfl⟩ : y = y' ∧ true = ok := by simpa [writeAll] using h
    simp [drains]
  | case2 => simp [writeAll] at h
  | case3 c as b bs y w ih =>
    rw [ih h, length_drop]
    rfl
  | case4 e as b bs y he ih =>
    rw [writeAll, if_pos he] at h
    rw [ih h]
    simp [drains, he]
  | case5 e as b bs y he =>
    rw [writeAll, if_neg he] at h
    cases h
    simp [drains, he]

variable [Octet α]

theorem flushBuffer_drains {r : ℤ} (hf : s.file.Ready) (h : s.flushBuffer k = some (s', r)) :
    s'.file.pending = [] ↔ drains (k.flush s.sys.tick) s.file.buflen = true := by
  by_cases hne : s.file.buflen = 0
  · obtain ⟨rfl, -⟩ := flushBuffer_of_empty hne h
    simp [hne, drains, pending_eq_nil hne]
  obtain ⟨y, ok, hw, hres⟩ := flushBuffer_loop hf hne h
  have hok := writeAll_drains hw
  rw [hf.pending_length] at hok
  rw [← hok]
  cases ok with
  | true =>
    cases hres
    exact iff_of_true (pending_eq_nil rfl) rfl
  | false =>
    cases hres
    refine iff_of_false ?_ (by simp)
    intro hnil
    have hlen := hf.pending_length
    change s.file.pending = [] at hnil
    rw [hnil] at hlen
    exact hne hlen.symm

/-- **What a successful `fclose` says about the output**: after calls that all reported success,
the bytes they passed on were delivered if the answers to the last flush drain the buffer; and if
the bytes are told apart, only then. -/
theorem fclose_delivers_iff (hs : Opened k s) (ops : List (Op α))
    (hfit : ∀ op ∈ ops, op.Fits) {rets : List ℤ} (hcalls : s.calls k ops = some (t, rets))
    (hrep : List.Forall₂ Op.Reported ops rets) (hclose : t.fclose k = some (y, 0)) :
    (drains (k.flush t.sys.tick) t.file.buflen = true → (output ops).Sublist y.delivered) ∧
    ((output ops).Nodup → ((∀ b ∈ output ops, b ∈ y.delivered) ↔
      drains (k.flush t.sys.tick) t.file.buflen = true)) := by
  have hfresh := hs.fresh
  obtain ⟨hmoves, hacc⟩ := calls_ran hfresh.ready hfit hcalls
  obtain ⟨u, r, hflush, haccy, hdely, -⟩ := fclose_flushes hclose
  have hfl := flushBuffer_flushed hmoves.ready hflush
  have hdrained := flushBuffer_drains hmoves.ready hflush
  have hcarries : u.pipe.Carries := by
    apply (hmoves.reach.trans hfl.reach).carries
    rw [hfresh.pipe]
    exact ⟨[], rfl, Sublist.refl _, by simp⟩
  have haccu : u.pipe.accepted = output ops := by
    change u.sys.accepted = output ops
    rw [hfl.accepted, hacc hrep, hfresh.accepted, nil_append]
  have hdelu : u.pipe.delivered = y.delivered := hdely.symm
  have hall : drains (k.flush t.sys.tick) t.file.buflen = true →
      (output ops).Sublist y.delivered := by
    intro hd
    rw [← haccu, ← hdelu]
    exact hcarries.sublist_of_drained (hdrained.2 hd)
  refine ⟨hall, fun hnd => ⟨?_, fun hd b hb => (hall hd).subset hb⟩⟩
  intro hmem
  by_contra hd
  rw [← haccu] at hnd hmem
  rw [← hdelu] at hmem
  obtain ⟨b, hb, hlost⟩ := hcarries.exists_lost (mt hdrained.1 hd) hnd
  exact hlost (hmem b hb)

/-- `fputs("ab", f)`. -/
def closeOps : List (Op UInt8) := [.fputs [97, 98]]

/-- The first flush is short and interrupted. -/
def Kernel.interrupted : Kernel UInt8 := .once [.took 1, .failed EINTR, .took 1]

theorem fclose_delivers_iff_interrupted :
    ∃ t y, (fullStream .interrupted).calls .interrupted closeOps = some (t, [2]) ∧
      t.fclose .interrupted = some (y, 0) ∧
      (drains (Kernel.interrupted.flush t.sys.tick) t.file.buflen = true →
        (output closeOps).Sublist y.delivered) ∧
      ((output closeOps).Nodup → ((∀ b ∈ output closeOps, b ∈ y.delivered) ↔
        drains (Kernel.interrupted.flush t.sys.tick) t.file.buflen = true)) := by
  have hrun : ∃ t, (fullStream .interrupted).calls .interrupted closeOps = some (t, [2]) ∧
      ∃ y, t.fclose .interrupted = some (y, 0) := ⟨_, rfl, _, rfl⟩
  obtain ⟨t, ht, y, hy⟩ := hrun
  refine ⟨t, y, ht, hy, fclose_delivers_iff (fullStream_opened _) closeOps ?_ ht ?_ hy⟩
  · simp [closeOps, Op.Fits]
  · simp [closeOps, Op.Reported]

/-- Two bytes are accepted, the last flush fails, and `fclose` returns zero. -/
theorem fclose_hides_lost_bytes :
    ∃ y, (fullStream (.once [.failed EIO])).session (.once [.failed EIO]) closeOps
      = some (y, [2], 0) ∧ output closeOps = [97, 98] ∧ y.delivered = [] :=
  ⟨_, rfl, rfl, rfl⟩

end Vlibc.Stdio
