import Vlibc.Stdio.Refine

/-!
# Sequences of calls on a stream

An `Op` is a call of `fwrite`, `fputc`, `fputs` or `fflush` with its arguments, `Stream.calls` makes
a list of them and collects what they return, and `Stream.session` ends with `fclose`. `exec_ran`
says what one call does to the pipe and how much it accepted.
-/

namespace Vlibc.Stdio

open List Stdio.Stream

open Pipe (Reach)

variable {α : Type*} {k : Kernel α} {s s' t : Stream α} {y y' : Sys α}

/-- A fresh stream is ready, and nothing has gone through it. -/
structure Fresh (s : Stream α) : Prop where
  ready : s.file.Ready
  empty : s.file.buflen = 0
  accepted : s.sys.accepted = []
  delivered : s.sys.delivered = []

variable {buf : Option (Region α)}

theorem withBuf_ready {f : File α} {size : ℕ} {owned : Bool}
    {m : BufMode} (hf : f.isMem = false)
    (hbuf : ∀ r, buf = some r → r.bytes.length = size ∧ 0 < size) :
    (f.withBuf buf size owned m).Ready :=
  ⟨hf, hbuf, fun _ => Nat.zero_le _, fun _ => rfl⟩

theorem bufferSize_pos (size : ℕ) : 0 < bufferSize size := by
  unfold bufferSize BUFSIZ
  split <;> omega

theorem freeBuf_history (f : File α) (owned : Bool) (y : Sys α) :
    (f.freeBuf owned y).accepted = y.accepted ∧ (f.freeBuf owned y).delivered = y.delivered := by
  unfold File.freeBuf
  split <;> [split; skip] <;> exact ⟨rfl, rfl⟩

theorem Fresh.setvbuf {mode : ℤ} {size : ℕ} (hs : Fresh s)
    (hbuf : ∀ r, buf = some r → r.bytes.length = bufferSize size) :
    Fresh (s.setvbuf k buf mode size).1 := by
  have hmem := hs.ready.notMem
  unfold Stream.setvbuf
  split
  · exact ⟨hs.ready, hs.empty, hs.accepted, hs.delivered⟩
  next m _ =>
  obtain ⟨hacc, hdel⟩ := freeBuf_history s.file s.file.bufOwned s.sys
  rw [hs.accepted] at hacc
  rw [hs.delivered] at hdel
  dsimp only
  split
  · exact ⟨withBuf_ready hmem (by simp), rfl, hacc, hdel⟩
  split
  · next r =>
    refine ⟨withBuf_ready hmem ?_, rfl, hacc, hdel⟩
    intro r' hr'
    cases hr'
    exact ⟨hbuf r rfl, bufferSize_pos size⟩
  split
  · refine ⟨⟨hmem, by simp, by simp, fun _ => hs.empty⟩, hs.empty, hacc, hdel⟩
  · next addr fresh _ =>
    refine ⟨withBuf_ready hmem ?_, rfl, hacc, hdel⟩
    intro r' hr'
    cases hr'
    exact ⟨by simp [regrow], bufferSize_pos size⟩

theorem Opened.fresh (h : Opened k s) : Fresh s := by
  induction h with
  | fopen fd =>
    exact ⟨⟨rfl, by simp [File.fopen], by simp [File.fopen], fun _ => rfl⟩, rfl, rfl, rfl⟩
  | fdopen fd =>
    exact ⟨⟨rfl, by simp [File.fdopen], by simp [File.fdopen], fun _ => rfl⟩, rfl, rfl, rfl⟩
  | fopencookie read write seek close =>
    exact ⟨⟨rfl, by simp [File.fopencookie], by simp [File.fopencookie], fun _ => rfl⟩, rfl, rfl,
      rfl⟩
  | setvbuf _ buf mode size hbuf ih => exact ih.setvbuf hbuf

theorem Fresh.pipe (h : Fresh s) : s.pipe = ⟨[], [], []⟩ := by
  unfold Stream.pipe
  rw [h.accepted, h.delivered, pending_eq_nil h.empty]

theorem Fresh.exact_of_reach {p : Pipe α} (hs : Fresh s) (hk : k.FailsFirst)
    (h : Reach k.Allows s.pipe p) : p.Exact := by
  apply (h.mono fun _ he => he hk).exact
  rw [hs.pipe]
  rfl

/-- What `fwrite` returns for all of its elements; elements without a size are not counted. -/
def fullCount (size nmemb : ℕ) : ℕ := if size = 0 then 0 else nmemb

/-- The functions that write. -/
inductive Op (α : Type*)
  | fwrite (ptr : List α) (size nmemb : ℕ)
  | fputc (ch : α)
  | fputs (str : List α)
  | fflush

namespace Op

/-- The bytes a call passes on. -/
def bytes : Op α → List α
  | fwrite ptr _ _ => ptr
  | fputc ch => [ch]
  | fputs str => str
  | fflush => []

/-- The memory a call's arguments describe exists. -/
def Fits : Op α → Prop
  | fwrite ptr size nmemb => ptr.length = size * nmemb ∧ ptr.length < 2 ^ 64
  | fputs str => str.length < 2 ^ 64
  | _ => True

/-- The call's return value reports full success: `fwrite` counts all elements, `fputc` and `fputs`
return a number that is not negative, and `fflush` zero. -/
def Reported : Op α → ℤ → Prop
  | fwrite _ size nmemb, r => r = fullCount size nmemb
  | fputc _, r => 0 ≤ r
  | fputs _, r => 0 ≤ r
  | fflush, r => r = 0

/-- What a call does. -/
def exec [Octet α] (k : Kernel α) (s : Stream α) : Op α → Option (Stream α × ℤ)
  | fwrite ptr size nmemb => (s.fwrite k ptr size nmemb).map fun (s, w) => (s, (w : ℤ))
  | fputc ch => s.fputc k ch
  | fputs str => s.fputs k str
  | fflush => s.fflush k

end Op

/-- The bytes a sequence of calls passes on. -/
def output (ops : List (Op α)) : List α := ops.flatMap Op.bytes

/-- Make calls one after the other, and collect what they return. -/
def Stream.each {γ : Type*} (exec : Stream α → γ → Option (Stream α × ℤ)) :
    List γ → Stream α → Option (Stream α × List ℤ)
  | [], s => some (s, [])
  | c :: cs, s =>
    match exec s c with
    | none => none
    | some (s, r) =>
      match each exec cs s with
      | none => none
      | some (s, rets) => some (s, r :: rets)

/-- A sequence of calls. -/
def Stream.calls [Octet α] (k : Kernel α) (ops : List (Op α)) (s : Stream α) :
    Option (Stream α × List ℤ) :=
  Stream.each (fun s op => op.exec k s) ops s

/-- A sequence of calls, and `fclose`. -/
def Stream.session [Octet α] (k : Kernel α) (ops : List (Op α)) (s : Stream α) :
    Option (Sys α × List ℤ × ℤ) :=
  match s.calls k ops with
  | none => none
  | some (s, rets) =>
    match s.fclose k with
    | none => none
    | some (y, ret) => some (y, rets, ret)

/-! ## One call -/

/-- What a call does: it moves the stream as a pipe, and accepts an initial part of its bytes, all
of them if it reports success. -/
structure Ran (k : Kernel α) (op : Op α) (s s' : Stream α) (r : ℤ) : Prop
    extends Moves k s s' where
  accepted : ∃ xs, xs <+: op.bytes ∧ s'.sys.accepted = s.sys.accepted ++ xs ∧
    (op.Reported r → xs = op.bytes)

theorem Took.ran {op : Op α} {rest : List α} {r : ℤ} (h : Took k s s' op.bytes rest)
    (hall : op.Reported r → rest = []) : Ran k op s s' r := by
  obtain ⟨xs, hxs, hacc⟩ := h.accepted
  refine ⟨h.toMoves, xs, ⟨rest, hxs.symm⟩, hacc, ?_⟩
  intro hr
  rw [hxs, hall hr, append_nil]

variable [Octet α]

theorem fwrite_took {ptr : List α} {size nmemb w : ℕ} (hf : s.file.Ready)
    (hfit : ptr.length = size * nmemb) (hlt : ptr.length < 2 ^ 64)
    (h : s.fwrite k ptr size nmemb = some (s', w)) :
    ∃ rest, Took k s s' ptr rest ∧ (w = fullCount size nmemb → rest = []) := by
  unfold fwrite at h
  split at h
  · next h0 =>
    cases h
    have hnil : ptr.length = 0 := by
      rw [hfit]
      rcases h0 with h0 | h0 <;> simp [h0]
    exact ⟨ptr, Took.none_taken (Moves.refl hf) rfl, fun _ => length_eq_zero_iff.1 hnil⟩
  next h0 =>
  have htotal : size * nmemb % 2 ^ 64 = ptr.length := by
    rw [← hfit, Nat.mod_eq_of_lt hlt]
  simp only [htotal, take_length] at h
  split at h
  · cases h
  next t rest hb =>
  cases h
  have htook := fwriteBytes_took hf hb
  refine ⟨rest, htook, ?_⟩
  intro hw
  rw [fullCount, if_neg (not_or.1 h0).1] at hw
  -- all elements counted means that no byte is left
  have hle : ptr.length ≤ ptr.length - rest.length :=
    calc ptr.length = (ptr.length - rest.length) / size * size := by
          rw [hw, hfit, mul_comm]
      _ ≤ ptr.length - rest.length := Nat.div_mul_le_self _ _
  obtain ⟨xs, hxs, -⟩ := htook.accepted
  have hlen := congrArg List.length hxs
  rw [length_append] at hlen
  exact length_eq_zero_iff.1 (by omega)

theorem fflush_ran {r : ℤ} (hf : s.file.Ready) (h : s.fflush k = some (s', r)) :
    Ran k .fflush s s' r := by
  unfold fflush at h
  split at h
  · cases h
  next t q hflush =>
  have hfl := flushBuffer_flushed hf hflush
  suffices hsync : Moves k t s' ∧ s'.sys.accepted = t.sys.accepted from
    ⟨hfl.toMoves.trans hsync.1, [], prefix_rfl, by simp [hsync.2, hfl.accepted], fun _ => rfl⟩
  split at h
  · cases h
    exact ⟨Moves.refl hfl.ready, rfl⟩
  rw [if_neg (by simp [hfl.ready.notMem])] at h
  split at h
  · cases h
    exact ⟨Moves.of_eq hfl.ready rfl rfl rfl, rfl⟩
  · next e _ =>
    cases h
    exact ⟨Moves.of_eq hfl.ready rfl rfl rfl, rfl⟩

theorem exec_ran {op : Op α} {r : ℤ} (hf : s.file.Ready) (hfit : op.Fits)
    (h : op.exec k s = some (s', r)) : Ran k op s s' r := by
  cases op with
  | fwrite ptr size nmemb =>
    obtain ⟨⟨t, w⟩, hw, hres⟩ := Option.map_eq_some_iff.1 h
    cases hres
    obtain ⟨rest, htook, hall⟩ := fwrite_took hf hfit.1 hfit.2 hw
    apply Took.ran htook
    intro hr
    exact hall (Int.ofNat_inj.1 hr)
  | fputc ch =>
    change s.fputc k ch = some (s', r) at h
    unfold fputc at h
    split at h
    · cases h
    next t w hw =>
    cases h
    obtain ⟨rest, htook, hall⟩ := fwrite_took hf rfl (by simp) hw
    apply Took.ran htook
    intro hr
    rw [Op.Reported] at hr
    split at hr
    · omega
    · next hw1 => exact hall (not_not.1 hw1)
  | fputs str =>
    change s.fputs k str = some (s', r) at h
    unfold fputs at h
    dsimp only at h
    split at h
    · cases h
    next t w hw =>
    cases h
    obtain ⟨rest, htook, hall⟩ := fwrite_took hf (by simp) hfit hw
    apply Took.ran htook
    intro hr
    rw [Op.Reported] at hr
    split at hr
    · next hw1 => exact hall hw1
    · omega
  | fflush => exact fflush_ran hf h

variable {rets : List ℤ}

omit [Octet α] in
theorem each_cons {γ : Type*} {exec : Stream α → γ → Option (Stream α × ℤ)} {c : γ} {cs : List γ}
    (h : Stream.each exec (c :: cs) s = some (s', rets)) :
    ∃ t r rets', exec s c = some (t, r) ∧ Stream.each exec cs t = some (s', rets') ∧
      rets = r :: rets' := by
  rw [each] at h
  split at h
  · cases h
  next t r hop =>
  split at h
  · cases h
  next t' rets' hops =>
  cases h
  exact ⟨t, r, rets', hop, hops, rfl⟩

theorem calls_ran {ops : List (Op α)} (hf : s.file.Ready)
    (hfit : ∀ op ∈ ops, op.Fits) (h : s.calls k ops = some (s', rets)) :
    Moves k s s' ∧ (List.Forall₂ Op.Reported ops rets →
      s'.sys.accepted = s.sys.accepted ++ output ops) := by
  induction ops generalizing s rets with
  | nil =>
    cases h
    exact ⟨Moves.refl hf, fun _ => by simp [output]⟩
  | cons op ops ih =>
    obtain ⟨t, r, rets', hop, hops, rfl⟩ := each_cons h
    have hran := exec_ran hf (hfit op mem_cons_self) hop
    obtain ⟨hm, hacc⟩ := ih hran.ready (fun o ho => hfit o (mem_cons_of_mem _ ho)) hops
    refine ⟨hran.toMoves.trans hm, ?_⟩
    intro hrep
    obtain ⟨hr, hrest⟩ := forall₂_cons.1 hrep
    obtain ⟨xs, -, hxs, hall⟩ := hran.accepted
    rw [hacc hrest, hxs, hall hr]
    simp [output]

omit [Octet α] in
theorem closeFile_history (s : Stream α) :
    (s.closeFile k).1.accepted = s.sys.accepted ∧
      (s.closeFile k).1.delivered = s.sys.delivered := by
  unfold closeFile
  split <;> split <;> first | exact ⟨rfl, rfl⟩ | (split <;> exact ⟨rfl, rfl⟩)

theorem fclose_flushes {ret : ℤ} (h : s.fclose k = some (y, ret)) :
    ∃ t r, s.flushBuffer k = some (t, r) ∧ y.accepted = t.sys.accepted ∧
      y.delivered = t.sys.delivered ∧ ret = (t.closeFile k).2 := by
  unfold fclose at h
  split at h
  · cases h
  next t r hflush =>
  obtain ⟨rfl, rfl⟩ : t.file.freeBuf t.file.owns (t.closeFile k).1 = y ∧
      (t.closeFile k).2 = ret := by simpa using h
  obtain ⟨hacc, hdel⟩ := freeBuf_history t.file t.file.owns (t.closeFile k).1
  obtain ⟨hacc', hdel'⟩ := closeFile_history (k := k) t
  exact ⟨t, r, hflush, hacc.trans hacc', hdel.trans hdel', rfl⟩

theorem session_parts {ops : List (Op α)} {ret : ℤ}
    (h : s.session k ops = some (y, rets, ret)) :
    ∃ t, s.calls k ops = some (t, rets) ∧ t.fclose k = some (y, ret) := by
  unfold session at h
  split at h
  · cases h
  next t rets' hcalls =>
  split at h
  · cases h
  next y' ret' hclose =>
  cases h
  exact ⟨t, hcalls, hclose⟩

end Vlibc.Stdio
