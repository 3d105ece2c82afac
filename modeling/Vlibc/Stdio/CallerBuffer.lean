import Vlibc.Stdio.Ahead
import Vlibc.Stdio.MemArray

/-!
# `fmemopen` on the caller's memory

The functions of `stdio.c` treat the memory that the caller of `fmemopen` lends as they treat the
buffer of `open_memstream`: a write that does not fit passes it to `realloc`, and so does a flush
that has no room for a terminator. Where every write ends inside the memory and every flush finds a
byte free behind the contents, the memory stays where it is, and nothing outside it is written; and
only there.
-/

namespace Vlibc.Stdio

open List Option Stdio.Stream

variable {α : Type*} {k : Kernel α} {s s' t : Stream α} {addr n : ℕ} {r : ℤ}

/-- A call on a stream with a buffer of the caller's. -/
inductive BufOp (α : Type*)
  | op (op : MemOp α)
  | fread (size nmemb : ℕ)
  | fclose

namespace BufOp

variable [Octet α]

/-- Make the call. After `fclose` the `FILE` is kept as it is when it is freed. -/
def exec (k : Kernel α) (s : Stream α) : BufOp α → Option (Stream α × ℤ)
  | op o => o.exec k s
  | fread size nmemb => some ((s.fread k size nmemb).1, ((s.fread k size nmemb).2.2 : ℤ))
  | fclose =>
    match s.flushBuffer k with
    | none => none
    | some (s, _) =>
      some (⟨s.file, s.file.freeBuf s.file.owns (s.closeFile k).1⟩, (s.closeFile k).2)

omit [Octet α] in
/-- A write that ends inside the buffer, and a flush that has room for a terminator. -/
def Contained (s : Stream α) : BufOp α → Prop
  | op (.fwrite ptr size nmemb) =>
    s.file.bufpos + (ptr.take (size * nmemb % 2 ^ 64)).length ≤ s.file.bufsize
  | op (.fputc _) => s.file.bufpos + 1 ≤ s.file.bufsize
  | op (.fseek _ _) | op .fflush | fclose => s.file.buflen < s.file.bufsize
  | fread _ _ => True

end BufOp

/-! ## The caller's memory -/

/-- The buffer is the memory of `n` bytes at `addr`. It has not been passed to `free` or `realloc`,
and no byte outside it has been written. -/
structure Untouched (addr n : ℕ) (s : Stream α) : Prop where
  buffer : ∃ reg, s.file.buf = some reg ∧ reg.addr = addr ∧ reg.bytes.length = n
  freed : addr ∉ s.sys.freed
  resized : addr ∉ s.sys.resized

/-- A stream on the caller's memory. -/
structure Lent (f : File α) : Prop where
  isMem : f.isMem = true
  notCookie : f.isCookie = false
  narrow : f.isWmem = false
  notOwned : f.bufOwned = false

/-- The buffer is the caller's, and its bytes are in bounds. -/
structure OnCaller (addr n : ℕ) (s : Stream α) : Prop extends Untouched addr n s, Lent s.file where
  bufsize : s.file.bufsize = n
  pos : s.file.bufpos ≤ s.file.buflen
  le : s.file.buflen ≤ n

/-- A call under the condition `cond` keeps the memory, and one that keeps it is under it. -/
structure Lands (addr n : ℕ) (cond : Prop) (s : Stream α) : Prop where
  keeps : cond → OnCaller addr n s
  only : Untouched addr n s → cond

theorem Untouched.of_eq (h : Untouched addr n s) (hbuf : s'.file.buf = s.file.buf)
    (hfreed : s'.sys.freed = s.sys.freed) (hresized : s'.sys.resized = s.sys.resized) :
    Untouched addr n s' :=
  ⟨hbuf ▸ h.buffer, hfreed ▸ h.freed, hresized ▸ h.resized⟩

theorem growBuf_touches (h : OnCaller addr n s) {m : ℕ} :
    addr ∈ (s.growBuf k m).1.sys.resized ∧ Lent (s.growBuf k m).1.file := by
  obtain ⟨reg, hbuf, rfl, -⟩ := h.buffer
  unfold growBuf
  split
  · exact ⟨by simp [hbuf, Sys.fail], h.isMem, h.notCookie, h.narrow, h.notOwned⟩
  · exact ⟨by simp [hbuf], h.isMem, h.notCookie, h.narrow, h.notOwned⟩

variable {xs : List α}

theorem length_put_le {reg : Region α} {i : ℕ}
    (h : (reg.put i xs).bytes.length = reg.bytes.length) (hi : i ≤ reg.bytes.length) :
    i + xs.length ≤ reg.bytes.length := by
  simp only [Region.put, length_append, length_take, length_drop] at h
  omega

section flush

variable [Octet α]

theorem publish_lands (h : OnCaller addr n s) :
    Lands addr n (s.file.buflen < s.file.bufsize) s.publish ∧ Lent s.publish.file := by
  obtain ⟨reg, hbuf, haddr, hlen⟩ := h.buffer
  have hle := h.le
  have hsize := h.bufsize
  have hunit : s.file.unit = 1 := by simp [File.unit, h.narrow]
  have hput : s.publish.file.buf = some (reg.put s.file.buflen [Octet.nul]) := by
    simp [publish, hbuf, hunit]
  refine ⟨⟨fun hlt => ?_, fun hun => ?_⟩, h.isMem, h.notCookie, h.narrow, h.notOwned⟩
  · refine ⟨⟨⟨_, hput, haddr, ?_⟩, h.freed, h.resized⟩, ⟨h.isMem, h.notCookie, h.narrow,
      h.notOwned⟩, h.bufsize, h.pos, h.le⟩
    rw [length_put (by simp; omega)]
    exact hlen
  · obtain ⟨reg', hbuf', -, hlen'⟩ := hun.buffer
    obtain rfl := some.inj (hput.symm.trans hbuf')
    have := length_put_le (hlen'.trans hlen.symm) (by omega)
    simp at this
    omega

theorem flush_lands (h : OnCaller addr n s) (hn : 0 < n)
    (hflush : s.flushBuffer k = some (s', r)) :
    Lands addr n (s.file.buflen < s.file.bufsize) s' ∧ Lent s'.file ∧
      (s.file.buflen < s.file.bufsize → r = 0) := by
  obtain ⟨reg, hbuf, -, -⟩ := h.buffer
  have hle := h.le
  have hsize := h.bufsize
  by_cases h0 : s.file.buflen = 0
  · obtain ⟨rfl, rfl⟩ := flushBuffer_of_empty h0 hflush
    exact ⟨⟨fun _ => h, fun _ => by omega⟩, h.toLent, fun _ => rfl⟩
  have hunit : s.file.unit = 1 := by simp [File.unit, h.narrow]
  simp only [flushBuffer, hbuf, if_neg h0, h.isMem, if_true, flushMem, hunit]
    at hflush
  split at hflush
  · next hlt =>
    -- no room: `realloc` is called, whatever it returns
    obtain ⟨htouch, hlent⟩ := growBuf_touches (k := k) (m := (s.file.buflen + 1) % 2 ^ 64) h
    have hfull : ¬ s.file.buflen < s.file.bufsize := by omega
    split at hflush
    · next u hu =>
      cases hflush
      rw [hu] at htouch hlent
      exact ⟨⟨fun hc => absurd hc hfull, fun hun => absurd htouch hun.resized⟩, hlent,
        fun hc => absurd hc hfull⟩
    · next u hu =>
      cases hflush
      rw [hu] at htouch hlent
      exact ⟨⟨fun hc => absurd hc hfull, fun hun => absurd htouch hun.resized⟩,
        ⟨hlent.isMem, hlent.notCookie, hlent.narrow, hlent.notOwned⟩, fun _ => rfl⟩
  · cases hflush
    obtain ⟨hlands, hlent⟩ := publish_lands h
    exact ⟨hlands, hlent, fun _ => rfl⟩

theorem fseek_lands {offset whence : ℤ} (h : OnCaller addr n s) (hn : 0 < n)
    (hseek : s.fseek k offset whence = some (s', r)) :
    Lands addr n (s.file.buflen < s.file.bufsize) s' := by
  unfold fseek at hseek
  split at hseek
  · simp at hseek
  next u ret hflush =>
  obtain ⟨hlands, hlent, hret⟩ := flush_lands h hn hflush
  split at hseek
  · next hneg =>
    cases hseek
    exact hlands
  rw [if_pos hlent.isMem] at hseek
  unfold fseekMem at hseek
  split at hseek
  · cases hseek
    exact hlands
  · cases hseek
    refine ⟨fun hc => ?_, fun hun => hlands.only (hun.of_eq rfl rfl rfl)⟩
    have hu := hlands.keeps hc
    refine ⟨hu.toUntouched.of_eq rfl rfl rfl, ⟨hu.isMem, hu.notCookie, hu.narrow,
      hu.notOwned⟩, hu.bufsize, ?_, hu.le⟩
    dsimp only
    split <;> omega

theorem fflush_lands (h : OnCaller addr n s) (hn : 0 < n)
    (hfflush : s.fflush k = some (s', r)) :
    Lands addr n (s.file.buflen < s.file.bufsize) s' := by
  unfold fflush at hfflush
  split at hfflush
  · simp at hfflush
  next u ret hflush =>
  obtain ⟨hlands, hlent, -⟩ := flush_lands h hn hflush
  rw [if_pos hlent.isMem] at hfflush
  split at hfflush
  all_goals
    cases hfflush
    exact hlands

theorem fclose_lands (h : OnCaller addr n s) (hn : 0 < n)
    (hfclose : BufOp.fclose.exec k s = some (s', r)) :
    Lands addr n (s.file.buflen < s.file.bufsize) s' := by
  simp only [BufOp.exec] at hfclose
  split at hfclose
  · simp at hfclose
  next u ret hflush =>
  obtain ⟨hlands, hlent, -⟩ := flush_lands h hn hflush
  cases hfclose
  have howns : u.file.owns = false := by
    unfold File.owns
    split
    · rfl
    · exact hlent.notOwned
  have hsys : u.file.freeBuf u.file.owns (u.closeFile k).1 = u.sys := by
    simp only [closeFile, hlent.notCookie, hlent.isMem, howns, File.freeBuf,
      Bool.false_eq_true, if_false, if_true]
    split <;> rfl
  rw [hsys]
  exact hlands

end flush

/-! ## `fwrite` and `fread` -/

theorem storeMem_lands {data : List α} (h : OnCaller addr n s) :
    Lands addr n (s.file.bufpos + data.length ≤ s.file.bufsize) (s.storeMem data) := by
  obtain ⟨reg, hbuf, haddr, hlen⟩ := h.buffer
  have hle := h.le
  have hpos := h.pos
  have hsize := h.bufsize
  have hput : (s.storeMem data).file.buf = some (reg.put s.file.bufpos data) := by
    simp [storeMem, hbuf]
  refine ⟨fun hc => ?_, fun hun => ?_⟩
  · refine ⟨⟨⟨_, hput, haddr, ?_⟩, h.freed, h.resized⟩, ⟨h.isMem, h.notCookie, h.narrow,
      h.notOwned⟩, h.bufsize, le_max_right _ _, ?_⟩
    · rw [length_put (by omega)]
      exact hlen
    · exact max_le hle (by omega)
  · obtain ⟨reg', hbuf', -, hlen'⟩ := hun.buffer
    obtain rfl := some.inj (hput.symm.trans hbuf')
    have := length_put_le (hlen'.trans hlen.symm) (by omega)
    omega

theorem fwriteMem_lands {data rest : List α} (h : OnCaller addr n s)
    (hwrite : s.fwriteMem k data = some (s', rest)) :
    Lands addr n (s.file.bufpos + data.length ≤ s.file.bufsize) s' := by
  have hle := h.le
  have hpos := h.pos
  have hsize := h.bufsize
  unfold fwriteMem at hwrite
  dsimp only at hwrite
  split at hwrite
  · next hdata =>
    cases hwrite
    subst hdata
    exact ⟨fun _ => h, fun _ => by simp; omega⟩
  split at hwrite
  · next hlt =>
    -- no room: `realloc` is called, whatever it returns
    have hout : ¬ s.file.bufpos + data.length ≤ s.file.bufsize := by
      have := Nat.mod_le (s.file.bufpos + data.length) (2 ^ 64)
      omega
    split at hwrite
    · simp at hwrite
    next m _ =>
    obtain ⟨htouch, -⟩ := growBuf_touches (k := k) (m := m) h
    split at hwrite
    all_goals
      next u hu =>
      cases hwrite
      rw [hu] at htouch
      exact ⟨fun hc => absurd hc hout, fun hun => absurd htouch hun.resized⟩
  · cases hwrite
    exact storeMem_lands h

theorem Round.mem {want : ℕ} (hm : s.file.isMem = true)
    (hc : s.file.isCookie = false) (h : Round k s want s' xs) :
    ∃ p eof, s' = ⟨{ s.file with bufpos := p, eof := eof }, s.sys⟩ ∧
      (s.file.bufpos ≤ s.file.buflen → p ≤ s.file.buflen) := by
  cases h with
  | mute hc' => simp [hc] at hc'
  | ended => exact ⟨s.file.bufpos, true, rfl, id⟩
  | copied _ _ hlt =>
    refine ⟨_, s.file.eof, rfl, fun _ => ?_⟩
    omega
  | direct _ hd => simp [hc, hm] at hd
  | dry _ hm' | filled _ hm' => simp [hm] at hm'

theorem freadLoop_mem {fuel want : ℕ} (hm : s.file.isMem = true)
    (hc : s.file.isCookie = false) (h : Stream.freadLoop k fuel want s = (s', xs)) :
    ∃ p eof, s' = ⟨{ s.file with bufpos := p, eof := eof }, s.sys⟩ ∧
      (s.file.bufpos ≤ s.file.buflen → p ≤ s.file.buflen) := by
  induction fuel generalizing want s s' xs with
  | zero =>
    cases h
    exact ⟨s.file.bufpos, s.file.eof, rfl, id⟩
  | succ fuel ih =>
    cases want with
    | zero =>
      cases h
      exact ⟨s.file.bufpos, s.file.eof, rfl, id⟩
    | succ want =>
      rw [freadLoop] at h
      split at h
      · next t ht =>
        cases h
        exact (freadRound_cases ht).mem hm hc
      · next t b bs ht =>
        cases h
        obtain ⟨p, eof, rfl, hp⟩ := (freadRound_cases ht).mem hm hc
        obtain ⟨p', eof', ht', hp'⟩ :=
          ih (s := ⟨{ s.file with bufpos := p, eof := eof }, s.sys⟩) hm hc rfl
        exact ⟨p', eof', ht', fun hle => hp' (hp hle)⟩

theorem fread_lands {size nmemb : ℕ} (h : OnCaller addr n s) :
    Lands addr n True (s.fread k size nmemb).1 := by
  refine ⟨fun _ => ?_, fun _ => trivial⟩
  unfold fread
  split
  · exact h
  · obtain ⟨p, eof, ht, hp⟩ := freadLoop_mem h.isMem h.notCookie
      (Prod.mk.eta (p := freadLoop k (size * nmemb % 2 ^ 64) (size * nmemb % 2 ^ 64) s)).symm
    rw [ht]
    exact ⟨h.toUntouched.of_eq rfl rfl rfl, ⟨h.isMem, h.notCookie, h.narrow,
      h.notOwned⟩, h.bufsize, hp h.pos, h.le⟩

section calls

variable [Octet α]

theorem fwrite_lands {ptr : List α} {size nmemb ret : ℕ} (h : OnCaller addr n s)
    (hwrite : s.fwrite k ptr size nmemb = some (s', ret)) :
    Lands addr n (s.file.bufpos + (ptr.take (size * nmemb % 2 ^ 64)).length ≤ s.file.bufsize)
      s' := by
  unfold fwrite at hwrite
  split at hwrite
  · next h0 =>
    cases hwrite
    have hnil : (ptr.take (size * nmemb % 2 ^ 64)).length = 0 := by
      rcases h0 with rfl | rfl <;> simp
    have hle := h.pos.trans (h.le.trans h.bufsize.ge)
    exact ⟨fun _ => h, fun _ => by omega⟩
  · dsimp only at hwrite
    split at hwrite
    · simp at hwrite
    · next u rest hu =>
      cases hwrite
      rw [fwriteBytes, if_neg (by simp [h.notCookie]), if_pos h.isMem] at hu
      exact fwriteMem_lands h hu

/-- **A call keeps the caller's memory if and only if it is contained**. -/
theorem exec_lands {op : BufOp α} (h : OnCaller addr n s) (hn : 0 < n)
    (hexec : op.exec k s = some (s', r)) : Lands addr n (op.Contained s) s' := by
  cases op with
  | fread size nmemb =>
    cases hexec
    exact fread_lands h
  | fclose => exact fclose_lands h hn hexec
  | op o =>
    cases o with
    | fwrite ptr size nmemb =>
      obtain ⟨⟨u, ret⟩, hu, heq⟩ := map_eq_some_iff.1 hexec
      cases heq
      exact fwrite_lands h hu
    | fputc ch =>
      change s.fputc k ch = _ at hexec
      unfold fputc at hexec
      split at hexec
      · simp at hexec
      · next u ret hu =>
        cases hexec
        exact fwrite_lands h hu
    | fseek offset whence => exact fseek_lands h hn hexec
    | fflush => exact fflush_lands h hn hexec

/-- A contained write does not enter the loop that looks for a larger size. -/
theorem fwrite_returns {ptr : List α} {size nmemb : ℕ} (h : OnCaller addr n s)
    (hc : s.file.bufpos + (ptr.take (size * nmemb % 2 ^ 64)).length ≤ s.file.bufsize) :
    ∃ p, s.fwrite k ptr size nmemb = some p := by
  have hroom : ¬ s.file.bufsize < (s.file.bufpos + (ptr.take (size * nmemb % 2 ^ 64)).length) %
      2 ^ 64 := by
    have := Nat.mod_le (s.file.bufpos + (ptr.take (size * nmemb % 2 ^ 64)).length) (2 ^ 64)
    omega
  unfold fwrite
  split
  · exact ⟨_, rfl⟩
  · dsimp only
    rw [fwriteBytes, if_neg (by simp [h.notCookie]), if_pos h.isMem, fwriteMem]
    by_cases hnil : ptr.take (size * nmemb % 2 ^ 64) = []
    · simp only [hnil, if_true]
      exact ⟨_, rfl⟩
    · simp only [if_neg hnil, if_neg hroom]
      exact ⟨_, rfl⟩

theorem flush_returns (h : OnCaller addr n s) (hn : 0 < n) :
    ∃ u ret, s.flushBuffer k = some (u, ret) ∧ u.file.isMem = true := by
  obtain ⟨⟨u, ret⟩, hflush⟩ : ∃ p, s.flushBuffer k = some p := by
    obtain ⟨reg, hbuf, -⟩ := h.buffer
    simp only [flushBuffer, hbuf, h.isMem, h.notCookie, if_true]
    split <;> exact ⟨_, rfl⟩
  exact ⟨u, ret, hflush, (flush_lands h hn hflush).2.1.isMem⟩

theorem exec_returns {op : BufOp α} (h : OnCaller addr n s) (hn : 0 < n) (hc : op.Contained s) :
    ∃ p, op.exec k s = some p := by
  obtain ⟨u, ret, hflush, hmem⟩ := flush_returns (k := k) h hn
  cases op with
  | fread size nmemb => exact ⟨_, rfl⟩
  | fclose => exact ⟨_, by simp only [BufOp.exec, hflush]; rfl⟩
  | op o =>
    cases o with
    | fwrite ptr size nmemb =>
      obtain ⟨p, hp⟩ := fwrite_returns (k := k) h hc
      exact ⟨_, by simp only [BufOp.exec, MemOp.exec, hp]; rfl⟩
    | fputc ch =>
      obtain ⟨p, hp⟩ : ∃ p, s.fwrite k [ch] 1 1 = some p := fwrite_returns h hc
      exact ⟨_, by simp only [BufOp.exec, MemOp.exec, fputc, hp]; rfl⟩
    | fseek offset whence =>
      simp only [BufOp.exec, MemOp.exec, fseek, hflush, if_pos hmem]
      split <;> exact ⟨_, rfl⟩
    | fflush =>
      simp only [BufOp.exec, MemOp.exec, fflush, hflush, if_pos hmem]
      split <;> exact ⟨_, rfl⟩

/-- Every call returns, and `P` holds before the calls and after each. -/
def Along (k : Kernel α) (P : Stream α → Prop) : List (BufOp α) → Stream α → Prop
  | [], s => P s
  | op :: ops, s => P s ∧ ∃ p, op.exec k s = some p ∧ Along k P ops p.1

/-- No call of a sequence reaches beyond the buffer. -/
def AllContained (k : Kernel α) : List (BufOp α) → Stream α → Prop
  | [], _ => True
  | op :: ops, s => op.Contained s ∧ ∀ p ∈ op.exec k s, AllContained k ops p.1

variable {ops : List (BufOp α)}

theorem Along.first {P : Stream α → Prop} (h : Along k P ops s) : P s := by
  cases ops with
  | nil => exact h
  | cons op ops => exact h.1

/-- By induction on the calls: up to the first that is not contained the memory is kept, and that
one does not keep it. -/
theorem along_iff (h : OnCaller addr n s) (hn : 0 < n) :
    Along k (Untouched addr n) ops s ↔ AllContained k ops s := by
  induction ops generalizing s with
  | nil => exact ⟨fun _ => trivial, fun _ => h.toUntouched⟩
  | cons op ops ih =>
    constructor
    · rintro ⟨-, ⟨u, r⟩, hexec, hrest⟩
      have hlands := exec_lands h hn hexec
      have hc := hlands.only hrest.first
      refine ⟨hc, fun p hp => ?_⟩
      obtain rfl := some.inj (hexec.symm.trans hp)
      exact (ih (hlands.keeps hc)).1 hrest
    · rintro ⟨hc, hrest⟩
      obtain ⟨⟨u, r⟩, hexec⟩ := exec_returns (k := k) h hn hc
      have hu := (exec_lands h hn hexec).keeps hc
      exact ⟨h.toUntouched, (u, r), hexec, (ih hu).2 (hrest _ hexec)⟩

end calls

theorem fmemopen_onCaller {y y' : Sys α} {reg : Region α} {mode : Option (List UInt8)} {f : File α}
    (hopen : fmemopen k y (some reg) n mode = (y', some f)) (hlen : reg.bytes.length = n)
    (hfreed : reg.addr ∉ y.freed) (hresized : reg.addr ∉ y.resized) :
    OnCaller reg.addr n ⟨f, y'⟩ ∧ 0 < n := by
  unfold fmemopen at hopen
  dsimp only at hopen
  split at hopen
  · simp at hopen
  next h0 =>
  split at hopen
  · simp at hopen
  split at hopen
  · simp at hopen
  obtain ⟨rfl, hf⟩ := Prod.mk.inj hopen
  cases hf
  refine ⟨⟨⟨⟨reg, rfl, rfl, hlen⟩, hfreed, hresized⟩, ⟨rfl, rfl, rfl, rfl⟩, rfl, ?_, ?_⟩,
    pos_of_ne_zero h0⟩
  · dsimp only
    split <;> omega
  · dsimp only
    split <;> omega

/-- **Calls on a stream of `fmemopen` keep the caller's memory if and only if every write ends
inside it and every flush, seek or close finds a byte free behind the contents.** They keep it when
after each call the buffer is the caller's memory of `n` bytes, has not been passed to `free` or
`realloc`, and has not been written beyond its end. -/
theorem caller_buffer_kept_iff [Octet α] {y y' : Sys α} {reg : Region α}
    {mode : Option (List UInt8)} {f : File α}
    (hopen : fmemopen k y (some reg) n mode = (y', some f)) (hlen : reg.bytes.length = n)
    (hfreed : reg.addr ∉ y.freed) (hresized : reg.addr ∉ y.resized) (ops : List (BufOp α)) :
    Along k (Untouched reg.addr n) ops ⟨f, y'⟩ ↔ AllContained k ops ⟨f, y'⟩ := by
  obtain ⟨hcaller, hn⟩ := fmemopen_onCaller hopen hlen hfreed hresized
  exact along_iff hcaller hn

/-- A buffer of four bytes. -/
def fourBytes : Region UInt8 := ⟨64, [1, 2, 3, 4]⟩

/-- `fputc('a', f); fflush(f)` on a stream of mode `w`. -/
theorem caller_buffer_kept_iff_room :
    ∃ y f, fmemopen givesMemory Sys.start (some fourBytes) 4 (some ['w'.toUInt8]) = (y, some f) ∧
      Along givesMemory (Untouched 64 4) [.op (.fputc 97), .op .fflush] ⟨f, y⟩ := by
  have hopen : ∃ y f, fmemopen givesMemory Sys.start (some fourBytes) 4 (some ['w'.toUInt8]) =
      (y, some f) ∧ AllContained givesMemory [.op (.fputc 97), .op .fflush] ⟨f, y⟩ := by
    refine ⟨_, _, rfl, (by decide : 0 + 1 ≤ 4), ?_⟩
    rintro p hp
    cases hp
    exact ⟨(by decide : 1 < 4), fun _ _ => trivial⟩
  obtain ⟨y, f, hopen, hc⟩ := hopen
  exact ⟨y, f, hopen, (caller_buffer_kept_iff hopen rfl (by decide) (by decide) _).2 hc⟩

/-- A stream opened for reading on four bytes, and closed: the memory is passed to `realloc`. -/
theorem fclose_resizes_caller_buffer :
    ∃ y f t, fmemopen givesMemory Sys.start (some fourBytes) 4 (some ['r'.toUInt8]) =
        (y, some f) ∧
      BufOp.fclose.exec givesMemory ⟨f, y⟩ = some (t, 0) ∧ t.sys.resized = [fourBytes.addr] :=
  ⟨_, _, _, rfl, rfl, rfl⟩

end Vlibc.Stdio
