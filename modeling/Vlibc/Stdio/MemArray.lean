import Vlibc.Stdio.Session

/-!
# A memory stream is an array with a cursor

A stream that `open_memstream` has made holds an array and a place in it (`Holds`). Each call does
to the array what its specification `MemOp.apply` does to a `Cursor` (`exec_holds`), and `fflush`
shows the caller the array with a terminator behind it (`Published`).
-/

namespace Vlibc.Stdio

open List Option Stdio.Stream

variable {α : Type*} {k : Kernel α} {s t : Stream α} {c : Cursor α} {xs : List α} {n : ℕ}

namespace MemOp

/-- What the call does to an array with a cursor. -/
def apply (c : Cursor α) : MemOp α → Cursor α
  | fwrite ptr size nmemb => c.write (ptr.take (size * nmemb))
  | fputc ch => c.write [ch]
  | fseek offset whence =>
    c.seekTo ((seekTarget c.pos c.cells.length offset whence).getD 0).toNat
  | fflush => c

/-- What a call returns when it succeeds. -/
def ret [Octet α] : MemOp α → ℤ
  | fwrite _ size nmemb => if size = 0 then 0 else nmemb
  | fputc ch => (Octet.byte ch).toNat
  | fseek _ _ => 0
  | fflush => 0

/-- The arguments of the call: the bytes to write are there, and are fewer than `2 ^ 40`; the place
to go to is not negative. -/
def Fits (c : Cursor α) : MemOp α → Prop
  | fwrite ptr size nmemb => size * nmemb < 2 ^ 40 ∧ size * nmemb ≤ ptr.length
  | fseek offset whence =>
    offset ≤ OFF_MAX ∧ ∃ p ≥ 0, seekTarget c.pos c.cells.length offset whence = some p
  | _ => True

end MemOp

/-- What a sequence of calls does to the array. -/
def applyAll (ops : List (MemOp α)) (c : Cursor α) : Cursor α := ops.foldl MemOp.apply c

/-- Every call of a sequence has the arguments it needs. -/
def FitAll : List (MemOp α) → Cursor α → Prop
  | [], _ => True
  | op :: ops, c => op.Fits c ∧ FitAll ops (op.apply c)

/-- Every request for memory that a sequence of calls makes is granted. -/
def GrantAll [Octet α] (k : Kernel α) : List (MemOp α) → Stream α → Prop
  | [], _ => True
  | op :: ops, s =>
    k.Grants s.sys.tick (op.asks s) ∧ ∀ p ∈ op.exec k s, GrantAll k ops p.1

instance GrantAll.decide [Octet α] (k : Kernel α) :
    (ops : List (MemOp α)) → (s : Stream α) → Decidable (GrantAll k ops s)
  | [], _ => isTrue trivial
  | op :: ops, s =>
    haveI := fun p : Stream α × ℤ => GrantAll.decide k ops p.1
    inferInstanceAs
      (Decidable (k.Grants s.sys.tick (op.asks s) ∧ ∀ p ∈ op.exec k s, GrantAll k ops p.1))

/-- The stream holds the array `c`. -/
structure Holds (s : Stream α) (c : Cursor α) : Prop where
  isMem : s.file.isMem = true
  notCookie : s.file.isCookie = false
  narrow : s.file.isWmem = false
  shared : s.file.memBufp = true ∧ s.file.memSizep = true
  buffer : ∃ r, s.file.buf = some r ∧ r.bytes.length = s.file.bufsize ∧
    r.bytes.take c.cells.length = c.cells
  buflen : s.file.buflen = c.cells.length
  bufpos : s.file.bufpos = c.pos
  le : c.cells.length ≤ s.file.bufsize
  size : 0 < s.file.bufsize ∧ s.file.bufsize ≤ PTRDIFF_MAX

/-- The caller's pointer and size show `cells`, with a terminator behind them. -/
def Published [Octet α] (s : Stream α) (cells : List α) : Prop :=
  ∃ r, s.file.buf = some r ∧ s.sys.memBuf = r.addr ∧
    r.bytes.take (cells.length + 1) = cells ++ [Octet.nul] ∧ s.sys.memSize = cells.length

theorem growSize_of_le {needed : ℕ} (fuel : ℕ) (h : needed ≤ n) :
    growSize needed (fuel + 1) n = some n := by
  rw [growSize, if_neg (by omega)]

theorem growSize_spec {needed fuel : ℕ} (hn : 0 < n) (hlt : needed < 2 ^ 63)
    (h : needed ≤ n * 2 ^ fuel) : ∃ m, growSize needed (fuel + 1) n = some m ∧ needed ≤ m := by
  induction fuel generalizing n with
  | zero => exact ⟨n, growSize_of_le 0 (by omega), by omega⟩
  | succ fuel ih =>
    by_cases hle : needed ≤ n
    · exact ⟨n, growSize_of_le _ hle, hle⟩
    · have hmod : n * 2 % 2 ^ 64 = n * 2 := by omega
      rw [growSize, if_pos (by omega), hmod]
      apply ih (by omega)
      rw [pow_succ] at h
      rw [mul_assoc, mul_comm 2]
      exact h

/-- A write of less than `2 ^ 40` bytes finds a size. The buffer is large enough for the first
doubling to do, or so small that no doubling overflows. -/
theorem growSize_of_write {bufsize len : ℕ} (hpos : 0 < bufsize) (hmax : bufsize ≤ PTRDIFF_MAX)
    (hn : n ≤ bufsize) (hlen : len < 2 ^ 40) :
    ∃ m, growSize ((n + len) % 2 ^ 64) 65 (if bufsize = 0 then 128 else bufsize * 2 % 2 ^ 64)
      = some m ∧ n + len ≤ m := by
  unfold PTRDIFF_MAX at hmax
  have hneeded : (n + len) % 2 ^ 64 = n + len := Nat.mod_eq_of_lt (by omega)
  have hfirst : bufsize * 2 % 2 ^ 64 = bufsize * 2 := Nat.mod_eq_of_lt (by omega)
  rw [hneeded, if_neg hpos.ne', hfirst]
  by_cases hbig : 2 ^ 40 ≤ bufsize
  · exact ⟨_, growSize_of_le 64 (by omega), by omega⟩
  · exact growSize_spec (by omega) (by omega) (by omega)

theorem Holds.grow (h : Holds s c) (hk : (k.alloc s.sys.tick).isSome)
    (hn : s.file.bufsize ≤ n) (hmax : n ≤ PTRDIFF_MAX) :
    ∃ t, s.growBuf k n = (t, true) ∧ Holds t c ∧ t.file.bufsize = n := by
  obtain ⟨⟨addr, fresh⟩, hk⟩ := isSome_iff_exists.1 hk
  obtain ⟨r, hbuf, hlen, hcells⟩ := h.buffer
  have hle := h.le
  simp only [growBuf, hk, hbuf, map_some, getD_some]
  refine ⟨_, rfl, ⟨h.isMem, h.notCookie, h.narrow, h.shared, ⟨_, rfl, length_regrow _ _ _, ?_⟩,
    h.buflen, h.bufpos, hle.trans hn, h.size.1.trans_le hn, hmax⟩, rfl⟩
  rw [take_regrow _ (by omega) (by omega), hcells]

section flush

variable [Octet α]

theorem Holds.publish (h : Holds s c) (hroom : c.cells.length < s.file.bufsize) :
    Holds s.publish c ∧ Published s.publish c.cells := by
  obtain ⟨r, hbuf, hlen, hcells⟩ := h.buffer
  have hunit : s.file.unit = 1 := by simp [File.unit, h.narrow]
  have hput : s.publish.file.buf = some (r.put c.cells.length [Octet.nul]) := by
    simp [Stream.publish, hbuf, hunit, h.buflen]
  refine ⟨⟨h.isMem, h.notCookie, h.narrow, h.shared, ⟨_, hput, ?_, ?_⟩, h.buflen, h.bufpos, h.le,
    h.size⟩, _, hput, ?_, ?_, ?_⟩
  · rw [length_put (by simp; omega)]
    exact hlen
  · rw [take_put_of_le le_rfl (by omega), hcells]
  · simp [Stream.publish, hbuf, h.shared.1, Region.put]
  · rw [← length_singleton (a := (Octet.nul : α)), take_put (by omega), hcells]
  · simp [Stream.publish, h.shared.2, hunit, h.buflen]

theorem Holds.flush (h : Holds s c) (hk : k.Grants s.sys.tick s.flushAsks) :
    ∃ t, s.flushBuffer k = some (t, 0) ∧ Holds t c ∧ (c.cells ≠ [] → Published t c.cells) := by
  by_cases hempty : c.cells = []
  · have h0 : s.file.buflen = 0 := by rw [h.buflen, hempty]; rfl
    exact ⟨s, flushBuffer_eq_of_empty h0, h, fun hne => absurd hempty hne⟩
  · obtain ⟨r, hbuf, -, -⟩ := h.buffer
    have hne : s.file.buflen ≠ 0 := by
      rw [h.buflen]
      exact (length_pos_iff.2 hempty).ne'
    have hneed : (s.file.buflen + s.file.unit) % 2 ^ 64 = c.cells.length + 1 := by
      have := h.le
      have := h.size.2
      unfold PTRDIFF_MAX at this
      simp only [File.unit, h.narrow, h.buflen, Bool.false_eq_true, if_false]
      omega
    simp only [flushBuffer, hbuf, if_neg hne, h.isMem, if_true, flushMem, hneed]
    by_cases hroom : s.file.bufsize < c.cells.length + 1
    · have hask : s.flushAsks = some (c.cells.length + 1) := by
        simp only [flushAsks, hneed, if_pos (And.intro hne hroom)]
      obtain ⟨halloc, hmax⟩ := hk _ hask
      obtain ⟨t, ht, hholds, hsize⟩ := h.grow halloc hroom.le hmax
      obtain ⟨hpub, hshown⟩ := hholds.publish (by omega)
      simp only [if_pos hroom, ht]
      exact ⟨_, rfl, hpub, fun _ => hshown⟩
    · obtain ⟨hpub, hshown⟩ := h.publish (by omega)
      simp only [if_neg hroom]
      exact ⟨_, rfl, hpub, fun _ => hshown⟩

end flush

theorem Holds.store (h : Holds s c) (hroom : c.pos + xs.length ≤ s.file.bufsize) :
    Holds (s.storeMem xs) (c.write xs) := by
  obtain ⟨r, hbuf, hlen, hcells⟩ := h.buffer
  have hbuf' : (s.storeMem xs).file.buf = some (r.put c.pos xs) := by
    simp [storeMem, hbuf, h.bufpos]
  have hlen' := c.length_write xs
  refine ⟨h.isMem, h.notCookie, h.narrow, h.shared, ⟨_, hbuf', ?_, ?_⟩, ?_, ?_, ?_, h.size⟩
  · rw [length_put (by omega)]
    exact hlen
  · rw [hlen', take_put_max hcells c.le]
    rfl
  · rw [hlen']
    simp [storeMem, h.buflen, h.bufpos]
  · simp [storeMem, h.bufpos, Cursor.write]
  · rw [hlen']
    exact max_le h.le hroom

theorem Holds.fwriteMem (h : Holds s c) (hlen : xs.length < 2 ^ 40)
    (hk : k.Grants s.sys.tick (s.writeAsks xs.length)) :
    ∃ t, s.fwriteMem k xs = some (t, []) ∧ Holds t (c.write xs) := by
  unfold Stream.fwriteMem
  by_cases hxs : xs = []
  · subst hxs
    exact ⟨s, rfl, by simpa using h⟩
  have hpos := h.size.1
  have hmax := h.size.2
  have hcle : s.file.bufpos ≤ s.file.bufsize := by
    rw [h.bufpos]
    exact c.le.trans h.le
  obtain ⟨m, hm, hle⟩ := growSize_of_write hpos hmax hcle hlen
  have hneeded : (s.file.bufpos + xs.length) % 2 ^ 64 = s.file.bufpos + xs.length := by
    unfold PTRDIFF_MAX at hmax
    exact Nat.mod_eq_of_lt (by omega)
  rw [if_neg hxs]
  by_cases hroom : s.file.bufsize < (s.file.bufpos + xs.length) % 2 ^ 64
  · have hask : s.writeAsks xs.length = some m := by
      have hne : xs.length ≠ 0 := (length_pos_iff.2 hxs).ne'
      simp only [writeAsks, if_pos (And.intro hne hroom), hm]
    obtain ⟨halloc, hm'⟩ := hk m hask
    obtain ⟨t, ht, hholds, hsize⟩ := h.grow halloc (by omega) hm'
    rw [if_pos hroom]
    simp only [hm, ht]
    refine ⟨_, rfl, hholds.store ?_⟩
    rw [hsize, ← h.bufpos]
    exact hle
  · rw [if_neg hroom]
    refine ⟨_, rfl, h.store ?_⟩
    rw [← h.bufpos]
    omega

/-! ## One call -/

section calls

variable [Octet α]

theorem Holds.fwrite {ptr : List α} {size nmemb : ℕ} (h : Holds s c)
    (hlt : size * nmemb < 2 ^ 40) (hptr : size * nmemb ≤ ptr.length)
    (hk : k.Grants s.sys.tick (s.writeAsks (ptr.take (size * nmemb % 2 ^ 64)).length)) :
    ∃ t, s.fwrite k ptr size nmemb = some (t, if size = 0 then 0 else nmemb) ∧
      Holds t (c.write (ptr.take (size * nmemb))) := by
  have htotal : size * nmemb % 2 ^ 64 = size * nmemb := Nat.mod_eq_of_lt (by omega)
  rw [htotal] at hk
  by_cases h0 : size = 0 ∨ nmemb = 0
  · refine ⟨s, ?_, ?_⟩
    · rcases h0 with rfl | rfl <;> simp [Stream.fwrite]
    · rcases h0 with rfl | rfl <;> simpa using h
  · have hlen : (ptr.take (size * nmemb)).length < 2 ^ 40 := by
      rw [length_take]
      omega
    obtain ⟨t, ht, hholds⟩ := h.fwriteMem hlen hk
    refine ⟨t, ?_, hholds⟩
    have hsize : 0 < size := Nat.pos_of_ne_zero fun hs => h0 (.inl hs)
    simp only [Stream.fwrite, if_neg h0, htotal, Stream.fwriteBytes, h.notCookie, h.isMem,
      Bool.false_eq_true, if_false, if_true, ht, length_nil, Nat.sub_zero,
      Nat.mul_div_cancel_left _ hsize, if_neg hsize.ne']

theorem Holds.fputc {ch : α} (h : Holds s c) (hk : k.Grants s.sys.tick (s.writeAsks 1)) :
    ∃ t, s.fputc k ch = some (t, ((Octet.byte ch).toNat : ℤ)) ∧ Holds t (c.write [ch]) := by
  obtain ⟨t, ht, hholds⟩ :=
    h.fwrite (show 1 * 1 < 2 ^ 40 by decide) (show 1 * 1 ≤ [ch].length by simp) hk
  exact ⟨t, by simp [Stream.fputc, ht], hholds⟩

omit [Octet α] in
theorem Holds.fseekMem {offset whence p : ℤ} (h : Holds s c) (hoff : offset ≤ OFF_MAX)
    (hp : 0 ≤ p) (htarget : seekTarget c.pos c.cells.length offset whence = some p) :
    ∃ t, s.fseekMem offset whence = (t, 0) ∧ Holds t (c.seekTo p.toNat) := by
  have hmod : p % 2 ^ 64 = p := by
    have := c.le
    have := h.le
    have := h.size.2
    unfold PTRDIFF_MAX at this
    unfold OFF_MAX at hoff
    unfold seekTarget at htarget
    apply Int.emod_eq_of_lt hp
    split_ifs at htarget <;> simp only [some.injEq] at htarget <;> omega
  simp only [Stream.fseekMem, h.bufpos, h.buflen, htarget, hmod]
  refine ⟨_, rfl, h.isMem, h.notCookie, h.narrow, h.shared, h.buffer, rfl, ?_, h.le, h.size⟩
  change (if c.cells.length < p.toNat then c.cells.length else p.toNat) = min p.toNat c.cells.length
  split <;> omega

/-- **One call does to the array what it is to do**, and `fflush` publishes it. -/
theorem exec_holds {op : MemOp α} (h : Holds s c) (hfit : op.Fits c)
    (hk : k.Grants s.sys.tick (op.asks s)) :
    ∃ t, op.exec k s = some (t, op.ret) ∧ Holds t (op.apply c) ∧
      (op = .fflush → (op.apply c).cells ≠ [] → Published t (op.apply c).cells) := by
  cases op with
  | fwrite ptr size nmemb =>
    obtain ⟨t, ht, hholds⟩ := h.fwrite hfit.1 hfit.2 hk
    refine ⟨t, ?_, hholds, by simp⟩
    simp only [MemOp.exec, ht, MemOp.ret]
    split <;> rfl
  | fputc ch =>
    obtain ⟨t, ht, hholds⟩ := h.fputc hk
    exact ⟨t, ht, hholds, by simp⟩
  | fseek offset whence =>
    obtain ⟨hoff, p, hp, htarget⟩ := hfit
    obtain ⟨u, hu, hflushed, -⟩ := h.flush hk
    obtain ⟨t, ht, hholds⟩ := hflushed.fseekMem hoff hp htarget
    refine ⟨t, ?_, ?_, by simp⟩
    · simp only [MemOp.exec, fseek, hu]
      rw [if_neg (by decide), if_pos hflushed.isMem, ht]
      rfl
    · simpa [MemOp.apply, htarget] using hholds
  | fflush =>
    obtain ⟨t, ht, hholds, hpub⟩ := h.flush hk
    refine ⟨t, ?_, hholds, fun _ => hpub⟩
    simp only [MemOp.exec, fflush, ht]
    rw [if_neg (by decide), if_pos hholds.isMem]
    rfl

/-! ## A sequence of calls -/

theorem calls_hold {ops : List (MemOp α)} (h : Holds s c) (hfit : FitAll ops c)
    (hk : GrantAll k ops s) :
    ∃ t, Stream.each (MemOp.exec k) ops s = some (t, ops.map MemOp.ret) ∧
      Holds t (applyAll ops c) ∧
      (ops.getLast? = some .fflush → (applyAll ops c).cells ≠ [] →
        Published t (applyAll ops c).cells) := by
  induction ops generalizing s c with
  | nil => exact ⟨s, rfl, h, by simp⟩
  | cons op ops ih =>
    obtain ⟨u, hu, hholds, hpub⟩ := exec_holds h hfit.1 hk.1
    obtain ⟨t, ht, hholds', hpub'⟩ := ih hholds hfit.2 (hk.2 _ hu)
    refine ⟨t, by simp [each, hu, ht], hholds', fun hlast => ?_⟩
    cases ops with
    | nil =>
      cases ht
      exact hpub (by simpa using hlast)
    | cons op' ops => exact hpub' (by simpa using hlast)

end calls

theorem openMemstream_holds {y y' : Sys α} {f : File α}
    (h : openMemstream k y true true = (y', some f)) : Holds ⟨f, y'⟩ .empty := by
  unfold openMemstream openMem at h
  rw [if_neg (by decide)] at h
  split at h
  · simp at h
  · dsimp only at h
    split at h
    · simp at h
    · obtain ⟨-, hf⟩ := Prod.mk.inj h
      cases hf
      exact ⟨rfl, rfl, rfl, ⟨rfl, rfl⟩, ⟨_, rfl, length_regrow _ _ _, rfl⟩, rfl, rfl, Nat.zero_le _,
        (by decide : 0 < 128 * 1), (by decide : 128 * 1 ≤ PTRDIFF_MAX)⟩

variable [Octet α]

/-- **`open_memstream` refines an array with a cursor**: a sequence of calls whose requests for
memory are granted returns what it is to return. After it `bufpos ≤ buflen ≤ bufsize`, and the
buffer holds the array that the calls have made, with the cursor at `bufpos`. If the last call is
`fflush` and the array is not empty, `*bufp` points to the array with a terminator behind it, and
`*sizep` is its length. -/
theorem memstream_refines_array {y y' : Sys α} {f : File α}
    (hopen : openMemstream k y true true = (y', some f)) (ops : List (MemOp α))
    (hfit : FitAll ops .empty) (hk : GrantAll k ops ⟨f, y'⟩) :
    ∃ t, Stream.each (MemOp.exec k) ops ⟨f, y'⟩ = some (t, ops.map MemOp.ret) ∧
      t.file.bufpos ≤ t.file.buflen ∧ t.file.buflen ≤ t.file.bufsize ∧
      t.file.pending = (applyAll ops .empty).cells ∧ t.file.bufpos = (applyAll ops .empty).pos ∧
      (ops.getLast? = some .fflush → (applyAll ops .empty).cells ≠ [] →
        Published t (applyAll ops .empty).cells) := by
  obtain ⟨t, ht, hholds, hpub⟩ := calls_hold (openMemstream_holds hopen) hfit hk
  obtain ⟨r, hbuf, -, hcells⟩ := hholds.buffer
  refine ⟨t, ht, ?_, ?_, ?_, hholds.bufpos, hpub⟩
  · rw [hholds.bufpos, hholds.buflen]
    exact Cursor.le _
  · rw [hholds.buflen]
    exact hholds.le
  · simp only [File.pending, hbuf, hholds.buflen, hcells]

/-- A system that has memory for every request. -/
def givesMemory : Kernel UInt8 :=
  { (Kernel.steady [] : Kernel UInt8) with alloc := fun i => some (4096 * (i + 1), fun _ => 0) }

/-- `fwrite("ab", 1, 2, f); fseek(f, 1, SEEK_SET); fputc('c', f); fflush(f)`. -/
def memOps : List (MemOp UInt8) := [.fwrite [97, 98] 1 2, .fseek 1 0, .fputc 99, .fflush]

theorem memstream_refines_array_overwrite :
    ∃ y f t, openMemstream givesMemory Sys.start true true = (y, some f) ∧
      Stream.each (MemOp.exec givesMemory) memOps ⟨f, y⟩ = some (t, [2, 0, 99, 0]) ∧
      t.file.pending = [97, 99] := by
  have hopen : ∃ y f, openMemstream givesMemory Sys.start true true = (y, some f) ∧
      GrantAll givesMemory memOps ⟨f, y⟩ := by
    refine ⟨_, _, rfl, ?_⟩
    decide
  obtain ⟨y, f, hopen, hk⟩ := hopen
  have hfit : FitAll memOps .empty := by
    refine ⟨⟨by decide, by decide⟩, ⟨by decide, 1, by decide, rfl⟩, trivial, trivial, trivial⟩
  obtain ⟨t, ht, -, -, hcells, -⟩ := memstream_refines_array hopen memOps hfit hk
  exact ⟨y, f, t, hopen, ht, hcells⟩

end Vlibc.Stdio
