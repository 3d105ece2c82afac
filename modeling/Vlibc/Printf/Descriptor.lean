import Vlibc.Printf.Truncation
import Vlibc.Stdio.Faults
import Vlibc.Stdio.Transparent

/-!
# `printf` on a descriptor

`vfdprintf` formats into 1024 bytes on the stack and then writes as many bytes as the whole
expansion has. From the 1024th on they are not the expansion's: one is the terminator, and behind it
comes whatever is on the stack. `fprintf` passes by the stream's buffer, so its output overtakes what
the buffer holds. Where neither matters (the buffer is empty, the expansion fits) the call is one
more move of the pipe.
-/

namespace Vlibc.Printf

open List

open Stdio

variable {k : Kernel UInt8} {s s' t : Stream UInt8} {y : Sys UInt8} {n : ℕ}

/-- `vfdprintf`. The memory from `buf` on is `stack`, of which 1024 bytes are the buffer. -/
def vfdprintf (k : Kernel UInt8) (fd : ℤ) (y : Sys UInt8) (stack : ℕ → UInt8)
    (fmt : List UInt8) (args : List Arg) : Option (Sys UInt8 × ℤ) :=
  match vsnprintf stack 1024 fmt args with
  | none => none
  | some (buf, len) =>
    if 0 < len ∧ 0 ≤ fd then
      let bytes := (List.range len.toNat).map buf
      match writeAll (k.print y.tick) bytes (y.next.accept bytes) with
      | none => none
      | some (y, true) => some (y, len)
      | some (y, false) => some (y, -1)
    else some (y, len)

/-- The memory branch of `vfprintf`. The first call of `vsnprintf` stores nothing. -/
def vfprintfMem (k : Kernel UInt8) (s : Stream UInt8) (stack : ℕ → UInt8) (fmt : List UInt8)
    (args : List Arg) : Option (Stream UInt8 × ℤ) :=
  match vsnprintf stack 0 fmt args with
  | none => none
  | some (_, len) =>
    if len < 0 then some (s, -1)
    else
      match k.alloc s.sys.tick with
      | none => some (⟨s.file, s.sys.next.fail ENOMEM⟩, -1)
      | some (addr, fresh) =>
        match vsnprintf fresh (len.toNat + 1) fmt args with
        | none => none
        | some (buf, _) =>
          let bytes := (List.range len.toNat).map buf
          match Stream.fwrite k ⟨s.file, s.sys.next⟩ bytes 1 len.toNat with
          | none => none
          | some (s, w) =>
            some (⟨s.file, { s.sys with freed := addr :: s.sys.freed }⟩, toInt w)

/-- `vfprintf`, and `fprintf`. -/
def vfprintf (k : Kernel UInt8) (s : Stream UInt8) (stack : ℕ → UInt8) (fmt : List UInt8)
    (args : List Arg) : Option (Stream UInt8 × ℤ) :=
  if s.file.isMem then vfprintfMem k s stack fmt args
  else (vfdprintf k s.file.fd s.sys stack fmt args).map fun (y, r) => (⟨s.file, y⟩, r)

/-- A call on a stream; one of `fprintf` comes with what the stack holds when it is made. -/
inductive Call
  | op (op : Op UInt8)
  | fprintf (fmt : List UInt8) (args : List Arg) (stack : ℕ → UInt8)

namespace Call

/-- The bytes that a call contributes. -/
def text : Call → List UInt8
  | op o => o.bytes
  | fprintf fmt args _ => (expansion fmt args).getD []

/-- The arguments of the call are what it needs: for `fprintf`, the format is well formed and the
arguments fit it. -/
def Fits : Call → Prop
  | op o => o.Fits
  | fprintf fmt args _ => (expansion fmt args).isSome

/-- What a call does. -/
def exec (k : Kernel UInt8) (s : Stream UInt8) : Call → Option (Stream UInt8 × ℤ)
  | op o => o.exec k s
  | fprintf fmt args stack => vfprintf k s stack fmt args

/-- An `fprintf` with something to print is made on an empty buffer, and prints less than 1024
bytes. -/
def Orderly (c : Call) (s : Stream UInt8) : Prop :=
  match c with
  | op _ => True
  | fprintf fmt args _ =>
    ∀ text, expansion fmt args = some text → text ≠ [] →
      s.file.buflen = 0 ∧ text.length < 1024

end Call

/-- Every call of a sequence is orderly in the state in which it is made. -/
def Orderly (k : Kernel UInt8) : List Call → Stream UInt8 → Prop
  | [], _ => True
  | c :: cs, s => c.Orderly s ∧ ∀ s' r, c.exec k s = some (s', r) → Orderly k cs s'

/-- A system that takes bytes, in the loop of `vfdprintf` too. -/
structure Takes (k : Kernel UInt8) (n : ℕ) : Prop extends k.Serves n where
  print : ∀ i, ∀ a ∈ k.print i, ¬ a.Hard
  prints : ∀ i, n ≤ (k.print i).countP Answer.Positive

variable {args : List Arg} {f fmt text : List UInt8}

theorem vfdprintf_writes {fd : ℤ} (stack : ℕ → UInt8) (hfd : 0 ≤ fd)
    (hsoft : ∀ a ∈ k.print y.tick, ¬ a.Hard)
    (hmany : text.length ≤ (k.print y.tick).countP Answer.Positive)
    (htext : expansion fmt args = some text) (hlen : (text.length : ℤ) ≤ INT_MAX) :
    ∃ buf y', Truncated stack 1024 text buf ∧
      vfdprintf k fd y stack fmt args = some (y', (text.length : ℤ)) ∧
      y'.accepted = y.accepted ++ (List.range text.length).map buf ∧
      y'.delivered = y.delivered ++ (List.range text.length).map buf := by
  obtain ⟨buf, hbuf, htrunc⟩ := vsnprintf_truncated stack 1024 htext
  rw [toInt_of_lt (by unfold INT_MAX at hlen; omega)] at hbuf
  refine ⟨buf, ?_⟩
  unfold vfdprintf
  simp only [hbuf, Int.toNat_natCast]
  split
  · have hroom : ((List.range text.length).map buf).length ≤
        (k.print y.tick).countP Answer.Positive := by simpa using hmany
    obtain ⟨y', hy'⟩ := writeAll_done (y := y.next.accept ((List.range text.length).map buf))
      hsoft hroom
    obtain ⟨m, hm, -⟩ := writeAll_wrote hy'
    refine ⟨y', htrunc, by rw [hy'], hm.accepted, ?_⟩
    rw [hm.delivered, hm.all rfl, take_length]
    rfl
  · next h =>
    -- an empty text: nothing is written
    have hnil : text.length = 0 := by omega
    exact ⟨y, htrunc, rfl, by simp [hnil], by simp [hnil]⟩

theorem vfdprintf_done {fd : ℤ} (stack : ℕ → UInt8) (hk : Takes k n) (hfd : 0 ≤ fd)
    (htext : expansion fmt args = some text) (hlen : text.length < 1024) (hn : text.length ≤ n) :
    ∃ y', vfdprintf k fd y stack fmt args = some (y', (text.length : ℤ)) ∧
      y'.accepted = y.accepted ++ text ∧ y'.delivered = y.delivered ++ text := by
  obtain ⟨buf, y', htrunc, hy', hacc, hdel⟩ := vfdprintf_writes stack hfd (hk.print y.tick)
    (hn.trans (hk.prints y.tick)) htext (by unfold INT_MAX; omega)
  rw [htrunc.read_of_fits (.inl hlen)] at hacc hdel
  exact ⟨y', hy', hacc, hdel⟩

theorem vfprintf_done {stack : ℕ → UInt8} (hk : Takes k n) (hf : s.file.Ready)
    (hfd : 0 ≤ s.file.fd) (htext : expansion fmt args = some text) (hn : text.length ≤ n)
    (hord : text ≠ [] → s.file.buflen = 0 ∧ text.length < 1024) :
    ∃ s' r, vfprintf k s stack fmt args = some (s', r) ∧ Moves k s s' ∧
      s'.sys.accepted = s.sys.accepted ++ text := by
  have hlen : text.length < 1024 := by
    by_cases h : text = []
    · simp [h]
    · exact (hord h).2
  obtain ⟨y', hy', hacc, hdel⟩ := vfdprintf_done (y := s.sys) stack hk hfd htext hlen hn
  refine ⟨⟨s.file, y'⟩, text.length, ?_, ?_, hacc⟩
  · simp [vfprintf, hf.notMem, hy']
  by_cases h : text = []
  · subst h
    exact Moves.of_eq hf rfl (by simpa using hacc) (by simpa using hdel)
  · have hpend : s.file.pending = [] := pending_eq_nil (hord h).1
    exact Moves.of_pass hf (SameSetup.refl _) hpend hpend hacc hdel

theorem Call.exec_done {c : Call} (hk : Takes k n) (hf : Served n s.file)
    (hfd : 0 ≤ s.file.fd) (hfit : c.Fits) (hn : c.text.length ≤ n) (hord : c.Orderly s) :
    ∃ s' r, c.exec k s = some (s', r) ∧ Moves k s s' ∧
      s'.sys.accepted = s.sys.accepted ++ c.text := by
  cases c with
  | op o =>
    obtain ⟨s', r, hs', hacc, -⟩ := Stdio.exec_done hk.toServes hf hfit hn
    exact ⟨s', r, hs', (exec_ran hf.ready hfit hs').toMoves, hacc⟩
  | fprintf fmt args stack =>
    obtain ⟨text, htext⟩ := Option.isSome_iff_exists.1 hfit
    have hctext : (Call.fprintf fmt args stack).text = text := by simp [Call.text, htext]
    rw [hctext] at hn ⊢
    exact vfprintf_done hk hf.ready hfd htext hn (hord text htext)

/-! ## A sequence of calls -/

theorem each_done {cs : List Call} (hk : Takes k n) (hf : Served n s.file)
    (hfd : 0 ≤ s.file.fd) (hfit : ∀ c ∈ cs, c.Fits) (hn : (cs.flatMap Call.text).length ≤ n)
    (hord : Orderly k cs s) :
    ∃ s' rets, Stream.each (Call.exec k) cs s = some (s', rets) ∧ Moves k s s' ∧
      s'.sys.accepted = s.sys.accepted ++ cs.flatMap Call.text := by
  induction cs generalizing s with
  | nil => exact ⟨s, [], rfl, Moves.refl hf.ready, by simp⟩
  | cons c cs ih =>
    rw [flatMap_cons, length_append] at hn
    obtain ⟨t, r, ht, hm, hacc⟩ :=
      Call.exec_done hk hf hfd (hfit c mem_cons_self) (by omega) hord.1
    obtain ⟨s', rets, hs', hm', hacc'⟩ := ih (hf.of_moves hm) (hm.same.fd ▸ hfd)
      (fun d hd => hfit d (mem_cons_of_mem _ hd)) (by omega) (hord.2 t r ht)
    refine ⟨s', r :: rets, by simp [Stream.each, ht, hs'], hm.trans hm', ?_⟩
    rw [hacc', hacc, flatMap_cons, append_assoc]

/-- **Call order is output order, for orderly calls**: calls of `fwrite`, `fputc`, `fputs` and
`fprintf` in any order, followed by `fflush`, deliver the outputs of the calls in the order of the
calls, if every `fprintf` that prints something is made on an empty buffer and prints less than
1024 bytes. -/
theorem orderly_calls_in_order (hs : Opened k s) (hcookie : s.file.isCookie = false)
    (hfd : 0 ≤ s.file.fd) (cs : List Call) (hfit : ∀ c ∈ cs, c.Fits)
    (hk : Takes k (s.file.bufsize + (cs.flatMap Call.text).length)) (hord : Orderly k cs s) :
    ∃ t rets t', Stream.each (Call.exec k) cs s = some (t, rets) ∧
      t.fflush k = some (t', 0) ∧ t'.sys.delivered = cs.flatMap Call.text := by
  have hfresh := hs.fresh
  have hserved : Served (s.file.bufsize + (cs.flatMap Call.text).length) s.file :=
    ⟨hfresh.ready, hcookie, by omega⟩
  obtain ⟨t, rets, ht, hm, hacc⟩ := each_done hk hserved hfd hfit (by omega) hord
  obtain ⟨t', ht', hacc', hlen⟩ := fflush_done hk.toServes (hserved.of_moves hm)
  have hreach := hm.reach.trans (fflush_ran hm.ready ht').reach
  have hexact := hfresh.exact_of_reach hk.toWrites.failsFirst hreach
  refine ⟨t, rets, t', ht, ht', ?_⟩
  rw [delivered_of_exact hexact hlen, hacc', hacc, hfresh.accepted, nil_append]

/-- `fprintf(f, "%d", 7); fputs("b", f)`. -/
def orderlyCalls : List Call :=
  [.fprintf ['%'.toUInt8, 'd'.toUInt8, 0] [.int 7] fun _ => 0, .op (.fputs [98])]

/-- One byte at a time. -/
def bytewise : Kernel UInt8 := Kernel.steady oneByOne

theorem orderly_calls_in_order_first :
    ∃ t rets t', Stream.each (Call.exec bytewise) orderlyCalls (fullStream bytewise)
        = some (t, rets) ∧
      t.fflush bytewise = some (t', 0) ∧ t'.sys.delivered = orderlyCalls.flatMap Call.text := by
  have hexp : expansion ['%'.toUInt8, 'd'.toUInt8, 0] [.int 7] = some [55] := by decide
  have hsoft : ∀ a ∈ oneByOne, ¬ a.Hard := by decide
  have hpos : ∀ a ∈ oneByOne, a.Positive := by decide
  have htext : orderlyCalls.flatMap Call.text = [55, 98] := by decide
  have hmany : (fullStream bytewise).file.bufsize + (orderlyCalls.flatMap Call.text).length
      ≤ oneByOne.countP Answer.Positive := by
    rw [htext]
    decide
  apply orderly_calls_in_order (fullStream_opened _) rfl (by decide)
  · refine forall_mem_cons.2 ⟨?_, forall_mem_singleton.2 ?_⟩
    · change (expansion _ _).isSome = true
      rw [hexp]
      rfl
    · exact (by decide : [(98 : UInt8)].length < 2 ^ 64)
  · exact ⟨⟨⟨fun _ => hsoft, fun _ => hmany, fun _ => hpos, fun _ => hmany⟩, fun _ => rfl,
      fun _ => rfl⟩, fun _ => hsoft, fun _ => hmany⟩
  · refine ⟨?_, fun _ _ _ => ⟨trivial, fun _ _ _ => trivial⟩⟩
    intro text htext _
    rw [hexp] at htext
    cases htext
    exact ⟨rfl, by decide⟩

/-- `fputs("a", f); fprintf(f, "b"); fflush(f)` on a fully buffered stream delivers `ba`. -/
theorem fprintf_overtakes_buffer :
    ((Stream.each (Call.exec (Kernel.steady [.took 4]))
        [.op (.fputs [97]), .fprintf [98, 0] [] fun _ => 0]
        (fullStream (Kernel.steady [.took 4]))).bind fun (t, rets) =>
      (t.fflush (Kernel.steady [.took 4])).map fun (t', r) => (rets, r, t'.sys.delivered))
    = some ([1, 1], 0, [98, 97]) := by
  decide

/-! ## All three functions -/

/-- `vdprintf`, and `dprintf`. -/
def vdprintf (k : Kernel UInt8) (fd : ℤ) (y : Sys UInt8) (stack : ℕ → UInt8) (fmt : List UInt8)
    (args : List Arg) : Option (Sys UInt8 × ℤ) :=
  vfdprintf k fd y stack fmt args

/-- `vprintf`, and `printf`. -/
def vprintf (k : Kernel UInt8) (y : Sys UInt8) (stack : ℕ → UInt8) (fmt : List UInt8)
    (args : List Arg) : Option (Sys UInt8 × ℤ) :=
  vfdprintf k 1 y stack fmt args

/-- The functions that print to a descriptor. -/
inductive Printer
  | printf
  | dprintf (fd : ℤ)
  | fprintf (f : File UInt8)

namespace Printer

/-- What one of them does. -/
def run (k : Kernel UInt8) (y : Sys UInt8) (stack : ℕ → UInt8) (fmt : List UInt8)
    (args : List Arg) : Printer → Option (Sys UInt8 × ℤ)
  | printf => vprintf k y stack fmt args
  | dprintf fd => vdprintf k fd y stack fmt args
  | fprintf f => (vfprintf k ⟨f, y⟩ stack fmt args).map fun (s, r) => (s.sys, r)

/-- It prints to a descriptor. -/
def OnDescriptor : Printer → Prop
  | printf => True
  | dprintf fd => 0 ≤ fd
  | fprintf f => f.isMem = false ∧ 0 ≤ f.fd

theorem run_eq {p : Printer} (h : p.OnDescriptor) :
    ∃ fd, 0 ≤ fd ∧ ∀ stack, p.run k y stack fmt args = vfdprintf k fd y stack fmt args := by
  cases p with
  | printf => exact ⟨1, by decide, fun _ => rfl⟩
  | dprintf fd => exact ⟨fd, h, fun _ => rfl⟩
  | fprintf f =>
    refine ⟨f.fd, h.2, fun stack => ?_⟩
    simp only [run, vfprintf, h.1, Bool.false_eq_true, if_false, Option.map_map]
    cases vfdprintf k f.fd y stack fmt args <;> rfl

end Printer

/-! ## What is written -/

theorem Truncated.fits_of_read {str buf : ℕ → UInt8} {size : ℕ} (h : Truncated str size text buf)
    (hsize : 0 < size) (hstr : ∀ i (hi : i < text.length), str i ≠ text[i])
    (hread : (List.range text.length).map buf = text) :
    text.length < size ∨ text.length = size ∧ text.getLast? = some 0 := by
  have hbuf : ∀ i (hi : i < text.length), buf i = text[i] := by
    intro i hi
    have := congrArg (·[i]?) hread
    simpa [hi] using this
  rcases lt_trichotomy text.length size with hlt | heq | hgt
  · exact .inl hlt
  · -- the last byte is the terminator
    have hend := h.ended hsize
    rw [heq, min_eq_right (Nat.sub_le size 1), hbuf (size - 1) (by omega)] at hend
    refine .inr ⟨heq, ?_⟩
    rw [getLast?_eq_getElem?, heq, getElem?_eq_getElem (by omega)]
    exact congrArg some hend
  · -- the first byte behind the buffer is not the text's
    exact absurd ((h.outside size (le_refl _)).symm.trans (hbuf size hgt)) (hstr size hgt)

theorem exists_unlike (text : List UInt8) :
    ∃ str : ℕ → UInt8, ∀ i (h : i < text.length), str i ≠ text[i] := by
  refine ⟨fun i => text[i]?.getD 0 + 1, fun i h heq => ?_⟩
  simp [h] at heq

/-- **What is printed is the full expansion, whatever is on the stack, if and only if it is shorter
than 1024 bytes**, or ends with a zero in the place of the terminator. The system takes the bytes:
no call of `write` fails but with `EINTR` or `EAGAIN`, and enough of them return positive counts. -/
theorem printed_in_full_iff {p : Printer} (hp : p.OnDescriptor) (hz : 0 ∉ f) (hfit : WidthsFit f)
    (htext : fullExpansion f args = some text) (hlen : (text.length : ℤ) ≤ INT_MAX)
    (hsoft : ∀ a ∈ k.print y.tick, ¬ a.Hard)
    (hmany : text.length ≤ (k.print y.tick).countP Answer.Positive) :
    (∀ stack, ∃ y', p.run k y stack (f ++ [0]) args = some (y', (text.length : ℤ)) ∧
        y'.delivered = y.delivered ++ text) ↔
      text.length < 1024 ∨ text.length = 1024 ∧ text.getLast? = some 0 := by
  obtain ⟨fd, hfd, hrun⟩ : ∃ fd : ℤ, 0 ≤ fd ∧ ∀ stack,
      p.run k y stack (f ++ [0]) args = vfdprintf k fd y stack (f ++ [0]) args := Printer.run_eq hp
  have hexp := expansion_of_full hz hfit htext hlen
  constructor
  · intro h
    obtain ⟨stack, hstack⟩ := exists_unlike text
    obtain ⟨y', hy', hdel⟩ := h stack
    obtain ⟨buf, y'', htrunc, hy'', -, hdel'⟩ :=
      vfdprintf_writes stack hfd hsoft hmany hexp hlen
    rw [hrun, hy''] at hy'
    cases hy'
    exact htrunc.fits_of_read (by decide) hstack (append_cancel_left (hdel'.symm.trans hdel))
  · intro h stack
    obtain ⟨buf, y', htrunc, hy', -, hdel⟩ :=
      vfdprintf_writes stack hfd hsoft hmany hexp hlen
    exact ⟨y', (hrun stack).trans hy', by rw [hdel, htrunc.read_of_fits h]⟩

/-- A system that takes one byte at a time. -/
def takesBytes (n : ℕ) : Kernel UInt8 := Kernel.steady (List.replicate n (.took 1))

theorem takesBytes_soft (n i : ℕ) : ∀ a ∈ (takesBytes n).print i, ¬ a.Hard := by
  intro a ha
  rw [eq_of_mem_replicate ha]
  exact id

theorem takesBytes_many (n i : ℕ) : n ≤ ((takesBytes n).print i).countP Answer.Positive := by
  change n ≤ (List.replicate n (Answer.took 1)).countP Answer.Positive
  rw [countP_replicate]
  exact le_refl n

/-- `printf("%d", 7)`. -/
theorem printed_in_full_iff_short :
    ∃ y, vprintf (takesBytes 1) Sys.start (fun _ => 88) ['%'.toUInt8, 'd'.toUInt8, 0] [.int 7] =
      some (y, 1) ∧ y.delivered = [55] :=
  (printed_in_full_iff (p := .printf) trivial (by decide) (by decide +kernel)
    (show fullExpansion ['%'.toUInt8, 'd'.toUInt8] [.int 7] = some [55] by decide +kernel)
    (by decide) (takesBytes_soft 1 _) (takesBytes_many 1 _)).2 (.inl (by decide)) fun _ => 88

/-- The format `%1100d`, whose text is longer than the buffer. -/
def wideFormat : List UInt8 := ['%', '1', '1', '0', '0', 'd'].map Char.toUInt8

/-- `dprintf(1, "%1100d", 7)`: the 1024th byte that is written is a zero and not a blank, and the
next is from the stack. -/
theorem dprintf_writes_stack :
    fullExpansion wideFormat [.int 7] = some (List.replicate 1099 32 ++ [55]) ∧
    ∃ y, vdprintf (takesBytes 1100) 1 Sys.start (fun _ => 88) (wideFormat ++ [0]) [.int 7] =
        some (y, 1100) ∧ y.delivered[1023]? = some 0 ∧ y.delivered[1024]? = some 88 := by
  have htext : fullExpansion wideFormat [.int 7] = some (List.replicate 1099 32 ++ [55]) := by
    decide +kernel
  have hlen : (List.replicate 1099 (32 : UInt8) ++ [55]).length = 1100 := by
    rw [length_append, length_replicate]
    rfl
  have hmax : ((List.replicate 1099 (32 : UInt8) ++ [55]).length : ℤ) ≤ INT_MAX := by
    rw [hlen]
    decide
  obtain ⟨buf, y, htrunc, hy, -, hdel⟩ := vfdprintf_writes (k := takesBytes 1100)
    (y := Sys.start) (fun _ => 88) (show (0 : ℤ) ≤ 1 by decide) (takesBytes_soft _ _)
    (by rw [hlen]; exact takesBytes_many 1100 _)
    (expansion_of_full (by decide) (by decide +kernel) htext hmax) hmax
  rw [hlen] at hy hdel
  have hbyte : ∀ i < 1100, y.delivered[i]? = some (buf i) := by
    intro i hi
    rw [hdel, show (Sys.start : Sys UInt8).delivered = [] from rfl, nil_append,
      getElem?_map, getElem?_range hi, Option.map_some]
  have hend := htrunc.ended (by decide)
  rw [hlen] at hend
  refine ⟨htext, y, hy, ?_, ?_⟩
  · rw [hbyte 1023 (by decide)]
    exact congrArg some hend
  · rw [hbyte 1024 (by decide), htrunc.outside 1024 (le_refl _)]

end Vlibc.Printf
