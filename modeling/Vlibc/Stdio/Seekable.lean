import Vlibc.Stdio.Transparent

/-!
# Output to a file with a position

Bytes that wait in a buffer belong to the position the file had when the first of them came. The
code keeps to that by flushing before every `lseek`, so a stream on a regular file behaves as one
that writes at once:

* `Delivers`: whatever reaches the descriptor is written to the file, in order.
* `Stream.view`: the file with the pending bytes written to it. Output extends the view, and the
  functions that read or move the position find an empty buffer, hence the view in the file.
-/

namespace Vlibc.Stdio

open List Option Stdio.Stream

open Pipe (Reach)

variable {α : Type*} [Octet α] {k k' : Kernel α} {s s' t : Stream α} {y y' z : Sys α} {n : ℕ}

/-! ## What reaches the descriptor is written -/

/-- The bytes that have reached the descriptor meanwhile were written to the file. -/
def Delivers (y y' : Sys α) : Prop :=
  ∃ xs, y'.delivered = y.delivered ++ xs ∧ y'.disk = y.disk.write Octet.nul xs

theorem Delivers.of_eq (hdel : y'.delivered = y.delivered) (hdisk : y'.disk = y.disk) :
    Delivers y y' :=
  ⟨[], by rw [hdel, append_nil], by rw [hdisk, Tape.write_nil]⟩

theorem Delivers.refl (y : Sys α) : Delivers y y := .of_eq rfl rfl

theorem Delivers.trans (h : Delivers y y') (h' : Delivers y' z) : Delivers y z := by
  obtain ⟨xs, hdel, hdisk⟩ := h
  obtain ⟨ys, hdel', hdisk'⟩ := h'
  refine ⟨xs ++ ys, ?_, ?_⟩
  · rw [hdel', hdel, append_assoc]
  · rw [hdisk', hdisk, Tape.write_write]

theorem Delivers.next (y : Sys α) : Delivers y y.next := .of_eq rfl rfl

theorem writeAll_delivers {as : List Answer} {bs : List α} {ok : Bool}
    (h : writeAll as bs y = some (y', ok)) : Delivers y y' := by
  obtain ⟨n, hn, hdisk⟩ := writeAll_wrote h
  exact ⟨bs.take n, hn.delivered, hdisk⟩

variable {data rest : List α}

theorem writeDirect_delivers {as : List Answer}
    (h : writeDirect as data y = some (y', rest)) : Delivers y y' := by
  obtain ⟨xs, -, -, hdel, hdisk⟩ := writeDirect_took h
  exact ⟨xs, hdel, hdisk⟩

theorem growBuf_delivers (s : Stream α) (m : ℕ) : Delivers s.sys (s.growBuf k m).1.sys := by
  unfold growBuf
  split <;> exact .of_eq rfl rfl

theorem flushMem_delivers (s : Stream α) : Delivers s.sys (s.flushMem k).1.sys := by
  unfold flushMem
  dsimp only
  have hgrow := growBuf_delivers (k := k) s ((s.file.buflen + s.file.unit) % 2 ^ 64)
  have hpublish : ∀ t : Stream α, Delivers t.sys t.publish.sys := fun _ => .of_eq rfl rfl
  split
  · split
    · next heq => rwa [heq] at hgrow
    · next heq =>
      rw [heq] at hgrow
      exact hgrow.trans (hpublish _)
  · exact hpublish s

theorem flushBuffer_delivers {r : ℤ} (h : s.flushBuffer k = some (s', r)) :
    Delivers s.sys s'.sys := by
  unfold flushBuffer at h
  split at h
  · cases h
    exact .refl _
  split at h
  · cases h
    exact .refl _
  split at h
  · rw [← congrArg (fun p => p.1.sys) (some.inj h)]
    exact flushMem_delivers s
  split at h
  · cases h
  split at h
  · cases h
  · next y hw =>
    rw [← congrArg (fun p => p.1.sys) (some.inj h)]
    exact (Delivers.next _).trans (writeAll_delivers hw)
  · next y hw =>
    rw [← congrArg (fun p => p.1.sys) (some.inj h)]
    exact (Delivers.next _).trans (writeAll_delivers hw)

theorem flushIf_delivers {c : Prop} [Decidable c] {r : ℤ} (h : s.flushIf k c = some (s', r)) :
    Delivers s.sys s'.sys := by
  unfold flushIf at h
  split at h
  · exact flushBuffer_delivers h
  · cases h
    exact .refl _

theorem rounds_delivers (s : Stream α) : Rounds k fun t _ => Delivers s.sys t.sys where
  flush h hpre := h.trans (flushIf_delivers hpre)
  round h hpre _ _ hpost := by
    have hpush : ∀ (t : Stream α) xs, Delivers t.sys (t.push xs).sys := fun _ _ => .of_eq rfl rfl
    exact ((h.trans (flushIf_delivers hpre)).trans (hpush _ _)).trans (flushIf_delivers hpost)

theorem fwriteDirect_delivers
    (h : s.fwriteDirect k data = some (s', rest)) : Delivers s.sys s'.sys := by
  unfold fwriteDirect at h
  split at h
  · cases h
  · next y hw =>
    cases h
    exact (Delivers.next _).trans (writeDirect_delivers hw)
  · next y b bs hw =>
    cases h
    exact (Delivers.next _).trans (writeDirect_delivers hw)

theorem fwriteBytes_delivers (hf : Served n s.file)
    (h : s.fwriteBytes k data = some (s', rest)) : Delivers s.sys s'.sys := by
  unfold fwriteBytes at h
  rw [if_neg (by simp [hf.fd]), if_neg (by simp [hf.ready.notMem])] at h
  split at h
  · split at h
    · exact (rounds_delivers s).fwriteLine (.refl _) h
    · exact (rounds_delivers s).fwriteFull (.refl _) h
  · exact fwriteDirect_delivers h

theorem fwrite_delivers {ptr : List α} {size nmemb w : ℕ} (hf : Served n s.file)
    (h : s.fwrite k ptr size nmemb = some (s', w)) : Delivers s.sys s'.sys := by
  unfold fwrite at h
  split at h
  · cases h
    exact .refl _
  dsimp only at h
  split at h
  · cases h
  next t rest hb =>
  cases h
  exact fwriteBytes_delivers hf hb

/-- The file, with the pending bytes written to it. -/
def Stream.view (s : Stream α) : Tape α := s.sys.disk.write Octet.nul s.file.pending

theorem view_of_accepted {xs : List α} (hd : Delivers s.sys s'.sys) (hx : s.pipe.Exact)
    (hx' : s'.pipe.Exact) (hacc : s'.sys.accepted = s.sys.accepted ++ xs) :
    s'.view = s.view.write Octet.nul xs := by
  obtain ⟨ys, hdel, hdisk⟩ := hd
  change s.sys.accepted = s.sys.delivered ++ s.file.pending at hx
  change s'.sys.accepted = s'.sys.delivered ++ s'.file.pending at hx'
  have hbytes : ys ++ s'.file.pending = s.file.pending ++ xs := by
    refine append_cancel_left (?_ : s.sys.delivered ++ _ = s.sys.delivered ++ _)
    rw [← append_assoc, ← append_assoc, ← hdel, ← hx, ← hx', hacc]
  unfold view
  rw [hdisk, Tape.write_write, Tape.write_write, hbytes]

theorem view_of_empty (h : s.file.buflen = 0) : s.view = s.sys.disk := by
  unfold view
  rw [pending_eq_nil h, Tape.write_nil]

/-- Where `lseek` leaves a file, unless it fails. -/
def moved (t : Tape α) (offset whence : ℤ) : Option (Tape α) :=
  match seekTarget t.pos t.cells.length offset whence with
  | none => none
  | some p => if p < 0 ∨ OFF_MAX < p then none else some { t with pos := p.toNat }

/-- A call on a stream that is positioned. -/
inductive SeekOp (α : Type*)
  | call (op : Op α)
  | fseek (offset whence : ℤ)
  | ftell

namespace SeekOp

/-- The bytes a call passes on. -/
def bytes : SeekOp α → List α
  | call op => op.bytes
  | _ => []

/-- The memory a call's arguments describe exists. -/
def Fits : SeekOp α → Prop
  | call op => op.Fits
  | _ => True

/-- Whether the call moves the position or asks for it. -/
def seeks : SeekOp α → Bool
  | call _ => false
  | _ => true

/-- What a call does. -/
def exec (k : Kernel α) (s : Stream α) : SeekOp α → Option (Stream α × ℤ)
  | call op => op.exec k s
  | fseek offset whence => s.fseek k offset whence
  | ftell => s.ftell k

/-- The call on the file itself: a write at the position, a move of the position, or a question for
it, with the answer to the last two. -/
def onCursor (t : Tape α) : SeekOp α → Tape α × Option ℤ
  | call op => (t.write Octet.nul op.bytes, none)
  | fseek offset whence =>
    match moved t offset whence with
    | none => (t, some (-1))
    | some t' => (t', some 0)
  | ftell => (t, some ((moved t 0 1).elim (-1) fun t' => t'.pos))

end SeekOp

/-- The calls on the file itself, and the answers about the position. -/
def onCursor : List (SeekOp α) → Tape α → Tape α × List ℤ
  | [], t => (t, [])
  | op :: ops, t =>
    let r := onCursor ops (op.onCursor t).1
    (r.1, (op.onCursor t).2.toList ++ r.2)

/-- What the calls returned that move the position or ask for it. -/
def positions (ops : List (SeekOp α)) (rets : List ℤ) : List ℤ :=
  ((ops.zip rets).filter fun p => p.1.seeks).map Prod.snd

/-- A sequence of calls, and `fclose`. -/
def Stream.seekSession (k : Kernel α) (ops : List (SeekOp α)) (s : Stream α) :
    Option (Sys α × List ℤ × ℤ) :=
  match Stream.each (fun s op => op.exec k s) ops s with
  | none => none
  | some (s, rets) =>
    match s.fclose k with
    | none => none
    | some (y, ret) => some (y, rets, ret)

/-! ## The stream follows the file -/

variable {t : Tape α}

/-- The stream stands for the file `t`. -/
structure Follows (n : ℕ) (s : Stream α) (t : Tape α) : Prop where
  served : Served n s.file
  exact : s.pipe.Exact
  view : s.view = t

theorem Follows.accept {xs : List α} (h : Follows n s t) (hk : k.Writes n)
    (hm : Moves k s s') (hd : Delivers s.sys s'.sys)
    (hacc : s'.sys.accepted = s.sys.accepted ++ xs) : Follows n s' (t.write Octet.nul xs) := by
  have hexact : s'.pipe.Exact := (hm.reach.mono fun _ he => he hk.failsFirst).exact h.exact
  refine ⟨h.served.of_moves hm, hexact, ?_⟩
  rw [view_of_accepted hd h.exact hexact hacc, h.view]

theorem Follows.flush (h : Follows n s t) (hk : k.Writes n) :
    ∃ s', s.flushBuffer k = some (s', 0) ∧ Follows n s' t ∧ s'.file.buflen = 0 ∧
      s'.sys.disk = t := by
  obtain ⟨s', hs'⟩ := flushBuffer_done hk h.served
  have hfl := flushBuffer_flushed h.served.ready hs'
  have hlen : s'.file.buflen = 0 := (hfl.ret.resolve_right (by simp)).2
  have hf : Follows n s' (t.write Octet.nul []) :=
    h.accept hk hfl.toMoves (flushBuffer_delivers hs') (by rw [hfl.accepted, append_nil])
  rw [Tape.write_nil] at hf
  exact ⟨s', hs', hf, hlen, (view_of_empty hlen).symm.trans hf.view⟩

theorem Follows.reposition {f : File α} (h : Follows n s t) (hf : Served n f)
    (hlen : s.file.buflen = 0) (hlen' : f.buflen = 0)
    (hacc : y.accepted = s.sys.accepted) (hdel : y.delivered = s.sys.delivered) :
    Follows n ⟨f, y⟩ y.disk := by
  refine ⟨hf, ?_, view_of_empty hlen'⟩
  change y.accepted = y.delivered ++ f.pending
  have hx : s.sys.accepted = s.sys.delivered ++ s.file.pending := h.exact
  rw [pending_eq_nil hlen] at hx
  rw [hacc, hdel, pending_eq_nil hlen', hx]

theorem Follows.failed (h : Follows n s t) (hlen : s.file.buflen = 0) (hdisk : s.sys.disk = t) :
    Follows n ⟨s.file.setError, s.sys.next.fail EINVAL⟩ t := by
  have hserved : Served n s.file.setError := ⟨h.served.ready.setError, h.served.fd, h.served.le⟩
  have := h.reposition (y := s.sys.next.fail EINVAL) hserved hlen hlen rfl rfl
  rwa [show (s.sys.next.fail EINVAL).disk = t from hdisk] at this

omit [Octet α] in
theorem lseek_moved (hk : ∀ i, k.lseek i = none) (y : Sys α) (offset whence : ℤ) :
    y.lseek k offset whence =
      match moved y.disk offset whence with
      | none => (y.next.fail EINVAL, none)
      | some t => ({ y.next with disk := t }, some t.pos) := by
  unfold Sys.lseek moved
  rw [hk]
  cases seekTarget y.disk.pos y.disk.cells.length offset whence with
  | none => rfl
  | some p => by_cases hp : p < 0 ∨ OFF_MAX < p <;> simp only [hp, if_true, if_false]

omit [Octet α] in
theorem moved_here {t' : Tape α} (h : moved t 0 1 = some t') : t' = t := by
  simp only [moved, seekTarget] at h
  split at h
  · cases h
  · next p hp =>
    cases hp
    split at h
    · cases h
    · simpa using h.symm

theorem fseek_follows (h : Follows n s t) (hk : k.Writes n) (hseek : ∀ i, k.lseek i = none)
    (offset whence : ℤ) :
    ∃ s' r, s.fseek k offset whence = some (s', r) ∧
      Follows n s' ((SeekOp.fseek offset whence).onCursor t).1 ∧
      ((SeekOp.fseek offset whence).onCursor t).2 = some r := by
  obtain ⟨u, hu, hf, hlen, hdisk⟩ := h.flush hk
  unfold fseek
  simp only [hu, hf.served.ready.notMem, hf.served.fd, lseek_moved hseek, hdisk, SeekOp.onCursor]
  have hready := hf.served.ready
  cases moved t offset whence with
  | none => exact ⟨_, _, rfl, hf.failed hlen hdisk, rfl⟩
  | some t' =>
    refine ⟨_, _, rfl, ?_, rfl⟩
    have hserved : Served n u.file.sought :=
      ⟨⟨hready.notMem, hready.size, fun _ => Nat.zero_le _, fun _ => rfl⟩, hf.served.fd,
        hf.served.le⟩
    exact hf.reposition (y := { u.sys.next with disk := t' }) hserved hlen rfl rfl rfl

theorem ftell_follows (h : Follows n s t) (hk : k.Writes n) (hseek : ∀ i, k.lseek i = none) :
    ∃ s' r, s.ftell k = some (s', r) ∧ Follows n s' (SeekOp.ftell.onCursor t).1 ∧
      (SeekOp.ftell.onCursor t).2 = some r := by
  obtain ⟨u, hu, hf, hlen, hdisk⟩ := h.flush hk
  unfold ftell
  simp only [hu, hf.served.ready.notMem, hf.served.fd, lseek_moved hseek, hdisk, SeekOp.onCursor]
  cases hmoved : moved t 0 1 with
  | none => exact ⟨_, _, rfl, hf.failed hlen hdisk, rfl⟩
  | some t' =>
    refine ⟨_, _, rfl, ?_, rfl⟩
    obtain rfl := moved_here hmoved
    exact hf.reposition (y := { u.sys.next with disk := t' }) hf.served hlen hlen rfl rfl

theorem fflush_follows (h : Follows n s t) (hk : k.Writes n) :
    ∃ s' r, s.fflush k = some (s', r) ∧ Follows n s' t := by
  obtain ⟨u, hu, hf, -, -⟩ := h.flush hk
  unfold fflush
  simp only [hu, hf.served.ready.notMem]
  cases k.fsync u.sys.tick with
  | none | some e => exact ⟨_, _, rfl, hf.served, hf.exact, hf.view⟩

theorem fwrite_follows (h : Follows n s t) (hk : k.Writes n) (ptr : List α) (size nmemb : ℕ)
    (hfit : ptr.length = size * nmemb) (hlt : ptr.length < 2 ^ 64) (hn : ptr.length ≤ n) :
    ∃ s' w, s.fwrite k ptr size nmemb = some (s', w) ∧
      Follows n s' (t.write Octet.nul ptr) := by
  obtain ⟨s', hs', hacc⟩ := fwrite_done hk h.served ptr size nmemb hfit hlt hn
  obtain ⟨rest, htook, -⟩ := fwrite_took h.served.ready hfit hlt hs'
  exact ⟨s', _, hs', h.accept hk htook.toMoves (fwrite_delivers h.served hs') hacc⟩

/-- **One call**: it returns, the stream then stands for what the call makes of the file, and an
answer about the position is the one the file gives. -/
theorem SeekOp.exec_follows {op : SeekOp α} (h : Follows n s t) (hk : k.Writes n)
    (hseek : ∀ i, k.lseek i = none) (hfit : op.Fits) (hn : op.bytes.length ≤ n) :
    ∃ s' r, op.exec k s = some (s', r) ∧ Follows n s' (op.onCursor t).1 ∧
      (op.onCursor t).2 = if op.seeks then some r else none := by
  cases op with
  | fseek offset whence => exact fseek_follows h hk hseek offset whence
  | ftell => exact ftell_follows h hk hseek
  | call op =>
    suffices hcall : ∃ s' r, op.exec k s = some (s', r) ∧
        Follows n s' (t.write Octet.nul op.bytes) by
      obtain ⟨s', r, hs', hf⟩ := hcall
      exact ⟨s', r, hs', hf, rfl⟩
    cases op with
    | fwrite ptr size nmemb =>
      obtain ⟨s', w, hs', hf⟩ := fwrite_follows h hk ptr size nmemb hfit.1 hfit.2 hn
      exact ⟨s', w, by simp [Op.exec, hs'], hf⟩
    | fputc ch =>
      obtain ⟨s', w, hs', hf⟩ := fwrite_follows h hk [ch] 1 1 rfl (by simp) hn
      refine ⟨s', if w ≠ 1 then -1 else (Octet.byte ch).toNat, ?_, hf⟩
      simp only [Op.exec, fputc, hs']
    | fputs str =>
      obtain ⟨s', w, hs', hf⟩ :=
        fwrite_follows h hk str 1 str.length (one_mul _).symm hfit hn
      refine ⟨s', if w = str.length then toInt w else -1, ?_, hf⟩
      simp only [Op.exec, fputs, hs']
    | fflush =>
      obtain ⟨s', r, hs', hf⟩ := fflush_follows h hk
      exact ⟨s', r, hs', by rwa [Op.bytes, Tape.write_nil]⟩

variable {ops : List (SeekOp α)}

theorem each_follows (h : Follows n s t) (hk : k.Writes n)
    (hseek : ∀ i, k.lseek i = none) (hfit : ∀ op ∈ ops, op.Fits)
    (hn : ∀ op ∈ ops, op.bytes.length ≤ n) :
    ∃ s' rets, Stream.each (fun s op => op.exec k s) ops s = some (s', rets) ∧
      Follows n s' (onCursor ops t).1 ∧ positions ops rets = (onCursor ops t).2 := by
  induction ops generalizing s t with
  | nil => exact ⟨s, [], rfl, h, rfl⟩
  | cons op ops ih =>
    obtain ⟨hfit₁, hfit₂⟩ := forall_mem_cons.1 hfit
    obtain ⟨hn₁, hn₂⟩ := forall_mem_cons.1 hn
    obtain ⟨u, r, hu, hf, hr⟩ := SeekOp.exec_follows h hk hseek hfit₁ hn₁
    obtain ⟨s', rets, hs', hf', hrets⟩ := ih hf hfit₂ hn₂
    refine ⟨s', r :: rets, by simp only [each, hu, hs'], hf', ?_⟩
    unfold positions at hrets ⊢
    simp only [onCursor, ← hrets, hr]
    cases hop : op.seeks <;> simp [hop]

omit [Octet α] in
theorem freeBuf_disk (f : File α) (owned : Bool) (y : Sys α) :
    (f.freeBuf owned y).disk = y.disk := by
  unfold File.freeBuf
  split <;> [split; skip] <;> rfl

omit [Octet α] in
theorem closeFile_disk (s : Stream α) : (s.closeFile k).1.disk = s.sys.disk := by
  unfold closeFile
  split <;> split <;> first | rfl | (split <;> rfl)

theorem seekSession_follows (h : Follows n s t) (hk : k.Writes n)
    (hseek : ∀ i, k.lseek i = none) (hfit : ∀ op ∈ ops, op.Fits)
    (hn : ∀ op ∈ ops, op.bytes.length ≤ n) :
    ∃ y rets ret, s.seekSession k ops = some (y, rets, ret) ∧
      y.disk = (onCursor ops t).1 ∧ positions ops rets = (onCursor ops t).2 := by
  obtain ⟨u, rets, hu, hf, hrets⟩ := each_follows h hk hseek hfit hn
  obtain ⟨v, hv, -, -, hdisk⟩ := hf.flush hk
  refine ⟨v.file.freeBuf v.file.owns (v.closeFile k).1, rets, (v.closeFile k).2, ?_, ?_, hrets⟩
  · simp only [seekSession, hu, fclose, hv]
  · rw [freeBuf_disk, closeFile_disk, hdisk]

/-- The stream on a file with a content and a position. -/
def Stream.on (s : Stream α) (t : Tape α) : Stream α := ⟨s.file, { s.sys with disk := t }⟩

theorem Opened.follows (h : Opened k s) (hfd : s.file.isCookie = false)
    (hn : s.file.bufsize ≤ n) (t : Tape α) : Follows n (s.on t) t := by
  have hfresh := h.fresh
  refine ⟨⟨hfresh.ready, hfd, hn⟩, ?_, view_of_empty hfresh.empty⟩
  change s.pipe.Exact
  rw [hfresh.pipe]
  rfl

/-- **Buffering does not show on a file.** On a file with any content and position, a stream with
any buffering and one without return from every call, give the same answers to `fseek` and `ftell`,
and leave the same content: the answers and the content of writes at one position of the file. -/
theorem buffering_unobservable (hs : Opened k s) (hfd : s.file.isCookie = false) (t : Tape α)
    (fd : ℤ) (ops : List (SeekOp α)) (hfit : ∀ op ∈ ops, op.Fits)
    (hn : ∀ op ∈ ops, op.bytes.length ≤ n) (hk : k.Writes (s.file.bufsize + n))
    (hk' : k'.Writes n) (hseek : ∀ i, k.lseek i = none) (hseek' : ∀ i, k'.lseek i = none) :
    ∃ y rets ret y' rets' ret',
      (s.on t).seekSession k ops = some (y, rets, ret) ∧
      ((⟨File.fopen fd, Sys.start⟩ : Stream α).on t).seekSession k' ops
        = some (y', rets', ret') ∧
      positions ops rets = positions ops rets' ∧ y.disk.cells = y'.disk.cells ∧
      positions ops rets = (onCursor ops t).2 ∧ y.disk.cells = (onCursor ops t).1.cells := by
  obtain ⟨y, rets, ret, hy, hdisk, hpos⟩ := seekSession_follows
    (hs.follows hfd (Nat.le_add_right _ _) t) hk hseek hfit
    (fun op hop => (hn op hop).trans (Nat.le_add_left _ _))
  obtain ⟨y', rets', ret', hy', hdisk', hpos'⟩ := seekSession_follows
    ((Opened.fopen (k := k') fd).follows rfl (Nat.zero_le n) t) hk' hseek' hfit hn
  exact ⟨y, rets, ret, y', rets', ret', hy, hy', hpos.trans hpos'.symm, by rw [hdisk, hdisk'],
    hpos, by rw [hdisk]⟩

/-- A line over the start of the file, a byte behind its end, and the position. -/
def seekOps : List (SeekOp UInt8) :=
  [.call (.fputs [104, 105, 10]), .fseek 1 2, .call (.fputc 33), .ftell, .fseek (-9) 1]

theorem buffering_unobservable_line :
    ∃ y rets ret y' rets' ret',
      (lineStream.on ⟨[49, 50, 51, 52], 0⟩).seekSession .slow seekOps = some (y, rets, ret) ∧
      ((⟨File.fopen 3, Sys.start⟩ : Stream UInt8).on ⟨[49, 50, 51, 52], 0⟩).seekSession
        (.steady oneByOne) seekOps = some (y', rets', ret') ∧
      positions seekOps rets = positions seekOps rets' ∧ y.disk.cells = y'.disk.cells ∧
      positions seekOps rets = [0, 6, -1] ∧ y.disk.cells = [104, 105, 10, 52, 0, 33] := by
  have hopened : Opened Kernel.slow lineStream := by
    refine .setvbuf (.fopen 3) _ _ _ ?_
    intro r hr
    cases hr
    rfl
  have hdirect : ∀ a ∈ oneByOne, a.Positive := by decide
  refine buffering_unobservable (n := 3) hopened rfl ⟨[49, 50, 51, 52], 0⟩ 3 seekOps ?_ ?_
    ⟨?_, ?_, ?_, ?_⟩ ⟨?_, ?_, ?_, ?_⟩ (fun _ => rfl) (fun _ => rfl)
  · simp [seekOps, SeekOp.Fits, Op.Fits]
  · simp [seekOps, SeekOp.bytes, Op.bytes]
  · exact fun _ => (by decide : ∀ a ∈ .failed EINTR :: oneByOne, ¬ a.Hard)
  · exact fun _ => (by decide : 5 ≤ (.failed EINTR :: oneByOne).countP Answer.Positive)
  · exact fun _ => hdirect
  · exact fun _ => (by decide : 5 ≤ oneByOne.countP Answer.Positive)
  · exact fun _ => (by decide : ∀ a ∈ oneByOne, ¬ a.Hard)
  · exact fun _ => (by decide : 3 ≤ oneByOne.countP Answer.Positive)
  · exact fun _ => hdirect
  · exact fun _ => (by decide : 3 ≤ oneByOne.countP Answer.Positive)

end Vlibc.Stdio
