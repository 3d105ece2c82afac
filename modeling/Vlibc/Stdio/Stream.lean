import Vlibc.Foundations.Tape
import Vlibc.Memory.Malloc

/-!
# The writing half of `stdio.c`

`flush_buffer`, `fwrite`, `fputc`, `fputs`, `fflush`, `setvbuf` and `fclose`, branch by branch, for
descriptor, cookie and memory streams.

The bytes are of any type `α` with an `Octet` instance, so that a byte may carry a mark that tells
it from an equal one. What the system decides is a `Kernel`, read at the running count `Sys.tick` of
its decisions; one entry of it answers all the `write` calls of one loop. A loop that uses up its
answers without finishing has no outcome (`none`).
-/

namespace Vlibc.Stdio

def SSIZE_MAX : ℕ := 2 ^ 63 - 1

def BUFSIZ : ℕ := 1024

/-- Bytes, as the stream functions see them. -/
class Octet (α : Type*) where
  byte : α → UInt8
  nul : α

instance : Octet UInt8 := ⟨id, 0⟩

/-- A byte with a mark. -/
instance : Octet (UInt8 × ℕ) := ⟨Prod.fst, (0, 0)⟩

/-! ## The system -/

/-- How one `write` (or `cookie_write`) call comes out. -/
inductive Answer
  /-- A count; the call takes as many of the bytes it is offered. -/
  | took (c : ℕ)
  /-- `-1`, with `errno`. -/
  | failed (errno : ℕ)
  deriving DecidableEq

/-- The count a call returns that is offered `n` bytes. -/
def taken (c n : ℕ) : ℕ := min c (min n SSIZE_MAX)

/-- What the system decides. -/
structure Kernel (α : Type*) where
  /-- The calls of a loop of `flush_buffer`. -/
  flush : ℕ → List Answer
  /-- The calls of a loop of `fwrite`. -/
  direct : ℕ → List Answer
  /-- The calls of a loop of `vfdprintf`. -/
  print : ℕ → List Answer
  /-- An allocation: its address and what it holds at first. -/
  alloc : ℕ → Option (ℕ × (ℕ → α))
  /-- `fsync`: the error, if there is one. -/
  fsync : ℕ → Option ℕ
  /-- `close`: the error, if there is one. -/
  close : ℕ → Option ℕ
  /-- What `cookie_close` returns. -/
  cookieClose : ℕ → ℤ
  /-- A call of `read` (or `cookie_read`). -/
  read : ℕ → Answer
  /-- `lseek` on a descriptor that has no position: the error. -/
  lseek : ℕ → Option ℕ
  /-- `cookie_seek`: the position it stores, unless it fails. -/
  cookieSeek : ℕ → Option ℕ

/-- A system that answers every loop alike, reads what is asked for, gives no memory, and never
fails to `fsync`, `lseek` or `close`. -/
def Kernel.steady {α : Type*} (as : List Answer) : Kernel α where
  flush _ := as
  direct _ := as
  print _ := as
  alloc _ := none
  fsync _ := none
  close _ := none
  cookieClose _ := 0
  read _ := .took SSIZE_MAX
  lseek _ := none
  cookieSeek _ := none

/-- The system's side of a run. -/
structure Sys (α : Type*) where
  /-- How many decisions the system has made. -/
  tick : ℕ
  /-- The bytes taken over from the callers. -/
  accepted : List α
  /-- The bytes that have reached the descriptor, or the cookie. -/
  delivered : List α
  errno : ℕ
  /-- The buffers passed to `free`. -/
  freed : List ℕ
  /-- `*mem_bufp`. -/
  memBuf : ℕ
  /-- `*mem_sizep`. -/
  memSize : ℕ
  /-- The buffers passed to `realloc`. -/
  resized : List ℕ
  /-- The file behind the descriptor, or what the cookie's callbacks read and write. -/
  disk : Tape α

/-- The bytes a buffer pointer points to. -/
structure Region (α : Type*) where
  addr : ℕ
  bytes : List α

/-- The modes of a buffer. -/
inductive BufMode
  | full
  | line
  | unbuffered
  deriving DecidableEq

/-- `_IOFBF`, `_IOLBF` and `_IONBF`. -/
def BufMode.ofInt (mode : ℤ) : Option BufMode :=
  if mode = 0 then some .full
  else if mode = 1 then some .line
  else if mode = 2 then some .unbuffered
  else none

/-- `FILE`; the defaults are those of `memset(f, 0, sizeof(FILE))`. -/
structure File (α : Type*) where
  fd : ℤ := 0
  buf : Option (Region α) := none
  bufsize : ℕ := 0
  bufpos : ℕ := 0
  buflen : ℕ := 0
  bufOwned : Bool := false
  bufMode : BufMode := .full
  error : Bool := false
  eof : Bool := false
  /-- `ungot_char`, if `have_ungot` is set. -/
  ungot : Option α := none
  isMem : Bool := false
  isWmem : Bool := false
  /-- Whether `mem_bufp` is set. -/
  memBufp : Bool := false
  /-- Whether `mem_sizep` is set. -/
  memSizep : Bool := false
  isCookie : Bool := false
  /-- Whether `cookie_read` is set. -/
  cookieRead : Bool := false
  /-- Whether `cookie_write` is set. -/
  cookieWrite : Bool := false
  /-- Whether `cookie_seek` is set. -/
  cookieSeek : Bool := false
  /-- Whether `cookie_close` is set. -/
  cookieClose : Bool := false

/-- A stream and the system below it. -/
structure Stream (α : Type*) where
  file : File α
  sys : Sys α

variable {α : Type*}

/-- `stream->error = 1`. -/
def File.setError (f : File α) : File α := { f with error := true }

/-- `stream->buflen = 0; stream->bufpos = 0`. -/
def File.rewound (f : File α) : File α := { f with buflen := 0, bufpos := 0 }

/-- One more call of the system was made. -/
def Sys.next (y : Sys α) : Sys α := { y with tick := y.tick + 1 }

/-- A call sets `errno`. -/
def Sys.fail (y : Sys α) (e : ℕ) : Sys α := { y with errno := e }

/-- Bytes have arrived: they are on the disk at the position, and at the end of all that arrived. -/
def Sys.deliver [Octet α] (y : Sys α) (xs : List α) : Sys α :=
  { y with delivered := y.delivered ++ xs, disk := y.disk.write Octet.nul xs }

/-- Bytes were taken from the caller. -/
def Sys.accept (y : Sys α) (xs : List α) : Sys α := { y with accepted := y.accepted ++ xs }

/-- `memcpy` into a buffer. -/
def Region.put (r : Region α) (i : ℕ) (xs : List α) : Region α :=
  { r with bytes := r.bytes.take i ++ xs ++ r.bytes.drop (i + xs.length) }

/-- Whether a failed call is made again. -/
def Retries (e : ℕ) : Prop := e = EINTR ∨ e = EAGAIN

instance (e : ℕ) : Decidable (Retries e) := inferInstanceAs (Decidable (_ ∨ _))

/-- The loop of `flush_buffer` and of `vfdprintf`: offer the bytes until all are taken, again after
`EINTR` and `EAGAIN`. The flag tells whether they were. -/
def writeAll [Octet α] : List Answer → List α → Sys α → Option (Sys α × Bool)
  | _, [], y => some (y, true)
  | [], _ :: _, _ => none
  | .took c :: as, b :: bs, y =>
    let w := taken c (b :: bs).length
    writeAll as ((b :: bs).drop w) (y.deliver ((b :: bs).take w))
  | .failed e :: as, b :: bs, y =>
    if Retries e then writeAll as (b :: bs) (y.fail e) else some (y.fail e, false)

/-- The unbuffered loop of `fwrite`: offer the bytes until all are taken, and stop at the first
call that takes none. What is returned are the bytes not taken. -/
def writeDirect [Octet α] : List Answer → List α → Sys α → Option (Sys α × List α)
  | _, [], y => some (y, [])
  | [], _ :: _, _ => none
  | .took c :: as, b :: bs, y =>
    let w := taken c (b :: bs).length
    if w = 0 then some (y, b :: bs)
    else
      let xs := (b :: bs).take w
      writeDirect as ((b :: bs).drop w) ((y.accept xs).deliver xs)
  | .failed e :: _, b :: bs, y => some (y.fail e, b :: bs)

/-- The bytes of a buffer after `realloc` to `n` of them. -/
def regrow (old : List α) (fresh : ℕ → α) (n : ℕ) : List α :=
  (List.range n).map fun i => (old[i]?).getD (fresh i)

/-- `tmp = realloc(stream->buf, n)` with its error branch. -/
def Stream.growBuf (k : Kernel α) (s : Stream α) (n : ℕ) : Stream α × Bool :=
  let y := { s.sys.next with
    resized := (s.file.buf.map Region.addr).toList ++ s.sys.resized }
  match k.alloc s.sys.tick with
  | none => (⟨s.file.setError, y.fail ENOMEM⟩, false)
  | some (addr, fresh) =>
    let old := (s.file.buf.map Region.bytes).getD []
    (⟨{ s.file with buf := some ⟨addr, regrow old fresh n⟩, bufsize := n }, y⟩, true)

/-- `sizeof(wchar_t)` for a wide stream, one for the others. -/
def File.unit (f : File α) : ℕ := if f.isWmem then 4 else 1

/-- The terminator, and the caller's pointer and size. -/
def Stream.publish [Octet α] (s : Stream α) : Stream α :=
  let f := s.file
  let zeros := List.replicate f.unit Octet.nul
  let addr := (f.buf.map Region.addr).getD 0
  { file := { f with buf := f.buf.map fun r => r.put f.buflen zeros }
    sys := { s.sys with
      memBuf := if f.memBufp then addr else s.sys.memBuf
      memSize := if f.memSizep then f.buflen / f.unit else s.sys.memSize } }

/-- The memory branch of `flush_buffer`. -/
def Stream.flushMem [Octet α] (k : Kernel α) (s : Stream α) : Stream α × ℤ :=
  let need := (s.file.buflen + s.file.unit) % 2 ^ 64
  if s.file.bufsize < need then
    match s.growBuf k need with
    | (s, false) => (s, -1)
    | (s, true) => (s.publish, 0)
  else (s.publish, 0)

/-- `flush_buffer`: the loop writes what is in the buffer, or leaves the rest in it when an error
ends it. -/
def Stream.flushBuffer [Octet α] (k : Kernel α) (s : Stream α) : Option (Stream α × ℤ) :=
  match s.file.buf with
  | none => some (s, 0)
  | some r =>
    if s.file.buflen = 0 then some (s, 0)
    else if s.file.isMem then some (s.flushMem k)
    -- without a callback every round of the loop writes nothing
    else if s.file.isCookie = true ∧ s.file.cookieWrite = false then none
    else
      match writeAll (k.flush s.sys.tick) (r.bytes.take s.file.buflen) s.sys.next with
      | none => none
      | some (y, true) => some (⟨s.file.rewound, y⟩, 0)
      | some (y, false) => some (⟨s.file.setError, y⟩, -1)

/-! ## `fwrite` -/

/-- `while (newsize < needed) newsize *= 2`. A size that is still too small after 64 rounds has
become zero and stays so. -/
def growSize (needed : ℕ) : (fuel newsize : ℕ) → Option ℕ
  | 0, _ => none
  | fuel + 1, n => if n < needed then growSize needed fuel (n * 2 % 2 ^ 64) else some n

/-- The copy into a memory stream's buffer, which has room. -/
def Stream.storeMem (s : Stream α) (data : List α) : Stream α :=
  let f := s.file
  let pos := f.bufpos + data.length
  { file := { f with
      buf := f.buf.map fun r => r.put f.bufpos data
      bufpos := pos
      buflen := max f.buflen pos }
    sys := s.sys.accept data }

/-- The memory branch of `fwrite`. -/
def Stream.fwriteMem (k : Kernel α) (s : Stream α) (data : List α) :
    Option (Stream α × List α) :=
  let needed := (s.file.bufpos + data.length) % 2 ^ 64
  if data = [] then some (s, [])
  else if s.file.bufsize < needed then
    let first := if s.file.bufsize = 0 then 128 else s.file.bufsize * 2 % 2 ^ 64
    match growSize needed 65 first with
    | none => none
    | some newsize =>
      match s.growBuf k newsize with
      | (s, false) => some (s, data)
      | (s, true) => some (s.storeMem data, [])
  else some (s.storeMem data, [])

/-- The bytes go behind the pending ones. -/
def Stream.push (s : Stream α) (xs : List α) : Stream α :=
  let f := s.file
  { file := { f with buf := f.buf.map fun r => r.put f.buflen xs, buflen := f.buflen + xs.length }
    sys := s.sys.accept xs }

/-- `if (c) { if (flush_buffer(stream) < 0) … }`. -/
def Stream.flushIf [Octet α] (k : Kernel α) (c : Prop) [Decidable c] (s : Stream α) :
    Option (Stream α × ℤ) :=
  if c then s.flushBuffer k else some (s, 0)

/-- The buffer is full. -/
def File.Full (f : File α) : Prop := f.buflen = f.bufsize

instance (f : File α) : Decidable f.Full := inferInstanceAs (Decidable (_ = _))

/-- The line-buffered branch of `fwrite`. What is returned are the bytes not taken. -/
def Stream.fwriteLine [Octet α] (k : Kernel α) :
    List α → Stream α → Option (Stream α × List α)
  | [], s => some (s, [])
  | c :: rest, s =>
    match s.flushIf k s.file.Full with
    | none => none
    | some (s, r) =>
      if r < 0 then some (s, c :: rest)
      else
        let s := s.push [c]
        match s.flushIf k (Octet.byte c = 10 ∨ s.file.Full) with
        | none => none
        | some (s, r) => if r < 0 then some (s, rest) else fwriteLine k rest s

/-- The fully buffered branch of `fwrite`; a round that takes nothing is repeated forever. What is
returned are the bytes not taken. -/
def Stream.fwriteFull [Octet α] (k : Kernel α) :
    (fuel : ℕ) → List α → Stream α → Option (Stream α × List α)
  | _, [], s => some (s, [])
  | 0, _ :: _, _ => none
  | fuel + 1, c :: rest, s =>
    match s.flushIf k s.file.Full with
    | none => none
    | some (s, r) =>
      if r < 0 then some (s, c :: rest)
      else
        let n := min (c :: rest).length (s.file.bufsize - s.file.buflen)
        let s := s.push ((c :: rest).take n)
        match s.flushIf k s.file.Full with
        | none => none
        | some (s, r) =>
          if r < 0 then some (s, (c :: rest).drop n) else fwriteFull k fuel ((c :: rest).drop n) s

/-- The branches without a buffer. -/
def Stream.fwriteDirect [Octet α] (k : Kernel α) (s : Stream α) (data : List α) :
    Option (Stream α × List α) :=
  match writeDirect (k.direct s.sys.tick) data s.sys.next with
  | none => none
  | some (y, []) => some (⟨s.file, y⟩, [])
  | some (y, b :: bs) => some (⟨s.file.setError, y⟩, b :: bs)

/-- Whether `fwrite` goes through the buffer: the stream has one, and a mode that uses it. -/
def File.Buffered (f : File α) : Prop := f.buf.isSome ∧ f.bufMode ≠ .unbuffered

instance (f : File α) : Decidable f.Buffered := inferInstanceAs (Decidable (_ ∧ _))

/-- The body of `fwrite`. The loop changes none of the fields that select its branch. What is
returned are the bytes not taken. -/
def Stream.fwriteBytes [Octet α] (k : Kernel α) (s : Stream α) (data : List α) :
    Option (Stream α × List α) :=
  if s.file.isCookie then
    if s.file.cookieWrite then s.fwriteDirect k data
    else if data = [] then some (s, [])
    else some (⟨s.file.setError, s.sys⟩, data)
  else if s.file.isMem then s.fwriteMem k data
  else if s.file.Buffered then
    if s.file.bufMode = .line then s.fwriteLine k data
    else Stream.fwriteFull k data.length data s
  else s.fwriteDirect k data

/-- `fwrite` of the bytes at `ptr`. -/
def Stream.fwrite [Octet α] (k : Kernel α) (s : Stream α) (ptr : List α) (size nmemb : ℕ) :
    Option (Stream α × ℕ) :=
  if size = 0 ∨ nmemb = 0 then some (s, 0)
  else
    let total := size * nmemb % 2 ^ 64
    match s.fwriteBytes k (ptr.take total) with
    | none => none
    | some (s, rest) => some (s, (total - rest.length) / size)

/-- `fputc` of the byte `(unsigned char)c`. -/
def Stream.fputc [Octet α] (k : Kernel α) (s : Stream α) (ch : α) : Option (Stream α × ℤ) :=
  match s.fwrite k [ch] 1 1 with
  | none => none
  | some (s, w) => some (s, if w ≠ 1 then -1 else (Octet.byte ch).toNat)

/-- The conversion `(int)w`. -/
def toInt (w : ℕ) : ℤ := Int.bmod w (2 ^ 32)

/-- `fputs`; a string is its bytes before the terminator. -/
def Stream.fputs [Octet α] (k : Kernel α) (s : Stream α) (str : List α) : Option (Stream α × ℤ) :=
  let len := str.length
  match s.fwrite k str 1 len with
  | none => none
  | some (s, w) => some (s, if w = len then toInt w else -1)

/-- `fflush`: the buffer is flushed, and then the file is synchronised. -/
def Stream.fflush [Octet α] (k : Kernel α) (s : Stream α) : Option (Stream α × ℤ) :=
  match s.flushBuffer k with
  | none => none
  | some (s, r) =>
    if r < 0 then some (s, -1)
    else if s.file.isMem then some (s, 0)
    else
      match k.fsync s.sys.tick with
      | none => some (⟨s.file, s.sys.next⟩, 0)
      | some e => some (⟨s.file, s.sys.next.fail e⟩, -1)

/-- The return value of `fclose`, and the system after it. -/
def Stream.closeFile (k : Kernel α) (s : Stream α) : Sys α × ℤ :=
  if s.file.isCookie then
    if s.file.cookieClose then (s.sys.next, k.cookieClose s.sys.tick) else (s.sys, 0)
  else if s.file.isMem then (s.sys, 0)
  else
    match k.close s.sys.tick with
    | none => (s.sys.next, 0)
    | some e => (s.sys.next.fail e, -1)

/-- `if (stream->buf && owned) free(stream->buf)`. -/
def File.freeBuf (f : File α) (owned : Bool) (y : Sys α) : Sys α :=
  match f.buf with
  | some r => if owned then { y with freed := r.addr :: y.freed } else y
  | none => y

/-- Whether `fclose` frees the buffer: not one that a memory stream has published. -/
def File.owns (f : File α) : Bool := if f.isMem ∧ f.memBufp then false else f.bufOwned

/-- `fclose`. What `flush_buffer` returns is not looked at. -/
def Stream.fclose [Octet α] (k : Kernel α) (s : Stream α) : Option (Sys α × ℤ) :=
  match s.flushBuffer k with
  | none => none
  | some (s, _) =>
    let (y, ret) := s.closeFile k
    some (s.file.freeBuf s.file.owns y, ret)

/-- The size `setvbuf` makes of its argument. -/
def bufferSize (size : ℕ) : ℕ := if size = 0 then BUFSIZ else size

/-- An empty buffer, or none, with its size, owner and mode. -/
def File.withBuf (f : File α) (buf : Option (Region α)) (size : ℕ) (owned : Bool) (m : BufMode) :
    File α :=
  { f with
    buf := buf
    bufsize := size
    bufpos := 0
    buflen := 0
    bufOwned := owned
    bufMode := m }

/-- `setvbuf`, with the caller's buffer if there is one. -/
def Stream.setvbuf (k : Kernel α) (s : Stream α) (buf : Option (Region α)) (mode : ℤ)
    (size : ℕ) : Stream α × ℤ :=
  match BufMode.ofInt mode with
  | none => (⟨s.file, s.sys.fail EINVAL⟩, -1)
  | some m =>
    let f := s.file
    let y := f.freeBuf f.bufOwned s.sys
    if m = .unbuffered then (⟨f.withBuf none 0 false m, y⟩, 0)
    else
      match buf with
      | some r => (⟨f.withBuf (some r) (bufferSize size) false m, y⟩, 0)
      | none =>
        match k.alloc y.tick with
        | none => (⟨{ f with buf := none }, y.next.fail ENOMEM⟩, -1)
        | some (addr, fresh) =>
          let r : Region α := ⟨addr, regrow [] fresh (bufferSize size)⟩
          (⟨f.withBuf (some r) (bufferSize size) true m, y.next⟩, 0)

/-- The stream `fopen` makes of an open descriptor. -/
def File.fopen (fd : ℤ) : File α := { fd := fd, bufMode := .unbuffered }

/-- The stream `fdopen` makes of a descriptor. -/
def File.fdopen (fd : ℤ) : File α := { fd := fd }

/-- The stream `fopencookie` makes, with or without each of its callbacks. -/
def File.fopencookie (read write seek close : Bool) : File α :=
  { fd := -1
    bufMode := .unbuffered
    isCookie := true
    cookieRead := read
    cookieWrite := write
    cookieSeek := seek
    cookieClose := close }

/-- A system in which nothing has happened. -/
def Sys.start : Sys α :=
  { tick := 0, accepted := [], delivered := [], errno := 0, freed := [], memBuf := 0, memSize := 0
    resized := [], disk := ⟨[], 0⟩ }

/-- The streams that write to a descriptor or a cookie, before the first write: opened, and then
given any buffering by calls of `setvbuf`. A caller's buffer has the size the call states. -/
inductive Opened (k : Kernel α) : Stream α → Prop
  | fopen (fd : ℤ) : Opened k ⟨File.fopen fd, Sys.start⟩
  | fdopen (fd : ℤ) : Opened k ⟨File.fdopen fd, Sys.start⟩
  | fopencookie (read write seek close : Bool) :
      Opened k ⟨File.fopencookie read write seek close, Sys.start⟩
  | setvbuf {s : Stream α} (h : Opened k s) (buf : Option (Region α)) (mode : ℤ) (size : ℕ)
      (hbuf : ∀ r, buf = some r → r.bytes.length = bufferSize size) :
      Opened k (s.setvbuf k buf mode size).1

/-! ## Positions

`fseek`, `ftell` and `rewind` begin with `flush_buffer`, and `rewind` goes on whatever that returns.
`whence` is 0 for `SEEK_SET`, 1 for `SEEK_CUR` and 2 for `SEEK_END`. -/

def OFF_MAX : ℤ := 2 ^ 63 - 1

/-- Where `lseek` would go. -/
def seekTarget (pos size : ℕ) (offset whence : ℤ) : Option ℤ :=
  if whence = 0 then some offset
  else if whence = 1 then some (pos + offset)
  else if whence = 2 then some (size + offset)
  else none

/-- `lseek`: the new position, unless it fails. -/
def Sys.lseek (k : Kernel α) (y : Sys α) (offset whence : ℤ) : Sys α × Option ℕ :=
  match k.lseek y.tick with
  | some e => (y.next.fail e, none)
  | none =>
    match seekTarget y.disk.pos y.disk.cells.length offset whence with
    | none => (y.next.fail EINVAL, none)
    | some p =>
      if p < 0 ∨ OFF_MAX < p then (y.next.fail EINVAL, none)
      else ({ y.next with disk := { y.disk with pos := p.toNat } }, some p.toNat)

/-- A call of `cookie_seek`, if there is one: the position it stores, unless it fails. -/
def Stream.cookieSeek (k : Kernel α) (s : Stream α) : Sys α × Option ℕ :=
  if s.file.cookieSeek then
    match k.cookieSeek s.sys.tick with
    | none => (s.sys.next, none)
    | some p => ({ s.sys.next with disk := { s.sys.disk with pos := p } }, some p)
  else (s.sys, none)

/-- The memory branch of `fseek`, in `size_t`. -/
def Stream.fseekMem (s : Stream α) (offset whence : ℤ) : Stream α × ℤ :=
  match seekTarget s.file.bufpos s.file.buflen offset whence with
  | none => (s, -1)
  | some p =>
    let newpos := (p % 2 ^ 64).toNat
    let bufpos := if s.file.buflen < newpos then s.file.buflen else newpos
    (⟨{ s.file with
        bufpos := bufpos
        eof := decide (s.file.buflen ≤ bufpos)
        ungot := none }, s.sys⟩, 0)

/-- An empty buffer, and no end and no byte pushed back. -/
def File.sought (f : File α) : File α := { f.rewound with eof := false, ungot := none }

/-- `fseek`, behind a flush. -/
def Stream.fseek [Octet α] (k : Kernel α) (s : Stream α) (offset whence : ℤ) :
    Option (Stream α × ℤ) :=
  match s.flushBuffer k with
  | none => none
  | some (s, r) =>
    if r < 0 then some (s, -1)
    else if s.file.isMem then some (s.fseekMem offset whence)
    else if s.file.isCookie then
      match s.cookieSeek k with
      | (y, none) => some (⟨s.file.setError, y⟩, -1)
      | (y, some _) => some (⟨{ s.file with eof := false, ungot := none }, y⟩, 0)
    else
      match s.sys.lseek k offset whence with
      | (y, none) => some (⟨s.file.setError, y⟩, -1)
      | (y, some _) => some (⟨s.file.sought, y⟩, 0)

/-- `ftell`, behind a flush. -/
def Stream.ftell [Octet α] (k : Kernel α) (s : Stream α) : Option (Stream α × ℤ) :=
  match s.flushBuffer k with
  | none => none
  | some (s, r) =>
    if r < 0 then some (s, -1)
    else if s.file.isMem then some (s, Int.bmod s.file.bufpos (2 ^ 64))
    else
      match if s.file.isCookie then s.cookieSeek k else s.sys.lseek k 0 1 with
      | (y, none) => some (⟨s.file.setError, y⟩, -1)
      | (y, some p) => some (⟨s.file, y⟩, p)

/-- `rewind`. The error flag that a failing `lseek` sets is cleared with the others. -/
def Stream.rewind [Octet α] (k : Kernel α) (s : Stream α) : Option (Stream α) :=
  match s.flushBuffer k with
  | none => none
  | some (s, _) =>
    let y :=
      if s.file.isMem then s.sys
      else if s.file.isCookie then (s.cookieSeek k).1
      else (s.sys.lseek k 0 0).1
    some ⟨{ s.file.sought with error := false }, y⟩

/-! ## Memory streams

`open_memstream`, `open_wmemstream` and `fmemopen` of `memstream.c`, and the calls that a program
makes on such a stream, with what they ask of `realloc`. -/

/-- `open_memstream` and `open_wmemstream`, for `bufp` and `sizep` that are or are not `NULL`. -/
def openMem (k : Kernel α) (y : Sys α) (bufp sizep wide : Bool) : Sys α × Option (File α) :=
  if ¬ bufp ∨ ¬ sizep then (y.fail EINVAL, none)
  else
    match k.alloc y.tick with
    | none => (y.next.fail ENOMEM, none)
    | some _ =>
      let y := y.next
      let f : File α :=
        { fd := -1
          bufMode := .full
          isMem := true
          isWmem := wide
          memBufp := true
          memSizep := true }
      let size := 128 * f.unit
      match k.alloc y.tick with
      | none => (y.next.fail ENOMEM, none)
      | some (addr, fresh) =>
        ({ y.next with memBuf := 0, memSize := 0 },
          some { f with
            bufsize := size
            buf := some ⟨addr, regrow [] fresh size⟩
            bufOwned := true })

/-- `open_memstream`. -/
def openMemstream (k : Kernel α) (y : Sys α) (bufp sizep : Bool) : Sys α × Option (File α) :=
  openMem k y bufp sizep false

/-- The modes `fmemopen` knows. -/
def memModes : List (List UInt8) :=
  [['r'], ['r', '+'], ['w'], ['w', '+'], ['a'], ['a', '+']].map (·.map Char.toUInt8)

/-- `fmemopen`, with the caller's memory if there is some; a mode is its bytes before the
terminator. -/
def fmemopen (k : Kernel α) (y : Sys α) (buf : Option (Region α)) (size : ℕ)
    (mode : Option (List UInt8)) : Sys α × Option (File α) :=
  let mode := mode.getD ['r'.toUInt8]
  if size = 0 then (y.fail EINVAL, none)
  else
    match k.alloc y.tick with
    | none => (y.next.fail ENOMEM, none)
    | some _ =>
      let y := y.next
      if mode ∉ memModes then (y.fail EINVAL, none)
      else
        let buflen := if mode = ['w'.toUInt8] then 0 else size
        let f : File α :=
          { fd := -1
            bufMode := .full
            isMem := true
            bufsize := size
            buflen := buflen
            bufpos := if mode.head? = some 'a'.toUInt8 then buflen else 0 }
        match buf with
        | some r => (y, some { f with buf := some r })
        | none =>
          match k.alloc y.tick with
          | none => (y.next.fail ENOMEM, none)
          | some (addr, fresh) =>
            (y.next, some { f with buf := some ⟨addr, regrow [] fresh size⟩, bufOwned := true })

/-- A call on a stream in memory. -/
inductive MemOp (α : Type*)
  | fwrite (ptr : List α) (size nmemb : ℕ)
  | fputc (ch : α)
  | fseek (offset whence : ℤ)
  | fflush

namespace MemOp

/-- What a call does. -/
def exec [Octet α] (k : Kernel α) (s : Stream α) : MemOp α → Option (Stream α × ℤ)
  | fwrite ptr size nmemb => (s.fwrite k ptr size nmemb).map fun (s, r) => (s, (r : ℤ))
  | fputc ch => s.fputc k ch
  | fseek offset whence => s.fseek k offset whence
  | fflush => s.fflush k

end MemOp

def PTRDIFF_MAX : ℕ := 2 ^ 63 - 1

/-- The size `flush_buffer` passes to `realloc`, if it calls it. -/
def Stream.flushAsks (s : Stream α) : Option ℕ :=
  let need := (s.file.buflen + s.file.unit) % 2 ^ 64
  if s.file.buflen ≠ 0 ∧ s.file.bufsize < need then some need else none

/-- The size `fwrite` of `len` bytes passes to `realloc`, if it calls it. -/
def Stream.writeAsks (s : Stream α) (len : ℕ) : Option ℕ :=
  let needed := (s.file.bufpos + len) % 2 ^ 64
  if len ≠ 0 ∧ s.file.bufsize < needed then
    growSize needed 65 (if s.file.bufsize = 0 then 128 else s.file.bufsize * 2 % 2 ^ 64)
  else none

/-- The size a call passes to `realloc`, if it calls it. -/
def MemOp.asks (s : Stream α) : MemOp α → Option ℕ
  | fwrite ptr size nmemb => s.writeAsks (ptr.take (size * nmemb % 2 ^ 64)).length
  | fputc _ => s.writeAsks 1
  | fseek _ _ => s.flushAsks
  | fflush => s.flushAsks

/-- `realloc` succeeds, which it never does for more than `PTRDIFF_MAX` bytes. -/
def Kernel.Grants (k : Kernel α) (i : ℕ) (ask : Option ℕ) : Prop :=
  ∀ n ∈ ask, (k.alloc i).isSome ∧ n ≤ PTRDIFF_MAX

instance (k : Kernel α) (i : ℕ) (ask : Option ℕ) : Decidable (k.Grants i ask) :=
  inferInstanceAs (Decidable (∀ n ∈ ask, (k.alloc i).isSome ∧ n ≤ PTRDIFF_MAX))

/-! ## The contents of buffers -/

open List

variable {r : Region α} {xs old : List α} {i j n : ℕ}

theorem length_put (h : i + xs.length ≤ r.bytes.length) :
    (r.put i xs).bytes.length = r.bytes.length := by
  simp only [Region.put, length_append, length_take, length_drop]
  omega

theorem take_put_of_le (hj : j ≤ i) (hi : i ≤ r.bytes.length) :
    (r.put i xs).bytes.take j = r.bytes.take j := by
  unfold Region.put
  rw [append_assoc, take_append_of_le_length (by simp; omega), take_take, min_eq_left hj]

theorem take_put (hi : i ≤ r.bytes.length) :
    (r.put i xs).bytes.take (i + xs.length) = r.bytes.take i ++ xs := by
  unfold Region.put
  rw [take_left' (by simp; omega)]

theorem take_put_max {cells : List α} (hcells : r.bytes.take cells.length = cells)
    (hi : i ≤ cells.length) :
    (r.put i xs).bytes.take (max cells.length (i + xs.length))
      = cells.take i ++ xs ++ cells.drop (i + xs.length) := by
  have hsplit : r.bytes = cells ++ r.bytes.drop cells.length := by
    conv_lhs => rw [← take_append_drop cells.length r.bytes, hcells]
  unfold Region.put
  rw [hsplit, take_append_of_le_length hi, drop_append, ← append_assoc]
  apply take_left'
  simp only [length_append, length_take, length_drop]
  omega

@[simp] theorem length_regrow (old : List α) (fresh : ℕ → α) (n : ℕ) :
    (regrow old fresh n).length = n := by
  simp [regrow]

theorem take_regrow (fresh : ℕ → α) (hj : j ≤ old.length) (hn : j ≤ n) :
    (regrow old fresh n).take j = old.take j := by
  apply ext_getElem
  · simp
    omega
  · intro a ha hb
    have : a < j := by simp at hb; omega
    simp [regrow, getElem?_eq_getElem (show a < old.length by omega)]

theorem flushBuffer_eq_of_empty [Octet α] {k : Kernel α} {s : Stream α}
    (h0 : s.file.buflen = 0) : s.flushBuffer k = some (s, 0) := by
  unfold Stream.flushBuffer
  split
  · rfl
  · rw [if_pos h0]

end Vlibc.Stdio
