import Vlibc.Stdio.Stream

/-!
# The reading half of `stdio.c`

`fread`, `fgetc`, `ungetc` and `fgets`, and `getdelim` of `getline.c`, for descriptor, cookie and
memory streams.

A call of `read` is one decision of the `Kernel`; its bytes come from `Sys.disk`. What a stream has
still to give is `Stream.ahead`: the rest of the buffer and, unless the stream is in memory, of the
file. A byte pushed back by `ungetc` stands before it.
-/

namespace Vlibc.Stdio

variable {α : Type*}

/-- `stream->eof = 1`. -/
def File.setEof (f : File α) : File α := { f with eof := true }

/-- The bytes between `bufpos` and `buflen`. -/
def File.unread (f : File α) : List α :=
  match f.buf with
  | none => []
  | some r => (r.bytes.take f.buflen).drop f.bufpos

/-- The bytes the stream has still to give. -/
def Stream.ahead (s : Stream α) : List α :=
  if s.file.isCookie then s.sys.disk.rest
  else if s.file.isMem then s.file.unread
  else s.file.unread ++ s.sys.disk.rest

/-! ## `fread` -/

/-- `read(fd, …, n)`, or `cookie_read`: the bytes, unless the call fails. -/
def Sys.read (k : Kernel α) (y : Sys α) (n : ℕ) : Sys α × Option (List α) :=
  match k.read y.tick with
  | .failed e => (y.next.fail e, none)
  | .took c =>
    let xs := y.disk.rest.take (taken c n)
    ({ y.next with disk := y.disk.advance xs.length }, some xs)

/-- A call of `read` with the branch `r <= 0`, which marks the stream. That branch gives no bytes,
and the other at least one. -/
def Stream.fetch (k : Kernel α) (s : Stream α) (n : ℕ) : Stream α × List α :=
  match s.sys.read k n with
  | (y, none) => (⟨s.file.setError, y⟩, [])
  | (y, some []) => (⟨s.file.setEof, y⟩, [])
  | (y, some (b :: bs)) => (⟨s.file, y⟩, b :: bs)

/-- The bytes of a `read` into the buffer. -/
def File.fill (f : File α) (xs : List α) : File α :=
  { f with
    buf := f.buf.map fun r => r.put 0 xs
    buflen := xs.length
    bufpos := 0 }

/-- The copy out of the buffer, of at most `want` bytes. -/
def Stream.copyOut (s : Stream α) (want : ℕ) : Stream α × List α :=
  let avail := s.file.buflen - s.file.bufpos
  let n := min want avail
  (⟨{ s.file with bufpos := s.file.bufpos + n }, s.sys⟩, s.file.unread.take n)

/-- A round of the loop of `fread` that is to store `want` bytes more. A round without bytes is one
that leaves the loop. -/
def Stream.freadRound (k : Kernel α) (s : Stream α) (want : ℕ) : Stream α × List α :=
  if s.file.isCookie then
    if s.file.cookieRead then s.fetch k want else (⟨s.file.setEof, s.sys⟩, [])
  else if s.file.isMem then
    if s.file.buflen ≤ s.file.bufpos then (⟨s.file.setEof, s.sys⟩, []) else s.copyOut want
  else if s.file.buf.isSome then
    if s.file.buflen ≤ s.file.bufpos then
      match s.fetch k s.file.bufsize with
      | (s, []) => (s, [])
      | (s, b :: bs) => Stream.copyOut ⟨s.file.fill (b :: bs), s.sys⟩ want
    else s.copyOut want
  else s.fetch k want

/-- The loop of `fread`. A round that does not leave it stores a byte at least, so there are no
more rounds than bytes to store. -/
def Stream.freadLoop (k : Kernel α) : (fuel want : ℕ) → Stream α → Stream α × List α
  | fuel + 1, want + 1, s =>
    match s.freadRound k (want + 1) with
    | (s, []) => (s, [])
    | (s, b :: bs) =>
      let (s, rest) := freadLoop k fuel (want - bs.length) s
      (s, b :: bs ++ rest)
  | _, _, s => (s, [])

/-- `fread`: the bytes stored at `ptr`, and the return value. -/
def Stream.fread (k : Kernel α) (s : Stream α) (size nmemb : ℕ) : Stream α × List α × ℕ :=
  if size = 0 ∨ nmemb = 0 then (s, [], 0)
  else
    let total := size * nmemb % 2 ^ 64
    let (s, out) := Stream.freadLoop k total total s
    (s, out, out.length / size)

/-- `fgetc`; `none` is `-1`. -/
def Stream.fgetc (k : Kernel α) (s : Stream α) : Stream α × Option α :=
  match s.file.ungot with
  | some ch => (⟨{ s.file with ungot := none }, s.sys⟩, some ch)
  | none =>
    let (s, out, r) := s.fread k 1 1
    (s, if r ≠ 1 then none else out.head?)

/-- `ungetc` of the byte `(unsigned char)c`, or of `-1`. -/
def Stream.ungetc [Octet α] (s : Stream α) (c : Option α) : Stream α × ℤ :=
  match c, s.file.ungot with
  | some ch, none =>
    (⟨{ s.file with ungot := some ch, eof := false }, s.sys⟩, (Octet.byte ch).toNat)
  | _, _ => (s, -1)

/-- The loop of `fgets`, for `n` bytes more. -/
def Stream.fgetsLoop [Octet α] (k : Kernel α) : (n : ℕ) → Stream α → Stream α × List α
  | 0, s => (s, [])
  | n + 1, s =>
    match s.fgetc k with
    | (s, none) => (s, [])
    | (s, some c) =>
      if Octet.byte c = 10 then (s, [c])
      else
        let (s, cs) := fgetsLoop k n s
        (s, c :: cs)

/-- `fgets`: the bytes stored, with their terminator; or `NULL`. -/
def Stream.fgets [Octet α] (k : Kernel α) (s : Stream α) (size : ℤ) :
    Stream α × Option (List α) :=
  if size ≤ 0 then (s, none)
  else
    let (s, cs) := Stream.fgetsLoop k (size - 1).toNat s
    -- nothing was stored although there was room: the first `fgetc` returned `-1`
    if cs = [] ∧ 1 < size then (s, none) else (s, some (cs ++ [Octet.nul]))

/-- `*lineptr` and `*n`. -/
structure Line (α : Type*) where
  ptr : Option (Region α)
  n : ℕ

/-- `(*lineptr)[i] = c`. -/
def Line.set (l : Line α) (i : ℕ) (c : α) : Line α :=
  { l with ptr := l.ptr.map fun r => r.put i [c] }

/-- A buffer of `n` bytes from `malloc`, or from `realloc` of the old one. -/
def Line.alloc (k : Kernel α) (y : Sys α) (old : List α) (n : ℕ) : Sys α × Option (Line α) :=
  match k.alloc y.tick with
  | none => (y.next.fail ENOMEM, none)
  | some (addr, fresh) => (y.next, some ⟨some ⟨addr, regrow old fresh n⟩, n⟩)

/-- Room for the byte at `pos` and a terminator. -/
def Line.reserve (k : Kernel α) (y : Sys α) (l : Line α) (pos : ℕ) : Sys α × Option (Line α) :=
  if l.n ≤ pos + 1 then Line.alloc k y ((l.ptr.map Region.bytes).getD []) (l.n * 2 % 2 ^ 64)
  else (y, some l)

/-- The loop of `getdelim`, and what follows it. -/
def Stream.getdelimLoop [Octet α] (k : Kernel α) (delim : ℤ) :
    (fuel : ℕ) → Stream α → Line α → (pos : ℕ) → Option (Stream α × Line α × ℤ)
  | 0, _, _, _ => none
  | fuel + 1, s, l, pos =>
    match s.fgetc k with
    | (s, none) => if pos = 0 then some (s, l, -1) else some (s, l.set pos Octet.nul, pos)
    | (s, some c) =>
      match l.reserve k s.sys pos with
      | (y, none) => some (⟨s.file, y⟩, l, -1)
      | (y, some l) =>
        let l := l.set pos c
        if (Octet.byte c).toNat = delim then
          some (⟨s.file, y⟩, l.set (pos + 1) Octet.nul, (pos + 1 : ℕ))
        else getdelimLoop k delim fuel ⟨s.file, y⟩ l (pos + 1)

/-- `getdelim`: `*lineptr` and `*n`, and the return value. Every round but the last takes a byte of
the stream, or the one pushed back. -/
def Stream.getdelim [Octet α] (k : Kernel α) (s : Stream α) (l : Line α) (delim : ℤ) :
    Option (Stream α × Line α × ℤ) :=
  let rounds := s.ahead.length + 2
  if l.ptr.isNone ∨ l.n = 0 then
    let n := if l.n = 0 then 128 else l.n
    match Line.alloc k s.sys [] n with
    | (y, none) => some (⟨s.file, y⟩, ⟨none, n⟩, -1)
    | (y, some l) => Stream.getdelimLoop k delim rounds ⟨s.file, y⟩ l 0
  else Stream.getdelimLoop k delim rounds s l 0

end Vlibc.Stdio
