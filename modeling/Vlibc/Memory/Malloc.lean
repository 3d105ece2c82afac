import Vlibc.Errno
import Vlibc.Memory.Ops

/-!
# The free-list allocator

The `sbrk` build of `memory.c`, function by function. A `Heap` is the process image the allocator
sees: the byte memory, the head of the free list, the test hook and `errno`, and the program break
with the blocks `sbrk` has handed out. Sizes and addresses are naturals below `2 ^ 64`; `0` is
`NULL`.

Two record layouts share the sixteen bytes in front of a pointer:

* `struct block_header`: the size in the first eight bytes, the free-list link in the last eight;
* `struct posix_align_hdr`: the magic in the first four bytes, padding, the original pointer in the
  last eight.

An `Sbrk` says how the `sbrk` calls of one `malloc` come out. A function that contains the first-fit
loop returns `none` when that loop does not end.
-/

namespace Vlibc.Memory

open ByteMemory

def SIZE_MAX : ℕ := 2 ^ 64 - 1

/-- `POSIX_ALIGN_MAGIC`, the characters `PALG`. -/
def posixAlignMagic : ℕ := 0x50414C47

/-- How the system answers the `sbrk` calls of one `malloc`. -/
structure Sbrk where
  /-- Whether the probe `sbrk(0)` succeeds. -/
  probe : Bool
  /-- How far others have moved the break up since the last call; `none` for a refusal. -/
  gap : Option ℕ

/-- A block obtained from `sbrk`: its header's address, and the size that was asked for. -/
structure Grant where
  addr : ℕ
  cap : ℕ
  deriving DecidableEq

/-- What the allocator touches: a header it dereferences, a source range it copies from. -/
inductive Access
  | header (a : ℕ)
  | copy (src len : ℕ)
  deriving DecidableEq

/-- The process image. -/
structure Heap where
  mem : Mem
  /-- `free_list`. -/
  freeList : ℕ
  /-- `vlibc_test_alloc_fail_after`. -/
  failAfter : ℤ
  errno : ℕ
  /-- The end of the memory handed out so far. -/
  brk : ℕ
  /-- The blocks handed out so far, the newest first. -/
  grants : List Grant
  /-- The accesses made so far, the newest first. -/
  log : List Access

/-- A pointer minus one sixteen-byte record. -/
def hdrOf (p : ℕ) : ℕ := (p + 2 ^ 64 - 16) % 2 ^ 64

/-- `hdr->size`. -/
def sizeAt (m : Mem) (hdr : ℕ) : ℕ := loadLE m hdr 8

/-- `hdr->next`; in the other layout, `ph->orig`. -/
def nextAt (m : Mem) (hdr : ℕ) : ℕ := loadLE m (hdr + 8) 8

/-- `ph->magic`. -/
def magicAt (m : Mem) (ph : ℕ) : ℕ := loadLE m ph 4

/-- A `size_t` that is converted to `intptr_t`. -/
def intptr (x : ℕ) : ℤ := if x < 2 ^ 63 then x else x - 2 ^ 64

/-- `sbrk(inc)`: the system refuses, or moves the break by `inc` and returns where it was. A request
of `2 ^ 63` bytes or more is a negative increment: it lowers the break. -/
def Heap.sbrk (os : Sbrk) (h : Heap) (inc : ℕ) : Option (Heap × ℕ) :=
  match os.gap with
  | none => none
  | some gap =>
    let a := h.brk + gap
    let brk := a + intptr inc
    if a < 2 ^ 64 ∧ 0 ≤ brk ∧ brk < 2 ^ 64 then
      some ({ h with brk := brk.toNat, grants := ⟨a, inc - 16⟩ :: h.grants }, a)
    else none

/-- The system is not asked to lower the break, or refuses: the increment of a request of `n` bytes
is not negative, or `malloc` does not make it. -/
def Sbrk.Grows (os : Sbrk) (n : ℕ) : Prop :=
  os.gap = none ∨ 16 + n < 2 ^ 63 ∨ SIZE_MAX - 16 < n

instance (os : Sbrk) (n : ℕ) : Decidable (os.Grows n) := inferInstanceAs (Decidable (_ ∨ _))

theorem Sbrk.grows_of_lt (os : Sbrk) {n : ℕ} (h : n < 2 ^ 30) : os.Grows n := .inr (.inl (by omega))

/-- With an increment that is not negative the system hands out memory above all that it has handed
out before. -/
theorem Heap.sbrk_of_lt (os : Sbrk) (h : Heap) {inc : ℕ} (hinc : inc < 2 ^ 63) :
    h.sbrk os inc = match os.gap with
      | none => none
      | some gap =>
        if h.brk + gap + inc < 2 ^ 64 then
          some ({ h with brk := h.brk + gap + inc, grants := ⟨h.brk + gap, inc - 16⟩ :: h.grants },
            h.brk + gap)
        else none := by
  have hint : intptr inc = inc := if_pos hinc
  rw [Heap.sbrk]
  cases os.gap with
  | none => rfl
  | some gap =>
    simp only [hint]
    by_cases hlt : h.brk + gap + inc < 2 ^ 64
    · rw [if_pos hlt, if_pos (by omega)]
      simp only [← Nat.cast_add, Int.toNat_natCast]
    · rw [if_neg hlt, if_neg (by omega)]

/-- `free_impl`: return a block to the free list. -/
def Heap.freeImpl (h : Heap) (ptr : ℕ) : Heap :=
  if ptr = 0 then h
  else
    let hdr := hdrOf ptr
    { h with
      mem := storeLE h.mem (hdr + 8) 8 h.freeList
      freeList := hdr
      log := .header hdr :: h.log }

/-- `free`: the sixteen bytes in front of `ptr` decide whether it came from `posix_memalign`. -/
def Heap.free (h : Heap) (ptr : ℕ) : Heap :=
  if ptr = 0 then h
  else
    let ph := hdrOf ptr
    let h := { h with log := .header ph :: h.log }
    if magicAt h.mem ph = posixAlignMagic then
      let orig := nextAt h.mem ph
      Heap.freeImpl { h with mem := storeLE h.mem ph 4 0 } orig
    else h.freeImpl ptr

/-- The outcome of the first-fit loop: the headers it looked at, and the fitting block with the
one before it. -/
structure Search where
  visited : List ℕ
  found : Option (ℕ × ℕ)

/-- The first-fit loop. The loop writes nothing, so one that has not ended after as many rounds
as there are addresses never ends; `fuel` counts the rounds. -/
def firstFit (m : Mem) (size : ℕ) : (fuel prev b : ℕ) → Option Search
  | 0, _, _ => none
  | fuel + 1, prev, b =>
    if b = 0 then some ⟨[], none⟩
    else if size ≤ sizeAt m b then some ⟨[b], some (prev, b)⟩
    else (firstFit m size fuel b (nextAt m b)).map fun s => ⟨b :: s.visited, s.found⟩

/-- Unlink `b` behind `prev` and record the new size in its header. -/
def Heap.takeBlock (h : Heap) (prev b size : ℕ) : Heap :=
  let next := nextAt h.mem b
  let h :=
    if prev = 0 then { h with freeList := next }
    else { h with mem := storeLE h.mem (prev + 8) 8 next }
  { h with mem := storeLE h.mem b 8 size }

/-- `errno = ENOMEM; return NULL`. -/
def Heap.noMem (h : Heap) : Heap × ℕ := ({ h with errno := ENOMEM }, 0)

/-- The search and the extension of the break, past the checks of `malloc`. -/
def Heap.fetch (os : Sbrk) (h : Heap) (size : ℕ) : Option (Heap × ℕ) :=
  match firstFit h.mem size (2 ^ 64) 0 h.freeList with
  | none => none
  | some s =>
    let h := { h with log := s.visited.map Access.header ++ h.log }
    match s.found with
    | some (prev, b) => some (h.takeBlock prev b size, b + 16)
    | none =>
      match h.sbrk os (16 + size) with
      | none => some h.noMem
      | some (h, hdr) =>
        some ({ h with mem := storeLE h.mem hdr 8 size, log := .header hdr :: h.log }, hdr + 16)

/-- `malloc`: a block of the free list, or new memory from `sbrk`. -/
def Heap.malloc (os : Sbrk) (h : Heap) (size : ℕ) : Option (Heap × ℕ) :=
  if h.failAfter = 0 then some (Heap.noMem { h with failAfter := -1 })
  else
    -- `vlibc_test_alloc_fail_after--` is evaluated only when the hook is armed
    let h := if 0 ≤ h.failAfter then { h with failAfter := h.failAfter - 1 } else h
    if size = 0 then some h.noMem
    else if os.probe = false then some h.noMem
    else if SIZE_MAX - 16 < size then some h.noMem
    else h.fetch os size

/-! ## The functions over `malloc` and `free` -/

/-- `vmemset(p, 0, n)` within the heap. -/
def Heap.zero (h : Heap) (p n : ℕ) : Heap := { h with mem := vmemset h.mem p 0 n }

/-- `calloc`. -/
def Heap.calloc (os : Sbrk) (h : Heap) (nmemb size : ℕ) : Option (Heap × ℕ) :=
  if size ≠ 0 ∧ SIZE_MAX / size < nmemb then some h.noMem
  else
    let total := nmemb * size
    match h.malloc os total with
    | none => none
    | some (h, ptr) =>
      if ptr = 0 then some (h, 0)
      else some (h.zero ptr total, ptr)

/-- `vmemcpy` within the heap. -/
def Heap.copy (h : Heap) (dest src n : ℕ) : Heap :=
  { h with mem := vmemcpy h.mem dest src n, log := .copy src n :: h.log }

/-- `realloc`. -/
def Heap.realloc (os : Sbrk) (h : Heap) (ptr size : ℕ) : Option (Heap × ℕ) :=
  if ptr = 0 then h.malloc os size
  else if size = 0 then some (h.free ptr, 0)
  else
    let oldHdr := hdrOf ptr
    let copy := if sizeAt h.mem oldHdr < size then sizeAt h.mem oldHdr else size
    match Heap.malloc os { h with log := .header oldHdr :: h.log } size with
    | none => none
    | some (h, newPtr) =>
      if newPtr = 0 then some (h, 0)
      else some ((h.copy newPtr ptr copy).free ptr, newPtr)

/-- `reallocf`: the old block is freed if there is no new one. -/
def Heap.reallocf (os : Sbrk) (h : Heap) (ptr size : ℕ) : Option (Heap × ℕ) :=
  match h.realloc os ptr size with
  | none => none
  | some (h, newPtr) =>
    if newPtr = 0 ∧ size ≠ 0 then some (h.free ptr, 0) else some (h, newPtr)

/-- `reallocarray`. -/
def Heap.reallocarray (os : Sbrk) (h : Heap) (ptr nmemb size : ℕ) : Option (Heap × ℕ) :=
  if size ≠ 0 ∧ SIZE_MAX / size < nmemb then some h.noMem
  else h.realloc os ptr (nmemb * size)

/-- `recallocarray`: the bytes behind the old size are cleared. -/
def Heap.recallocarray (os : Sbrk) (h : Heap) (ptr nmemb size : ℕ) : Option (Heap × ℕ) :=
  if size ≠ 0 ∧ SIZE_MAX / size < nmemb then some h.noMem
  else
    let total := nmemb * size
    if ptr = 0 then h.calloc os nmemb size
    else if total = 0 then some (h.free ptr, 0)
    else
      let oldHdr := hdrOf ptr
      let oldSize := sizeAt h.mem oldHdr
      match Heap.realloc os { h with log := .header oldHdr :: h.log } ptr total with
      | none => none
      | some (h, newPtr) =>
        if newPtr = 0 then some (h, 0)
        else if oldSize < total then some (h.zero (newPtr + oldSize) (total - oldSize), newPtr)
        else some (h, newPtr)

/-- The request `posix_memalign` makes of `malloc`, past its overflow checks. -/
def memalignTotal (alignment size : ℕ) : ℕ := size + (alignment - 1 + 16)

/-- `(addr + alignment - 1) & ~(uintptr_t)(alignment - 1)`, for the first address behind the
header. -/
def alignedAddr (orig alignment : ℕ) : ℕ :=
  (orig + 16 + alignment - 1) % 2 ^ 64 &&& (2 ^ 64 - 1 - (alignment - 1))

/-- `posix_memalign` with a non-null `memptr`: the return code, and the pointer it stores. -/
def Heap.posixMemalign (os : Sbrk) (h : Heap) (alignment size : ℕ) :
    Option (Heap × ℕ × Option ℕ) :=
  if alignment = 0 ∨ alignment &&& (alignment - 1) ≠ 0 ∨ alignment % 8 ≠ 0 then
    some (h, EINVAL, none)
  else if SIZE_MAX - 16 < alignment - 1 then some (h, ENOMEM, none)
  else if SIZE_MAX - (alignment - 1 + 16) < size then some (h, ENOMEM, none)
  else
    match h.malloc os (memalignTotal alignment size) with
    | none => none
    | some (h, orig) =>
      if orig = 0 then some (h, ENOMEM, none)
      else
        let aligned := alignedAddr orig alignment
        let ph := hdrOf aligned
        let mem := storeLE h.mem ph 4 posixAlignMagic
        let mem := storeLE mem (ph + 8) 8 orig
        some ({ h with mem := mem, log := .header ph :: h.log }, 0, some aligned)

/-- `aligned_alloc`; a zero alignment divides by zero, which has no outcome. -/
def Heap.alignedAlloc (os : Sbrk) (h : Heap) (alignment size : ℕ) : Option (Heap × ℕ) :=
  if alignment = 0 then none
  else if size % alignment ≠ 0 then some ({ h with errno := EINVAL }, 0)
  else
    match h.posixMemalign os alignment size with
    | none => none
    | some (h, rc, ptr) =>
      if rc ≠ 0 then some ({ h with errno := rc }, 0) else some (h, ptr.getD 0)

end Vlibc.Memory
