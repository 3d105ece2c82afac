import Vlibc.Memory.Calls

/-!
# Runs of a client

A `World` is a heap together with what its client holds. A client makes the calls of `memory.c` in
any order, and stores into its own allocations in between (`Call`, `World.exec`). A call is `Legal`
when the pointer it passes in is `NULL` or live; it is `Clear` when the allocation it passes in
cannot be mistaken for one of the other kind, and it `Grows` when it does not make the system lower
the break. Every world reached by such calls carries the client's allocations (`Runs.inv`).
-/

namespace Vlibc.Memory

open ByteMemory List Option

/-- A heap and what its client holds. -/
structure World where
  heap : Heap
  live : List Alloc
  /-- The pointers handed out so far, the newest first. -/
  returned : List ℕ

/-- A fresh process: whatever the memory holds, nothing has been allocated. -/
structure World.Start (w : World) : Prop where
  freeList : w.heap.freeList = 0
  grants : w.heap.grants = []
  log : w.heap.log = []
  brk_pos : 0 < w.heap.brk
  brk_lt : w.heap.brk < 2 ^ 64
  live : w.live = []
  returned : w.returned = []

/-- The functions of `memory.c`, and the client's own stores. -/
inductive Entry
  | malloc
  | calloc
  | realloc
  | reallocf
  | reallocarray
  | recallocarray
  | posixMemalign
  | alignedAlloc
  | free
  | store
  deriving DecidableEq

/-- One action of a client, with the system's answer to its `sbrk` calls. -/
inductive Call
  | malloc (n : ℕ) (os : Sbrk)
  | calloc (k s : ℕ) (os : Sbrk)
  | realloc (p n : ℕ) (os : Sbrk)
  | reallocf (p n : ℕ) (os : Sbrk)
  | reallocarray (p k s : ℕ) (os : Sbrk)
  | recallocarray (p k s : ℕ) (os : Sbrk)
  | posixMemalign (al n : ℕ) (os : Sbrk)
  | alignedAlloc (al n : ℕ) (os : Sbrk)
  | free (p : ℕ)
  /-- The client writes a byte of its own. -/
  | store (x : ℕ) (v : UInt8)

namespace Call

/-- The function that is called. -/
def entry : Call → Entry
  | malloc .. => .malloc
  | calloc .. => .calloc
  | realloc .. => .realloc
  | reallocf .. => .reallocf
  | reallocarray .. => .reallocarray
  | recallocarray .. => .recallocarray
  | posixMemalign .. => .posixMemalign
  | alignedAlloc .. => .alignedAlloc
  | free .. => .free
  | store .. => .store

/-- The pointer that is passed in, or `NULL`. -/
def arg : Call → ℕ
  | realloc p _ _ | reallocf p _ _ | reallocarray p _ _ _ | recallocarray p _ _ _ | free p => p
  | _ => 0

/-- The number of bytes that the client asks for. -/
def request : Call → ℕ
  | malloc n _ | realloc _ n _ | reallocf _ n _ | posixMemalign _ n _ | alignedAlloc _ n _ => n
  | calloc k s _ | reallocarray _ k s _ | recallocarray _ k s _ => k * s
  | free _ | store _ _ => 0

/-- How the system answers. -/
def os : Call → Sbrk
  | malloc _ os | calloc _ _ os | realloc _ _ os | reallocf _ _ os | reallocarray _ _ _ os
  | recallocarray _ _ _ os | posixMemalign _ _ os | alignedAlloc _ _ os => os
  | free _ | store _ _ => ⟨false, none⟩

/-- What the call asks `malloc` for. -/
def need : Call → ℕ
  | posixMemalign al n _ | alignedAlloc al n _ => memalignTotal al n
  | c => c.request

/-- The system is not asked to lower the break, or refuses. -/
def Grows (c : Call) : Prop := c.os.Grows c.need

instance (c : Call) : Decidable c.Grows := inferInstanceAs (Decidable (Sbrk.Grows _ _))

/-- The call may be made: it passes in `NULL` or a live pointer, divides by no zero alignment, and
stores only into a live allocation. -/
def Legal (w : World) : Call → Prop
  | alignedAlloc al _ _ => al ≠ 0
  | store x _ => ∃ a ∈ w.live, a.ptr ≤ x ∧ x < a.ptr + a.size
  | c => c.arg = 0 ∨ ∃ a ∈ w.live, a.ptr = c.arg

/-- The allocation passed in cannot be mistaken for one of the other kind. -/
def Clear (w : World) (c : Call) : Prop := ∀ a ∈ w.live, a.ptr = c.arg → a.Unconfused

instance (a : Alloc) : Decidable a.Unconfused := inferInstanceAs (Decidable (_ → _))

instance (w : World) (c : Call) : Decidable (c.Clear w) :=
  inferInstanceAs (Decidable (∀ a ∈ w.live, _ → _))

instance (w : World) : (c : Call) → Decidable (c.Legal w)
  | malloc .. | calloc .. | realloc .. | reallocf .. | reallocarray .. | recallocarray ..
  | posixMemalign .. | free .. => inferInstanceAs (Decidable (_ ∨ _))
  | alignedAlloc .. => inferInstanceAs (Decidable (_ ≠ _))
  | store .. => inferInstanceAs (Decidable (∃ a ∈ w.live, _ ∧ _))

end Call

namespace World

/-- The client's books after a call that was to turn `p` into `n` bytes: the pointer returned takes
the place of `p`; without one, a request for no bytes has released `p`. -/
def resized (w : World) (p n : ℕ) (x : Heap × ℕ) : World :=
  if x.2 = 0 then ⟨x.1, if n = 0 then dropPtr w.live p else w.live, w.returned⟩
  else ⟨x.1, ⟨x.2, n, x.2 - 16, .plain⟩ :: dropPtr w.live p, x.2 :: w.returned⟩

/-- The header of the block that `malloc` gives `posix_memalign`. -/
def memalignBlock (w : World) (al n : ℕ) (os : Sbrk) : ℕ :=
  ((w.heap.malloc os (memalignTotal al n)).elim 0 Prod.snd) - 16

/-- The client's books after an aligned allocation. -/
def aligned (w : World) (al n : ℕ) (os : Sbrk) (x : Heap × ℕ) : World :=
  if x.2 = 0 then { w with heap := x.1 }
  else ⟨x.1, ⟨x.2, n, w.memalignBlock al n os, .aligned al⟩ :: w.live, x.2 :: w.returned⟩

/-- One action, with the client's books kept. -/
def exec (w : World) : Call → Option World
  | .malloc n os => (w.heap.malloc os n).map (w.resized 0 n)
  | .calloc k s os => (w.heap.calloc os k s).map (w.resized 0 (k * s))
  | .realloc p n os => (w.heap.realloc os p n).map (w.resized p n)
  -- without a pointer to return, `reallocf` has released the old one
  | .reallocf p n os =>
    (w.heap.reallocf os p n).map fun x => w.resized p (if x.2 = 0 then 0 else n) x
  | .reallocarray p k s os => (w.heap.reallocarray os p k s).map (w.resized p (k * s))
  | .recallocarray p k s os => (w.heap.recallocarray os p k s).map (w.resized p (k * s))
  | .posixMemalign al n os =>
    (w.heap.posixMemalign os al n).map fun x => w.aligned al n os (x.1, x.2.2.getD 0)
  | .alignedAlloc al n os => (w.heap.alignedAlloc os al n).map (w.aligned al n os)
  | .free p => some { w with heap := w.heap.free p, live := dropPtr w.live p }
  | .store x v => some { w with heap := { w.heap with mem := Function.update w.heap.mem x v } }

/-- **The heap carries exactly the client's allocations.** -/
def Inv (w : World) : Prop := ∃ A, Owns w.heap A w.live

end World

/-- What an action keeps: the invariant, and what it can add to the client's books. -/
structure StepOk (w : World) (c : Call) (w' : World) : Prop where
  inv : w'.Inv
  evolves : Evolves c.os w.heap w'.heap
  live : ∀ a ∈ w'.live, a ∈ w.live ∨ a.size = c.request ∧
    (a.kind = .plain ∨ c.entry = .posixMemalign ∨ c.entry = .alignedAlloc)
  returned : ∀ r ∈ w'.returned, r ∈ w.returned ∨ ∃ a ∈ w'.live, a.ptr = r

namespace StepOk

variable {w : World} {c : Call} {h' : Heap} {a : Alloc} {b : Block}

theorem idle (hi : w.Inv) (hu : Unchanged w.heap h') : StepOk w c { w with heap := h' } :=
  let ⟨A, ho⟩ := hi
  ⟨⟨A, hu.owns ho⟩, .of_quiet hu.quiet, fun _ ha => .inl ha, fun _ hr => .inl hr⟩

theorem gain (hg : Gains c.os w.heap w.live c.request h' b) :
    StepOk w c ⟨h', b.alloc :: w.live, b.alloc.ptr :: w.returned⟩ := by
  refine ⟨hg.owns, hg.evolves, fun a ha => ?_, fun r hr => ?_⟩
  · rcases mem_cons.1 ha with rfl | ha
    · exact .inr ⟨hg.size, .inl rfl⟩
    · exact .inl ha
  · rcases mem_cons.1 hr with rfl | hr
    · exact .inr ⟨b.alloc, mem_cons_self, rfl⟩
    · exact .inl hr

theorem replace (hg : Replaces c.os w.heap w.live a c.request h' b) :
    StepOk w c ⟨h', b.alloc :: dropPtr w.live a.ptr, b.alloc.ptr :: w.returned⟩ := by
  obtain ⟨A, -, -, -, ho⟩ := hg.owns
  refine ⟨⟨A, ho⟩, hg.evolves, fun d hd => ?_, fun r hr => ?_⟩
  · rcases mem_cons.1 hd with rfl | hd
    · exact .inr ⟨hg.size, .inl rfl⟩
    · exact .inl (mem_dropPtr.1 hd).1
  · rcases mem_cons.1 hr with rfl | hr
    · exact .inr ⟨b.alloc, mem_cons_self, rfl⟩
    · exact .inl hr

theorem drop (hi : w.Inv) (hu : Unchanged w.heap h') (ha : a ∈ w.live) (hc : a.Unconfused) :
    StepOk w c { w with heap := h'.free a.ptr, live := dropPtr w.live a.ptr } := by
  obtain ⟨A, ho⟩ := hi
  obtain ⟨A', -, -, -, -, ho', -, hq⟩ := (hu.owns ho).free ha hc
  exact ⟨⟨A', ho'⟩, .of_quiet (hu.quiet.trans hq), fun d hd => .inl (mem_dropPtr.1 hd).1,
    fun _ hr => .inl hr⟩

theorem align {al p : ℕ} (hc : c.entry = .posixMemalign ∨ c.entry = .alignedAlloc)
    (hg : Aligns c.os w.heap w.live al c.request h' p b) :
    StepOk w c ⟨h', ⟨p, c.request, b.addr, .aligned al⟩ :: w.live, p :: w.returned⟩ := by
  refine ⟨hg.owns, hg.evolves, fun a ha => ?_, fun r hr => ?_⟩
  · rcases mem_cons.1 ha with rfl | ha
    · exact .inr ⟨rfl, .inr hc⟩
    · exact .inl ha
  · rcases mem_cons.1 hr with rfl | hr
    · exact .inr ⟨_, mem_cons_self, rfl⟩
    · exact .inl hr

end StepOk

/-! ### The client's books -/

section Books

variable {w : World} {h' : Heap} {b : Block} {p n : ℕ}

theorem dropPtr_zero (hi : w.Inv) : dropPtr w.live 0 = w.live := by
  obtain ⟨A, ho⟩ := hi
  exact filter_eq_self.2 fun a ha => by simpa using ho.ptr_ne_zero ha

theorem resized_zero (hn : n ≠ 0) : w.resized p n (h', 0) = { w with heap := h' } := by
  simp [World.resized, hn]

theorem resized_null (hi : w.Inv) : w.resized 0 n (h', 0) = { w with heap := h' } := by
  simp [World.resized, dropPtr_zero hi]

theorem resized_block (hs : b.size = n) :
    w.resized p n (h', b.addr + 16) =
      ⟨h', b.alloc :: dropPtr w.live p, b.alloc.ptr :: w.returned⟩ := by
  subst hs
  rfl

end Books

variable {w w' : World} {c : Call} {x : Option (Heap × ℕ)}

theorem alloc_spec (hi : w.Inv)
    (hx : ∃ h' r, x = some (h', r) ∧
      ((r = 0 ∧ Unchanged w.heap h') ∨
        ∃ b, r = b.addr + 16 ∧ Gains c.os w.heap w.live c.request h' b)) :
    ∃ w', x.map (w.resized 0 c.request) = some w' ∧ StepOk w c w' := by
  obtain ⟨h', r, rfl, ⟨rfl, hu⟩ | ⟨b, rfl, hg⟩⟩ := hx
  · exact ⟨_, congrArg some (resized_null hi), .idle hi hu⟩
  · refine ⟨_, congrArg some (resized_block hg.size), ?_⟩
    rw [dropPtr_zero hi]
    exact .gain hg

theorem resize_spec (hi : w.Inv) {a : Alloc} (ha : a.ptr = c.arg) (hal : a ∈ w.live)
    (hn : c.request ≠ 0)
    (hx : ∃ h' r, x = some (h', r) ∧
      ((r = 0 ∧ Unchanged w.heap h') ∨
        ∃ b, r = b.addr + 16 ∧
          (a.Unconfused → Replaces c.os w.heap w.live a c.request h' b))) :
    ∃ w', x.map (w.resized a.ptr c.request) = some w' ∧ (c.Clear w → StepOk w c w') := by
  obtain ⟨h', r, rfl, ⟨rfl, hu⟩ | ⟨b, rfl, hg⟩⟩ := hx
  · exact ⟨_, congrArg some (resized_zero hn), fun _ => .idle hi hu⟩
  · refine ⟨_, rfl, fun hc => ?_⟩
    have hr := hg (hc a hal ha)
    simp only [resized_block hr.size]
    exact .replace hr

theorem release_spec (hi : w.Inv) {h' : Heap} (hu : Unchanged w.heap h')
    (hl : c.arg = 0 ∨ ∃ a ∈ w.live, a.ptr = c.arg) (hc : c.Clear w) :
    StepOk w c ⟨h'.free c.arg, dropPtr w.live c.arg, w.returned⟩ := by
  rcases hl with h0 | ⟨a, ha, e⟩
  · rw [h0, dropPtr_zero hi]
    exact .idle hi hu
  · rw [← e]
    exact .drop hi hu ha (hc a ha e)

theorem realloc_spec (hi : w.Inv) (os : Sbrk) (p n : ℕ) (hos : c.os = os) (hp : c.arg = p)
    (hn : c.request = n) (hl : p = 0 ∨ ∃ a ∈ w.live, a.ptr = p) (hg : os.Grows n) :
    ∃ w', (w.heap.realloc os p n).map (w.resized p n) = some w' ∧ (c.Clear w → StepOk w c w') := by
  subst hos hp hn
  obtain ⟨A, ho⟩ := hi
  rcases hl with h0 | ⟨a, ha, e⟩
  · obtain ⟨w', hw', hok⟩ := alloc_spec ⟨A, ho⟩ (malloc_owns ho c.os c.request hg)
    exact ⟨w', by rw [h0, Heap.realloc, if_pos rfl, hw'], fun _ => hok⟩
  · by_cases hn : c.request = 0
    · have h0 : a.ptr ≠ 0 := ho.ptr_ne_zero ha
      refine ⟨_, ?_, release_spec ⟨A, ho⟩ (.refl _) (Or.inr ⟨a, ha, e⟩)⟩
      rw [← e, hn, Heap.realloc, if_neg h0, if_pos rfl]
      rfl
    · rw [← e]
      exact resize_spec ⟨A, ho⟩ e ha hn (realloc_replaces ho c.os ha hn hg)

theorem reallocf_spec (hi : w.Inv) (os : Sbrk) (p n : ℕ)
    (hl : p = 0 ∨ ∃ a ∈ w.live, a.ptr = p) (hgrows : os.Grows n) :
    ∃ w', w.exec (.reallocf p n os) = some w' ∧
      ((Call.reallocf p n os).Clear w → StepOk w (.reallocf p n os) w') := by
  obtain ⟨A, ho⟩ := id hi
  simp only [World.exec, Heap.reallocf]
  by_cases hn : n = 0 ∧ p ≠ 0
  · refine ⟨_, ?_, release_spec (c := .reallocf p n os) hi (.refl _) hl⟩
    simp [Heap.realloc, hn, World.resized, Call.arg]
  -- what the inner `realloc` gives, for `NULL` and for a live pointer alike
  obtain ⟨h', r, e, hr⟩ : ∃ h' r, w.heap.realloc os p n = some (h', r) ∧
      ((r = 0 ∧ Unchanged w.heap h') ∨ ∃ b : Block, r = b.addr + 16 ∧ ((Call.reallocf p n os).Clear w →
        StepOk w (.reallocf p n os) (w.resized p n (h', r)))) := by
    rcases hl with rfl | ⟨a, ha, rfl⟩
    · obtain ⟨h', r, e, hu | ⟨b, rfl, hg⟩⟩ := malloc_owns ho os n hgrows
      · exact ⟨h', r, by rw [Heap.realloc, if_pos rfl, e], .inl hu⟩
      · refine ⟨h', _, by rw [Heap.realloc, if_pos rfl, e], .inr ⟨b, rfl, fun _ => ?_⟩⟩
        rw [resized_block hg.size, dropPtr_zero hi]
        exact .gain hg
    · have hn' : n ≠ 0 := fun h0 => hn ⟨h0, ho.ptr_ne_zero ha⟩
      obtain ⟨h', r, e, hu | ⟨b, rfl, hg⟩⟩ := realloc_replaces ho os ha hn' hgrows
      · exact ⟨h', r, e, .inl hu⟩
      · refine ⟨h', _, e, .inr ⟨b, rfl, fun hc => ?_⟩⟩
        have hrep := hg (hc a ha rfl)
        rw [resized_block hrep.size]
        exact .replace hrep
  rw [e]
  rcases hr with ⟨rfl, hu⟩ | ⟨b, rfl, hok⟩
  · refine ⟨_, ?_, release_spec (c := .reallocf p n os) hi hu hl⟩
    by_cases h0 : n = 0
    · have hp : p = 0 := by tauto
      simp [h0, hp, World.resized, Call.arg, Heap.free]
    · simp [h0, World.resized, Call.arg]
  · exact ⟨_, by simp, hok⟩

theorem recallocarray_spec (hi : w.Inv) (os : Sbrk) (p k s : ℕ)
    (hl : p = 0 ∨ ∃ a ∈ w.live, a.ptr = p) (hg : os.Grows (k * s)) :
    ∃ w', w.exec (.recallocarray p k s os) = some w' ∧
      ((Call.recallocarray p k s os).Clear w → StepOk w (.recallocarray p k s os) w') := by
  obtain ⟨A, ho⟩ := id hi
  by_cases hov : s ≠ 0 ∧ SIZE_MAX / s < k
  · have hn : k * s ≠ 0 := ne_of_gt (Nat.zero_lt_of_lt (overflow_iff.1 hov))
    refine ⟨_, ?_, fun _ => .idle hi (.noMem w.heap)⟩
    rw [World.exec, Heap.recallocarray, if_pos hov]
    exact congrArg some (resized_zero hn)
  rcases hl with rfl | ⟨a, ha, rfl⟩
  · obtain ⟨w', hw', hok⟩ := alloc_spec (c := .recallocarray 0 k s os) hi (calloc_owns ho os k s hg)
    refine ⟨w', ?_, fun _ => hok⟩
    rw [World.exec, Heap.recallocarray, if_neg hov, if_pos rfl]
    exact hw'
  · by_cases hn : k * s = 0
    · have h0 : a.ptr ≠ 0 := ho.ptr_ne_zero ha
      refine ⟨_, ?_, release_spec (c := .recallocarray a.ptr k s os) hi (.refl _)
        (Or.inr ⟨a, ha, rfl⟩)⟩
      rw [World.exec, Heap.recallocarray, if_neg hov]
      simp only [if_neg h0, hn]
      rfl
    · have hle : k * s ≤ SIZE_MAX := not_lt.1 (mt overflow_iff.2 hov)
      exact resize_spec (c := .recallocarray a.ptr k s os) hi rfl ha hn
        (recallocarray_replaces ho os ha hle hn hg)

theorem aligned_spec (hi : w.Inv) (hc : c.entry = .posixMemalign ∨ c.entry = .alignedAlloc)
    {al : ℕ} {h' : Heap} {p : ℕ}
    (hx : (p = 0 ∧ Unchanged w.heap h') ∨
        ∃ b, p ≠ 0 ∧ Aligns c.os w.heap w.live al c.request h' p b) :
    StepOk w c (w.aligned al c.request c.os (h', p)) := by
  rcases hx with ⟨rfl, hu⟩ | ⟨b, hp, ha⟩
  · exact .idle hi hu
  · have hb : w.memalignBlock al c.request c.os = b.addr := by
      obtain ⟨h₀, e⟩ := ha.malloc
      simp [World.memalignBlock, e]
    rw [World.aligned, if_neg hp, hb]
    exact .align hc ha

theorem store_spec (hi : w.Inv) {x : ℕ} {v : UInt8}
    (hl : ∃ a ∈ w.live, a.ptr ≤ x ∧ x < a.ptr + a.size) :
    StepOk w (.store x v)
      { w with heap := { w.heap with mem := Function.update w.heap.mem x v } } := by
  obtain ⟨A, ho⟩ := hi
  obtain ⟨A', -, ho'⟩ := ho.store v hl
  exact ⟨⟨A', ho'⟩, .of_quiet ⟨rfl, rfl, [], rfl, by simp⟩, fun _ h => .inl h, fun _ h => .inl h⟩

/-- **Every legal call returns**, whatever it asks of the system. -/
theorem exec_returns (hi : w.Inv) (hl : c.Legal w) : ∃ w', w.exec c = some w' := by
  obtain ⟨A, ho⟩ := hi
  have hmalloc (n : ℕ) := malloc_returns ho.rep c.os n
  have hrealloc (n : ℕ) := realloc_returns ho.rep c.os c.arg n
  cases c with
  | malloc n os =>
    obtain ⟨x, hx⟩ := hmalloc n
    exact ⟨_, congrArg (Option.map _) hx⟩
  | calloc k s os =>
    obtain ⟨x, hx⟩ := hmalloc (k * s)
    simp only [Call.os] at hx
    simp only [World.exec, Heap.calloc, hx]
    split_ifs <;> exact ⟨_, rfl⟩
  | realloc p n os =>
    obtain ⟨x, hx⟩ := hrealloc n
    exact ⟨_, congrArg (Option.map _) hx⟩
  | reallocf p n os =>
    obtain ⟨x, hx⟩ := hrealloc n
    simp only [Call.os, Call.arg] at hx
    simp only [World.exec, Heap.reallocf, hx]
    split_ifs <;> exact ⟨_, rfl⟩
  | reallocarray p k s os =>
    obtain ⟨x, hx⟩ := hrealloc (k * s)
    simp only [Call.os, Call.arg] at hx
    simp only [World.exec, Heap.reallocarray, hx]
    split_ifs <;> exact ⟨_, rfl⟩
  | recallocarray p k s os =>
    obtain ⟨x, hx⟩ := hmalloc (k * s)
    obtain ⟨y, hy⟩ := realloc_returns (ho.peek p).rep os p (k * s)
    simp only [Call.os] at hx
    simp only [Heap.peek] at hy
    simp only [World.exec, Heap.recallocarray, Heap.calloc, hx, hy]
    split_ifs <;> exact ⟨_, rfl⟩
  | posixMemalign al n os =>
    obtain ⟨x, hx⟩ := hmalloc (memalignTotal al n)
    simp only [Call.os] at hx
    simp only [World.exec, Heap.posixMemalign, hx]
    split_ifs <;> exact ⟨_, rfl⟩
  | alignedAlloc al n os =>
    obtain ⟨x, hx⟩ := hmalloc (memalignTotal al n)
    simp only [Call.os] at hx
    simp only [World.exec, Heap.alignedAlloc, Heap.posixMemalign, hx, if_neg hl]
    split_ifs <;> exact ⟨_, rfl⟩
  | free p => exact ⟨_, rfl⟩
  | store x v => exact ⟨_, rfl⟩

/-- **One legal call** that grows the heap, if it moves the break. If it is clear, it keeps the
invariant. -/
theorem exec_spec (hi : w.Inv) (hl : c.Legal w) (hg : c.Grows) :
    ∃ w', w.exec c = some w' ∧ (c.Clear w → StepOk w c w') := by
  obtain ⟨A, ho⟩ := id hi
  cases c with
  | malloc n os =>
    obtain ⟨w', hw', hok⟩ := alloc_spec (c := .malloc n os) hi (malloc_owns ho os n hg)
    exact ⟨w', hw', fun _ => hok⟩
  | calloc k s os =>
    obtain ⟨w', hw', hok⟩ := alloc_spec (c := .calloc k s os) hi (calloc_owns ho os k s hg)
    exact ⟨w', hw', fun _ => hok⟩
  | realloc p n os => exact realloc_spec hi os p n rfl rfl rfl hl hg
  | reallocf p n os => exact reallocf_spec hi os p n hl hg
  | reallocarray p k s os =>
    by_cases hov : s ≠ 0 ∧ SIZE_MAX / s < k
    · have hn : k * s ≠ 0 := ne_of_gt (Nat.zero_lt_of_lt (overflow_iff.1 hov))
      refine ⟨_, ?_, fun _ => .idle hi (.noMem w.heap)⟩
      rw [World.exec, Heap.reallocarray, if_pos hov]
      exact congrArg some (resized_zero hn)
    · rw [World.exec, Heap.reallocarray, if_neg hov]
      exact realloc_spec hi os p (k * s) rfl rfl rfl hl hg
  | recallocarray p k s os => exact recallocarray_spec hi os p k s hl hg
  | posixMemalign al n os =>
    obtain ⟨h', rc, ptr, e, hx⟩ := posixMemalign_owns ho os al n hg
    refine ⟨_, by rw [World.exec, e]; rfl, fun _ => aligned_spec hi (Or.inl rfl) ?_⟩
    rcases hx with ⟨-, rfl, hu⟩ | ⟨p, b, -, rfl, hp, ha⟩
    · exact .inl ⟨rfl, hu⟩
    · exact .inr ⟨b, hp, ha⟩
  | alignedAlloc al n os =>
    obtain ⟨h', r, e, hx⟩ := alignedAlloc_owns ho os hl n hg
    exact ⟨_, by rw [World.exec, e]; rfl, fun _ => aligned_spec hi (Or.inr rfl) hx⟩
  | free p => exact ⟨_, rfl, release_spec hi (.refl _) hl⟩
  | store x v => exact ⟨_, rfl, fun _ => store_spec hi hl⟩

/-! ## Runs -/

/-- One legal call in `P`. -/
def Step (P : World → Call → Prop) (w w' : World) : Prop :=
  ∃ c : Call, c.Legal w ∧ P w c ∧ w.exec c = some w'

/-- Any number of legal calls in `P`. -/
def Runs (P : World → Call → Prop) : World → World → Prop := Relation.ReflTransGen (Step P)

/-- A process that has just started, with the break at `brk`. -/
def World.boot (m : Mem) (brk : ℕ) : World := ⟨⟨m, 0, -1, 0, brk, [], []⟩, [], []⟩

theorem World.boot_start {m : Mem} {brk : ℕ} (h : 0 < brk) (h' : brk < 2 ^ 64) :
    (World.boot m brk).Start :=
  ⟨rfl, rfl, rfl, h, h', rfl, rfl⟩

theorem World.Start.inv (hs : w.Start) : w.Inv := by
  refine ⟨.empty, ⟨?_, by simp [Blocks.empty, Blocks.all], by simp [Blocks.empty, Blocks.all],
    hs.brk_pos, hs.brk_lt, ?_⟩, ?_⟩
  · exact hs.freeList
  · rw [hs.grants]
    exact .nil
  · rw [hs.live]
    exact .nil

/-- Make the calls of a list, as long as they are legal and in `P`. -/
def World.play (P : World → Call → Prop) [∀ w c, Decidable (P w c)] (w : World) :
    List Call → Option World
  | [] => some w
  | c :: cs =>
    if c.Legal w ∧ P w c then (w.exec c).elim none fun w' => w'.play P cs
    else none

variable {P : World → Call → Prop}

theorem Runs.of_play [∀ w c, Decidable (P w c)] {cs : List Call}
    (h : w.play P cs = some w') : Runs P w w' := by
  induction cs generalizing w with
  | nil => exact some.inj h ▸ .refl
  | cons c cs ih =>
    rw [World.play] at h
    split_ifs at h with hc
    rcases e : w.exec c with _ | w₁
    · simp [e] at h
    · rw [e] at h
      exact .head ⟨c, hc.1, hc.2, e⟩ (ih h)

theorem Runs.of_play_map {β : Type*} (P : World → Call → Prop) [∀ w c, Decidable (P w c)]
    (w : World) (cs : List Call) (f : World → β) {x : β} (h : (w.play P cs).map f = some x) :
    ∃ w', Runs P w w' ∧ f w' = x := by
  obtain ⟨w', e, hx⟩ := map_eq_some_iff.1 h
  exact ⟨w', .of_play e, hx⟩

/-- **The rule for runs.** A property that makes the calls in `P` clear and that such calls keep
holds in every world reached, and so does the invariant. -/
theorem Runs.induct {I : World → Prop} (hr : Runs P w w')
    (hi : w.Inv) (h0 : I w) (hgrows : ∀ v c, P v c → c.Grows)
    (hclear : ∀ v c, I v → P v c → c.Clear v)
    (hstep : ∀ v c v', I v → P v c → StepOk v c v' → I v') : w'.Inv ∧ I w' := by
  induction hr with
  | refl => exact ⟨hi, h0⟩
  | @tail v v' _ hs ih =>
    obtain ⟨c, hl, hP, e⟩ := hs
    obtain ⟨v'', e', hok⟩ := exec_spec ih.1 hl (hgrows v c hP)
    obtain rfl : v' = v'' := some.inj (e.symm.trans e')
    have hok' := hok (hclear v c ih.2 hP)
    exact ⟨hok'.inv, hstep v c v' ih.2 hP hok'⟩

/-- What holds of every allocation that the calls in `P` make holds of all live allocations of a
run, if it makes these calls clear. -/
theorem Runs.forall_live {Q : Alloc → Prop} (hr : Runs P w w')
    (hs : w.Start) (hgrows : ∀ v c, P v c → c.Grows)
    (hnew : ∀ v c (a : Alloc), P v c → a.size = c.request →
      (a.kind = .plain ∨ c.entry = .posixMemalign ∨ c.entry = .alignedAlloc) → Q a)
    (hclear : ∀ v c, (∀ a ∈ v.live, Q a) → P v c → c.Clear v) :
    w'.Inv ∧ ∀ a ∈ w'.live, Q a := by
  refine hr.induct (I := fun v => ∀ a ∈ v.live, Q a) hs.inv (by simp [hs.live]) hgrows hclear
    fun v c v' hv hc hok a ha => ?_
  rcases hok.live a ha with h | ⟨h₁, h₂⟩
  · exact hv a h
  · exact hnew v c a hc h₁ h₂

theorem plain_of_entry {a : Alloc} {l : List Entry} (hc : c.entry ∈ l)
    (hl : Entry.posixMemalign ∉ l ∧ Entry.alignedAlloc ∉ l)
    (h : a.kind = .plain ∨ c.entry = .posixMemalign ∨ c.entry = .alignedAlloc) :
    a.kind = .plain := by
  rcases h with h | h | h
  · exact h
  · exact absurd (h ▸ hc) hl.1
  · exact absurd (h ▸ hc) hl.2

/-- All functions, each called with an allocation of unmistakable kind, and without a request that
makes the system lower the break. -/
def ClearCalls (w : World) (c : Call) : Prop := c.Clear w ∧ c.Grows

instance (w : World) (c : Call) : Decidable (ClearCalls w c) := inferInstanceAs (Decidable (_ ∧ _))

theorem Runs.inv (hr : Runs ClearCalls w w') (hi : w.Inv) : w'.Inv :=
  (hr.induct (I := fun _ => True) hi trivial (fun _ _ h => h.2) (fun _ _ _ h => h.1)
    fun _ _ _ _ _ _ => trivial).1

/-- **In every heap a client can reach, `calloc` returns**: it fails and leaves the heap alone, or it
adds one allocation, all zero, and keeps those that are live. -/
theorem calloc_clean (hs : w.Start) (hr : Runs ClearCalls w w') (os : Sbrk) (k s : ℕ)
    (hgrows : os.Grows (k * s)) :
    ∃ h r, w'.heap.calloc os k s = some (h, r) ∧
      (r = 0 ∧ Unchanged w'.heap h ∨ ∃ b, r = b.addr + 16 ∧
        Gains os w'.heap w'.live (k * s) h b ∧ ∀ i < k * s, h.mem (r + i) = 0) := by
  obtain ⟨A, ho⟩ := hr.inv hs.inv
  obtain ⟨h, r, e, hfail | ⟨b, rfl, hg⟩⟩ := calloc_owns ho os k s hgrows
  · exact ⟨h, r, e, .inl hfail⟩
  · exact ⟨h, _, e, .inr ⟨b, rfl, hg, fun i hi => calloc_zero e (by omega) hg.end_lt hi⟩⟩

theorem calloc_clean_boot : Sbrk.Grows ⟨true, some 0⟩ (2 * 4) ∧
    ∃ h r, (World.boot (fun _ => 0xA5) 4096).heap.calloc ⟨true, some 0⟩ 2 4 = some (h, r) ∧
      (r = 0 ∧ Unchanged (World.boot (fun _ => 0xA5) 4096).heap h ∨ ∃ b, r = b.addr + 16 ∧
        Gains ⟨true, some 0⟩ (World.boot (fun _ => 0xA5) 4096).heap [] 8 h b ∧
        ∀ i < 8, h.mem (r + i) = 0) :=
  ⟨by decide, calloc_clean (World.boot_start (by decide) (by decide)) .refl ⟨true, some 0⟩ 2 4
    (by decide)⟩

end Vlibc.Memory
