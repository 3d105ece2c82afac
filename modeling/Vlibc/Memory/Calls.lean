import Vlibc.Memory.Owns
import Vlibc.Foundations.Align

/-!
# The functions over `malloc` and `free`

A call fails and leaves memory and free list alone (`Unchanged`), or it ends with one more plain
allocation (`Gains`), one more aligned allocation (`Aligns`), or a plain allocation in the place of
another (`Replaces`).
-/

namespace Vlibc.Memory

open ByteMemory List Memory.Heap

variable {os : Sbrk} {h h' : Heap} {A : Blocks} {live : List Alloc} {a : Alloc} {n p r : ℕ}

/-- A failed call: memory and free list are as before. -/
structure Unchanged (h h' : Heap) : Prop where
  mem : h'.mem = h.mem
  freeList : h'.freeList = h.freeList
  quiet : Quiet h h'

theorem Unchanged.refl (h : Heap) : Unchanged h h := ⟨rfl, rfl, .refl h⟩

theorem Unchanged.noMem (h : Heap) : Unchanged h h.noMem.1 :=
  ⟨rfl, rfl, rfl, rfl, ⟨[], rfl, by simp⟩⟩

theorem Unchanged.owns (hu : Unchanged h h') (ho : Owns h A live) : Owns h' A live :=
  ⟨ho.rep.of_headers (fun _ _ _ _ _ => by rw [hu.mem]) hu.freeList hu.quiet.brk hu.quiet.grants,
    hu.mem ▸ ho.held⟩

/-- A call that obtained the plain allocation `b` of `n` bytes. -/
structure Gains (os : Sbrk) (h : Heap) (live : List Alloc) (n : ℕ) (h' : Heap) (b : Block) :
    Prop where
  size : b.size = n
  owns : ∃ A, Owns h' A (b.alloc :: live)
  kept : ∀ c ∈ live, c.Kept h.mem h'.mem
  evolves : Evolves os h h'

theorem Owns.ptr_ne_zero (ho : Owns h A live) (ha : a ∈ live) : a.ptr ≠ 0 := by
  obtain ⟨b, -, hb⟩ := ho.exists_block ha
  have := hb.le_ptr
  omega

variable {k s : ℕ}

theorem overflow_iff : (s ≠ 0 ∧ SIZE_MAX / s < k) ↔ SIZE_MAX < k * s := by
  rcases Nat.eq_zero_or_pos s with rfl | hs
  · simp
  · rw [Nat.div_lt_iff_lt_mul hs]
    exact and_iff_right hs.ne'

theorem malloc_owns (ho : Owns h A live) (os : Sbrk) (n : ℕ) (hg : os.Grows n) :
    ∃ h' r, h.malloc os n = some (h', r) ∧
      ((r = 0 ∧ Unchanged h h') ∨ ∃ b, r = b.addr + 16 ∧ Gains os h live n h' b) := by
  obtain ⟨h', r, e, hout⟩ := malloc_cases ho.rep os n hg
  refine ⟨h', r, e, ?_⟩
  by_cases hr0 : r = 0
  · subst hr0
    obtain ⟨hm, hf, hq⟩ := hout.of_zero ho.rep
    exact .inl ⟨rfl, hm, hf, hq⟩
  · obtain ⟨A', b, hob, rfl⟩ := hout.of_ne_zero ho.rep hr0
    obtain ⟨ho', hk⟩ := ho.gain hob
    exact .inr ⟨b, rfl, hob.size, ⟨A', ho'⟩, hk, hob.evolves⟩

variable {b : Block}

/-- An allocation ends below the end of the address space. -/
theorem Owns.end_lt (ho : Owns h A (b.alloc :: live)) (hn : b.size = n) :
    b.addr + 16 + n < 2 ^ 64 := by
  obtain ⟨c, hc, hon⟩ := ho.exists_block mem_cons_self
  have heq : b.alloc = c.alloc := hon.eq_alloc rfl
  have haddr : b.addr = c.addr := congrArg Alloc.block heq
  have hsize : b.size = c.size := congrArg Alloc.size heq
  have hall : c ∈ A.all := Blocks.mem_all.2 (Or.inr hc)
  have hfit := (A.fits c hall).2
  have hbelow := ho.rep.below c hall
  have hlt := ho.rep.brk_lt
  omega

theorem Gains.end_lt (hg : Gains os h live n h' b) : b.addr + 16 + n < 2 ^ 64 := by
  obtain ⟨A, ho⟩ := hg.owns
  exact ho.end_lt hg.size

theorem Gains.fill (hg : Gains os h live n h' b) {m : Mem}
    (hm : ∀ x, x < b.addr + 16 ∨ b.addr + 16 + n ≤ x → m x = h'.mem x) :
    Gains os h live n { h' with mem := m } b := by
  obtain ⟨hsize, ⟨A', ho⟩, hk, he⟩ := hg
  obtain ⟨ho', hk'⟩ : Owns { h' with mem := m } A' (b.alloc :: live) ∧
      ∀ c ∈ live, c.Kept h'.mem m :=
    ho.write (fun x hx => hm x (by simpa [hsize] using hx)) rfl rfl rfl
  exact ⟨hsize, ⟨A', ho'⟩, fun c hc => (hk c hc).trans (hk' c hc),
    he.quiet_right ⟨rfl, rfl, [], rfl, by simp⟩⟩

theorem calloc_owns (ho : Owns h A live) (os : Sbrk) (k s : ℕ) (hg : os.Grows (k * s)) :
    ∃ h' r, h.calloc os k s = some (h', r) ∧
      ((r = 0 ∧ Unchanged h h') ∨ ∃ b, r = b.addr + 16 ∧ Gains os h live (k * s) h' b) := by
  rw [calloc]
  split_ifs with hov
  · exact ⟨_, _, rfl, .inl ⟨rfl, .noMem h⟩⟩
  obtain ⟨h', r, e, ⟨rfl, hu⟩ | ⟨b, rfl, hgain⟩⟩ := malloc_owns ho os (k * s) hg
  · exact ⟨h', 0, by simp [e], .inl ⟨rfl, hu⟩⟩
  · refine ⟨_, b.addr + 16, by simp only [e]; rfl, .inr ⟨b, rfl, hgain.fill fun x hx => ?_⟩⟩
    rw [vmemset_eq _ _ hgain.end_lt, patch_of_not _ _ _ _ hx]

theorem calloc_zero (e : h.calloc os k s = some (h', r)) (hr : r ≠ 0) (hlt : r + k * s < 2 ^ 64)
    {i : ℕ} (hi : i < k * s) : h'.mem (r + i) = 0 := by
  rw [calloc] at e
  split at e
  · cases e
    exact absurd rfl hr
  · dsimp only at e
    split at e
    · cases e
    · split at e <;> cases e
      · exact absurd rfl hr
      · exact vmemset_add _ _ hlt hi

/-- The heap as `realloc` finds it after looking at the record in front of `p`. -/
def Heap.peek (h : Heap) (p : ℕ) : Heap := { h with log := .header (hdrOf p) :: h.log }

theorem Owns.peek (ho : Owns h A live) (p : ℕ) : Owns (h.peek p) A live :=
  ⟨ho.rep.of_log _, ho.held⟩

theorem Owns.quiet_peek (ho : Owns h A live) (ha : a ∈ live) : Quiet h (h.peek a.ptr) := by
  obtain ⟨e, hp⟩ := ho.proper_hdr ha
  refine ⟨rfl, rfl, [.header (hdrOf a.ptr)], rfl, fun x hx => ?_⟩
  rw [mem_singleton.1 hx, e]
  exact hp

/-- **What `realloc` does** with a pointer and a size: it fails, or obtains a block, copies as many
bytes as the record in front of the pointer and the new size allow, and frees the pointer. -/
theorem realloc_cases (hr : Rep h A) (os : Sbrk) (hp : p ≠ 0) (hn : n ≠ 0) (hg : os.Grows n) :
    ∃ h' r, h.realloc os p n = some (h', r) ∧
      ((r = 0 ∧ Unchanged (h.peek p) h') ∨
        ∃ h₀ A₀ b, Obtained os (h.peek p) A n h₀ A₀ b ∧ r = b.addr + 16 ∧
          h' = (h₀.copy r p (min (sizeAt h.mem (hdrOf p)) n)).free p) := by
  have hr' : Rep (h.peek p) A := hr.of_log _
  have hmin : (if sizeAt h.mem (hdrOf p) < n then sizeAt h.mem (hdrOf p) else n) =
      min (sizeAt h.mem (hdrOf p)) n := by
    split_ifs <;> omega
  obtain ⟨h₀, r, e, hout⟩ := malloc_cases hr' os n hg
  simp only [realloc, if_neg hp, if_neg hn, hmin]
  rw [show malloc os { h with log := .header (hdrOf p) :: h.log } n = some (h₀, r) from e]
  by_cases hr0 : r = 0
  · subst hr0
    obtain ⟨hm, hf, hq⟩ := hout.of_zero hr'
    exact ⟨h₀, 0, by simp, .inl ⟨rfl, hm, hf, hq⟩⟩
  · obtain ⟨A₀, b, hob, rfl⟩ := hout.of_ne_zero hr' hr0
    exact ⟨_, _, if_neg hr0, .inr ⟨h₀, A₀, b, hob, rfl, rfl⟩⟩

/-- The new block before the old pointer is released: it is the new owner's, whatever the copy
has put there. -/
theorem Obtained.gains_copy {h₀ : Heap} {A₀ : Blocks} (ho : Owns h A live)
    (ha : a ∈ live) (hob : Obtained os (h.peek a.ptr) A n h₀ A₀ b) {k : ℕ} (hk : k ≤ n) :
    Gains os h live n (h₀.copy (b.addr + 16) a.ptr k) b := by
  have hp := ho.peek a.ptr
  obtain ⟨ho', hkept⟩ := hp.gain hob
  have hg : Gains os h live n h₀ b :=
    ⟨hob.size, ⟨A₀, ho'⟩, hkept, .quiet_left (ho.quiet_peek ha) hob.evolves⟩
  obtain ⟨hs, ⟨A₁, ho₁⟩, hk₁, he₁⟩ := hg.fill (m := vmemcpy h₀.mem (b.addr + 16) a.ptr k)
    fun x hx => copyUp_of_not _ _ _ _ (by omega)
  refine ⟨hs, ⟨A₁, ho₁.rep.of_log _, ho₁.held⟩, hk₁, he₁.quiet_right ⟨rfl, rfl, ?_⟩⟩
  exact ⟨[.copy a.ptr k], rfl, by simp [Proper]⟩

theorem realloc_owns (ho : Owns h A live) (os : Sbrk) (ha : a ∈ live) (hn : n ≠ 0)
    (hg : os.Grows n) :
    ∃ h' r, h.realloc os a.ptr n = some (h', r) ∧
      ((r = 0 ∧ Unchanged h h') ∨
        ∃ h₁ b, r = b.addr + 16 ∧ Gains os h live n h₁ b ∧ h' = h₁.free a.ptr) := by
  obtain ⟨h', r, e, ⟨rfl, hu⟩ | ⟨h₀, A₀, b, hob, rfl, rfl⟩⟩ :=
    realloc_cases ho.rep os (ho.ptr_ne_zero ha) hn hg
  · exact ⟨h', 0, e, .inl ⟨rfl, hu.mem, hu.freeList, (ho.quiet_peek ha).trans hu.quiet⟩⟩
  · exact ⟨_, _, e, .inr ⟨_, b, rfl, hob.gains_copy ho ha (min_le_right _ _), rfl⟩⟩

theorem realloc_returns (hr : Rep h A) (os : Sbrk) (p n : ℕ) : ∃ x, h.realloc os p n = some x := by
  obtain ⟨x, hx⟩ := malloc_returns hr os n
  obtain ⟨y, hy⟩ := malloc_returns (hr.of_log (.header (hdrOf p) :: h.log)) os n
  simp only [realloc, hx, hy]
  split_ifs <;> exact ⟨_, rfl⟩

/-! ## Releasing -/

theorem Owns.free (ho : Owns h A live) (ha : a ∈ live) (hu : a.Unconfused) :
    ∃ A' b, A'.free = b :: A.free ∧ A'.all.Perm A.all ∧ b.addr = a.block ∧
      Owns (h.free a.ptr) A' (dropPtr live a.ptr) ∧
      (∀ c ∈ dropPtr live a.ptr, c.Kept h.mem (h.free a.ptr).mem) ∧ Quiet h (h.free a.ptr) := by
  obtain ⟨A₁, hf, hp, ho₁⟩ := ho.focus ha
  obtain ⟨b, rest, e, hb⟩ := ho₁.cons_inv
  obtain ⟨ho₂, hk, hq⟩ := ho₁.release e hu
  refine ⟨A₁.release e, b, by rw [← hf]; rfl, ?_, hb.block_eq.symm, ho₂, hk, hq⟩
  rw [e] at hp
  simp only [Blocks.all, Blocks.release, hf]
  exact List.perm_middle.symm.trans (hp.append_left _)

/-- A call that put the plain allocation `b` of `n` bytes in the place of `a`, whose block is now
free. -/
structure Replaces (os : Sbrk) (h : Heap) (live : List Alloc) (a : Alloc) (n : ℕ) (h' : Heap)
    (b : Block) : Prop where
  size : b.size = n
  owns : ∃ A c, c ∈ A.free ∧ c.addr = a.block ∧ Owns h' A (b.alloc :: dropPtr live a.ptr)
  kept : ∀ c ∈ dropPtr live a.ptr, c.Kept h.mem h'.mem
  evolves : Evolves os h h'

theorem Replaces.end_lt (hr : Replaces os h live a n h' b) : b.addr + 16 + n < 2 ^ 64 := by
  obtain ⟨A, c, -, -, ho⟩ := hr.owns
  exact ho.end_lt hr.size

theorem Gains.release {h₁ : Heap} (hg : Gains os h live n h₁ b) (ha : a ∈ live)
    (hu : a.Unconfused) :
    Replaces os h live a n (h₁.free a.ptr) b ∧ b.alloc.Kept h₁.mem (h₁.free a.ptr).mem := by
  obtain ⟨hs, ⟨A₁, ho₁⟩, hk₁, he⟩ := hg
  have hne : b.alloc.ptr ≠ a.ptr := (ho₁.ptr_ne ha).symm
  have hdrop : dropPtr (b.alloc :: live) a.ptr = b.alloc :: dropPtr live a.ptr := by
    simp only [dropPtr, filter_cons, hne, ne_eq, not_false_eq_true, decide_true, if_true]
  obtain ⟨A', c, hf, -, hc, ho₂, hk₂, hq⟩ := ho₁.free (mem_cons_of_mem _ ha) hu
  rw [hdrop] at ho₂ hk₂
  refine ⟨⟨hs, ⟨A', c, by simp [hf], hc, ho₂⟩, fun d hd => ?_, he.quiet_right hq⟩,
    hk₂ _ mem_cons_self⟩
  exact (hk₁ d (mem_dropPtr.1 hd).1).trans (hk₂ d (mem_cons_of_mem _ hd))

theorem Replaces.fill (hr : Replaces os h live a n h' b) {m : Mem}
    (hm : ∀ x, x < b.addr + 16 ∨ b.addr + 16 + n ≤ x → m x = h'.mem x) :
    Replaces os h live a n { h' with mem := m } b := by
  obtain ⟨hs, ⟨A, c, hc, hca, ho⟩, hk, he⟩ := hr
  obtain ⟨ho', hk'⟩ : Owns { h' with mem := m } A (b.alloc :: dropPtr live a.ptr) ∧
      ∀ c ∈ dropPtr live a.ptr, c.Kept h'.mem m :=
    ho.write (fun x hx => hm x (by simpa [hs] using hx)) rfl rfl rfl
  exact ⟨hs, ⟨A, c, hc, hca, ho'⟩, fun d hd => (hk d hd).trans (hk' d hd),
    he.quiet_right ⟨rfl, rfl, [], rfl, by simp⟩⟩

theorem Replaces.of_peek (ho : Owns h A live) (ha : a ∈ live)
    (hr : Replaces os (h.peek a.ptr) live a n h' b) : Replaces os h live a n h' b :=
  ⟨hr.size, hr.owns, hr.kept, .quiet_left (ho.quiet_peek ha) hr.evolves⟩

theorem realloc_replaces (ho : Owns h A live) (os : Sbrk) (ha : a ∈ live) (hn : n ≠ 0)
    (hg : os.Grows n) :
    ∃ h' r, h.realloc os a.ptr n = some (h', r) ∧
      ((r = 0 ∧ Unchanged h h') ∨
        ∃ b, r = b.addr + 16 ∧ (a.Unconfused → Replaces os h live a n h' b)) := by
  obtain ⟨h', r, e, hu | ⟨h₁, b, rfl, hgain, rfl⟩⟩ := realloc_owns ho os ha hn hg
  · exact ⟨h', r, e, .inl hu⟩
  · exact ⟨_, _, e, .inr ⟨b, rfl, fun hu => (hgain.release ha hu).1⟩⟩

/-- **What `recallocarray` does** with a live pointer: the `realloc`, and zeros from the recorded
old size on. -/
theorem recallocarray_eq (ho : Owns h A live) (os : Sbrk) (ha : a ∈ live)
    (hov : k * s ≤ SIZE_MAX) (hn : k * s ≠ 0) :
    h.recallocarray os a.ptr k s =
      (Heap.realloc os (h.peek a.ptr) a.ptr (k * s)).map fun x =>
        if x.2 = 0 then x
        else (x.1.zero (x.2 + sizeAt h.mem (hdrOf a.ptr)) (k * s - sizeAt h.mem (hdrOf a.ptr)),
          x.2) := by
  have hk : ¬ (s ≠ 0 ∧ SIZE_MAX / s < k) := fun hk => by
    have := overflow_iff.1 hk
    omega
  simp only [recallocarray, if_neg hk, if_neg (ho.ptr_ne_zero ha), if_neg hn]
  rw [show realloc os { h with log := .header (hdrOf a.ptr) :: h.log } a.ptr (k * s) =
    realloc os (h.peek a.ptr) a.ptr (k * s) from rfl]
  rcases realloc os (h.peek a.ptr) a.ptr (k * s) with _ | ⟨h', r⟩
  · rfl
  · by_cases hr : r = 0
    · simp [hr]
    · simp only [Option.map_some, if_neg hr]
      split_ifs with hlt
      · rfl
      · rw [Nat.sub_eq_zero_of_le (not_lt.1 hlt)]
        rfl

theorem recallocarray_replaces (ho : Owns h A live) (os : Sbrk) (ha : a ∈ live)
    (hov : k * s ≤ SIZE_MAX) (hn : k * s ≠ 0) (hg : os.Grows (k * s)) :
    ∃ h' r, h.recallocarray os a.ptr k s = some (h', r) ∧
      ((r = 0 ∧ Unchanged h h') ∨
        ∃ b, r = b.addr + 16 ∧ (a.Unconfused → Replaces os h live a (k * s) h' b)) := by
  rw [recallocarray_eq ho os ha hov hn]
  obtain ⟨h', r, e, ⟨rfl, hu⟩ | ⟨b, rfl, hrep⟩⟩ :=
    realloc_replaces (ho.peek a.ptr) os ha hn hg
  · refine ⟨h', 0, by rw [e]; simp, .inl ⟨rfl, hu.mem, hu.freeList, ?_⟩⟩
    exact (ho.quiet_peek ha).trans hu.quiet
  · have hb0 : b.addr + 16 ≠ 0 := by omega
    refine ⟨_, _, by rw [e]; exact congrArg some (if_neg hb0), .inr ⟨b, rfl, fun hu => ?_⟩⟩
    have hreplaces := (hrep hu).of_peek ho ha
    have hend := hreplaces.end_lt
    refine hreplaces.fill fun x hx => ?_
    exact vmemset_rest_of_not _ _ hend (by omega)

/-! ## `posix_memalign` -/

/-- A call that obtained an allocation of `n` bytes at `p`, aligned to `al`, in the payload of the
block that `malloc` gave for the padded request. -/
structure Aligns (os : Sbrk) (h : Heap) (live : List Alloc) (al n : ℕ) (h' : Heap) (p : ℕ)
    (b : Block) : Prop where
  malloc : ∃ h₀, h.malloc os (memalignTotal al n) = some (h₀, b.addr + 16)
  owns : ∃ A, Owns h' A (⟨p, n, b.addr, .aligned al⟩ :: live)
  kept : ∀ c ∈ live, c.Kept h.mem h'.mem
  evolves : Evolves os h h'

/-- Where the aligned pointer lands: a multiple of the alignment, with room for the alignment
header below it and for the payload above it. -/
theorem alignedAddr_spec (orig : ℕ) {al n : ℕ} (hal : al ≠ 0) (hand : al &&& (al - 1) = 0)
    (hlt : orig + memalignTotal al n < 2 ^ 64) :
    al ∣ alignedAddr orig al ∧ orig + 16 ≤ alignedAddr orig al ∧
      alignedAddr orig al + n ≤ orig + memalignTotal al n := by
  have hal' : 0 < al := pos_of_ne_zero hal
  unfold memalignTotal at hlt ⊢
  obtain ⟨h₁, h₂, h₃⟩ := Align.roundUp_spec (w := 64) (a := orig + 16) hal hand (by omega)
  change alignedAddr orig al < orig + 16 + al at h₃
  exact ⟨h₁, h₂, by omega⟩

theorem Gains.align {al : ℕ} {h₁ : Heap}
    (hg : Gains os h live (memalignTotal al n) h₁ b)
    (he : h.malloc os (memalignTotal al n) = some (h₁, b.addr + 16)) (hal : al ≠ 0)
    (hand : al &&& (al - 1) = 0) (h8 : al % 8 = 0) (hp : p = alignedAddr (b.addr + 16) al)
    (hm : h'.mem = storeLE (storeLE h₁.mem (hdrOf p) 4 posixAlignMagic) (hdrOf p + 8) 8
      (b.addr + 16))
    (hf : h'.freeList = h₁.freeList) (hb : h'.brk = h₁.brk) (hgr : h'.grants = h₁.grants)
    (hl : h'.log = .header (hdrOf p) :: h₁.log) :
    Aligns os h live al n h' p b ∧ p ≠ 0 := by
  obtain ⟨hs, ⟨A, ho⟩, hk, hev⟩ := hg
  obtain ⟨c, rest, eu, hon⟩ := ho.cons_inv
  have hc : b.alloc = c.alloc := hon.eq_alloc rfl
  have haddr : b.addr = c.addr := congrArg Alloc.block hc
  have hsize : c.size = memalignTotal al n := (congrArg Alloc.size hc).symm.trans hs
  have hca : c ∈ A.all := Blocks.mem_all.2 (Or.inr (by simp [eu]))
  have hfit := (A.fits c hca).2
  have hbelow := ho.rep.below c hca
  have hlt := ho.rep.brk_lt
  obtain ⟨hdvd, hlo, hhi⟩ := alignedAddr_spec (b.addr + 16) (n := n) hal hand (by omega)
  rw [← hp] at hdvd hlo hhi
  obtain ⟨q, rfl⟩ := Nat.exists_eq_add_of_le' (show 16 ≤ p by omega)
  rw [hdrOf_add (by omega)] at hm hl
  rw [hc] at ho
  have h8' : 8 ∣ al := Nat.dvd_of_mod_eq_zero h8
  have key : Owns h' A (⟨q + 16, n, b.addr, .aligned al⟩ :: live) ∧
      ∀ d ∈ live, d.Kept h₁.mem h'.mem := by
    rw [haddr] at hm ⊢
    exact ho.align eu h8' hdvd (by omega) (by omega) hm hf hb hgr
  refine ⟨⟨⟨h₁, he⟩, ⟨A, key.1⟩, fun d hd => (hk d hd).trans (key.2 d hd), ?_⟩, by omega⟩
  refine hev.quiet_right ⟨hgr, hb, [.header q], hl, fun e he => ?_⟩
  rw [mem_singleton.1 he]
  exact .inr ((Nat.dvd_add_iff_left (by decide : 8 ∣ 16)).2 (h8'.trans hdvd))

theorem posixMemalign_owns (ho : Owns h A live) (os : Sbrk) (al n : ℕ)
    (hg : os.Grows (memalignTotal al n)) :
    ∃ h' rc ptr, h.posixMemalign os al n = some (h', rc, ptr) ∧
      ((rc ≠ 0 ∧ ptr = none ∧ Unchanged h h') ∨
        ∃ p b, rc = 0 ∧ ptr = some p ∧ p ≠ 0 ∧ Aligns os h live al n h' p b) := by
  rw [posixMemalign]
  split_ifs with h₁ h₂ h₃
  · exact ⟨_, _, _, rfl, .inl ⟨by decide, rfl, .refl h⟩⟩
  · exact ⟨_, _, _, rfl, .inl ⟨by decide, rfl, .refl h⟩⟩
  · exact ⟨_, _, _, rfl, .inl ⟨by decide, rfl, .refl h⟩⟩
  push Not at h₁
  obtain ⟨hal, hand, h8⟩ := h₁
  obtain ⟨h', r, e, ⟨rfl, hu⟩ | ⟨b, rfl, hgain⟩⟩ := malloc_owns ho os (memalignTotal al n) hg
  · exact ⟨h', ENOMEM, none, by simp [e], .inl ⟨by decide, rfl, hu⟩⟩
  · refine ⟨_, 0, some _, by simp only [e]; rfl, .inr ⟨_, b, rfl, rfl, And.symm ?_⟩⟩
    exact hgain.align e hal hand h8 rfl rfl rfl rfl rfl rfl

theorem alignedAlloc_owns (ho : Owns h A live) (os : Sbrk) {al : ℕ} (hal : al ≠ 0) (n : ℕ)
    (hg : os.Grows (memalignTotal al n)) :
    ∃ h' r, h.alignedAlloc os al n = some (h', r) ∧
      ((r = 0 ∧ Unchanged h h') ∨ ∃ b, r ≠ 0 ∧ Aligns os h live al n h' r b) := by
  rw [alignedAlloc, if_neg hal]
  split_ifs with hmod
  · exact ⟨_, _, rfl, .inl ⟨rfl, rfl, rfl, rfl, rfl, [], rfl, by simp⟩⟩
  obtain ⟨h', rc, ptr, e, ⟨hrc, rfl, hu⟩ | ⟨p, b, rfl, rfl, hp, ha⟩⟩ :=
    posixMemalign_owns ho os al n hg
  · refine ⟨{ h' with errno := rc }, 0, by simp [e, hrc], .inl ⟨rfl, hu.mem, hu.freeList, ?_⟩⟩
    exact hu.quiet.trans ⟨rfl, rfl, [], rfl, by simp⟩
  · exact ⟨h', p, by simp [e], .inr ⟨b, hp, ha⟩⟩

end Vlibc.Memory
