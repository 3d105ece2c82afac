import Vlibc.Memory.HeapInvariant

/-!
# What `realloc` moves

A successful `realloc` obtains a block, copies into it and releases the old pointer. `Moves` says
what the new block then holds, for a live allocation of either kind: what the forward copy puts
there, of as many bytes as the record in front of the old pointer says. For plain allocations that
record is the size last asked for, and `realloc` and `recallocarray` preserve contents
(`resize_preserves`).
-/

namespace Vlibc.Memory

open ByteMemory List Memory.Heap

variable {os : Sbrk} {h h' : Heap} {A : Blocks} {live : List Alloc} {a : Alloc} {n r : ℕ}

/-- A successful `realloc` of `a` to `n` bytes; `m₀` is the memory before the copy. -/
structure Moves (os : Sbrk) (h : Heap) (A : Blocks) (live : List Alloc) (a : Alloc) (n : ℕ)
    (h' : Heap) (b : Block) (m₀ : Mem) : Prop where
  replaces : Replaces os h live a n h' b
  apart : ∀ c ∈ A.used, Apart b.addr (16 + n) c.addr (16 + c.cap)
  before : ∀ c ∈ A.used, Kept h.mem m₀ c
  copied : ∀ i < n, h'.mem (b.addr + 16 + i) =
    vmemcpy m₀ (b.addr + 16) a.ptr (min (sizeAt h.mem (hdrOf a.ptr)) n) (b.addr + 16 + i)
  copies : copies h'.log = (a.ptr, min (sizeAt h.mem (hdrOf a.ptr)) n) :: copies h.log

theorem Owns.sizeAt_block (ho : Owns h A live) (ha : a ∈ live) (hk : a.kind = .plain) :
    sizeAt h.mem a.block = a.size := by
  obtain ⟨b, hb, hon⟩ := ho.exists_block ha
  rw [hon.eq_alloc hk]
  exact ho.rep.sizes b (Blocks.mem_all.2 (Or.inr hb))

theorem Owns.payload_kept (ho : Owns h A live) (ha : a ∈ live) {m : Mem} (hk : a.Kept h.mem m)
    {i : ℕ} (hi : i < a.size) : m (a.ptr + i) = h.mem (a.ptr + i) := by
  obtain ⟨b, hb, hon⟩ := ho.exists_block ha
  have h₁ := hon.le_ptr
  have h₂ := hon.ptr_add_le
  have h₃ := ho.rep.sizes b (Blocks.mem_all.2 (Or.inr hb))
  rw [← hon.block_eq] at h₁ h₂ h₃
  exact hk _ (by omega) (by omega)

theorem realloc_moves (ho : Owns h A live) (ha : a ∈ live) (hu : a.Unconfused) (hn : n ≠ 0)
    (hgrows : os.Grows n) (e : h.realloc os a.ptr n = some (h', r)) (hr : r ≠ 0) :
    ∃ b m₀, r = b.addr + 16 ∧ Moves os h A live a n h' b m₀ := by
  obtain ⟨h₁, r₁, e₁, ⟨rfl, -⟩ | ⟨h₀, A₀, b, hob, rfl, rfl⟩⟩ :=
    realloc_cases ho.rep os (ho.ptr_ne_zero ha) hn hgrows
  · rw [e] at e₁
    cases e₁
    exact absurd rfl hr
  rw [e] at e₁
  cases e₁
  have hg := hob.gains_copy ho ha (min_le_right (sizeAt h.mem (hdrOf a.ptr)) n)
  obtain ⟨hrep, hkept⟩ := hg.release ha hu
  have hbn : n ≤ b.cap := by
    rw [← hob.size]
    exact (A₀.fits b (by simp [hob.used])).2
  have hap : ∀ c ∈ A.used, b.grant.Apart c.grant := fun c hc => A₀.apart_used hob.used hc
  simp only [Grant.Apart, ByteMemory.Apart, Block.grant_addr, Block.grant_cap] at hap
  refine ⟨b, h₀.mem, rfl, hrep, fun c hc => ?_, fun c hc x h₁ h₂ => ?_, fun i hi => ?_, ?_⟩
  · have := hap c hc
    unfold ByteMemory.Apart
    omega
  · refine hob.mem x fun d hd => ?_
    rcases mem_cons.1 hd with rfl | hd
    · have := hap c hc
      omega
    · have := A.apart_free_used hd hc
      simp only [Grant.Apart, ByteMemory.Apart, Block.grant_addr, Block.grant_cap] at this
      omega
  · obtain ⟨A₁, ho₁⟩ := hg.owns
    have hi' : i < b.alloc.size := lt_of_lt_of_eq hi hob.size.symm
    have hk := ho₁.payload_kept mem_cons_self hkept hi'
    simpa only [Block.alloc_ptr, copy] using hk
  · rw [free_copies]
    simp only [copy, Memory.copies, hob.copies, peek]

variable {m₀ : Mem}

theorem Moves.copied_of_lt {b : Block} (hm : Moves os h A live a n h' b m₀) {c : Block}
    (hc : c ∈ A.used) (hlo : c.addr ≤ a.ptr) {i : ℕ} (hi : i < min (sizeAt h.mem (hdrOf a.ptr)) n)
    (hlt : a.ptr + i < c.addr + (16 + c.cap)) :
    h'.mem (b.addr + 16 + i) = h.mem (a.ptr + i) := by
  have hap := hm.apart c hc
  unfold ByteMemory.Apart at hap
  rw [hm.copied i (by omega), vmemcpy, copyUp_add _ hi (by omega)]
  exact hm.before c hc _ (by omega) (by omega)

theorem Moves.of_peek {b : Block} (ho : Owns h A live) (ha : a ∈ live)
    (hm : Moves os (h.peek a.ptr) A live a n h' b m₀) : Moves os h A live a n h' b m₀ :=
  { hm with replaces := hm.replaces.of_peek ho ha }

variable {k s : ℕ}

/-- **What a successful `recallocarray` moves**: as `realloc`, and then zeros. -/
theorem recallocarray_moves (ho : Owns h A live) (ha : a ∈ live) (hu : a.Unconfused)
    (hn : k * s ≠ 0) (hgrows : os.Grows (k * s)) (e : h.recallocarray os a.ptr k s = some (h', r))
    (hr : r ≠ 0) :
    ∃ b m₀ h₁, r = b.addr + 16 ∧ Moves os h A live a (k * s) h₁ b m₀ ∧
      Replaces os h live a (k * s) h' b ∧ h' =
        h₁.zero (r + sizeAt h.mem (hdrOf a.ptr)) (k * s - sizeAt h.mem (hdrOf a.ptr)) := by
  have hov : k * s ≤ SIZE_MAX := by
    by_contra hlt
    rw [recallocarray, if_pos (overflow_iff.2 (not_le.1 hlt))] at e
    cases e
    exact hr rfl
  rw [recallocarray_eq ho os ha hov hn] at e
  obtain ⟨⟨h₁, r₁⟩, e₁, e⟩ := Option.map_eq_some_iff.1 e
  by_cases hr₁ : r₁ = 0
  · simp only [hr₁, if_true, Prod.mk.injEq] at e
    exact absurd e.2.symm hr
  simp only [if_neg hr₁, Prod.mk.injEq] at e
  obtain ⟨rfl, rfl⟩ := e
  obtain ⟨b, m₀, rfl, hm⟩ := realloc_moves (ho.peek a.ptr) ha hu hn hgrows e₁ hr₁
  have hm' := hm.of_peek ho ha
  have hend := hm'.replaces.end_lt
  refine ⟨b, m₀, h₁, rfl, hm', hm'.replaces.fill fun x hx => ?_, rfl⟩
  exact vmemset_rest_of_not _ _ hend (by omega)

/-! ## When resizing succeeds -/

theorem available_peek (p : ℕ) :
    Allowed os (h.peek p) n ∧ Room os (h.peek p) A n ↔ Allowed os h n ∧ Room os h A n :=
  and_congr_left' ⟨fun h => ⟨h.armed, h.pos, h.probe, h.le⟩, fun h => ⟨h.armed, h.pos, h.probe, h.le⟩⟩

theorem realloc_ne_zero_iff (hr : Rep h A) (os : Sbrk) {p : ℕ} (hp : p ≠ 0) (hn : n ≠ 0)
    (hg : os.Grows n) :
    (∃ h' r, h.realloc os p n = some (h', r) ∧ r ≠ 0) ↔ Allowed os h n ∧ Room os h A n := by
  have hr' : Rep (h.peek p) A := hr.of_log _
  rw [← available_peek p, ← malloc_ne_zero_iff hr' os n hg]
  simp only [realloc, if_neg hp, if_neg hn, peek]
  rcases malloc os { h with log := .header (hdrOf p) :: h.log } n with _ | ⟨h₁, r₁⟩
  · simp
  · by_cases h0 : r₁ = 0 <;> simp [h0]

theorem recallocarray_ne_zero_iff (ho : Owns h A live) (os : Sbrk) (ha : a ∈ live)
    (hn : k * s ≠ 0) (hg : os.Grows (k * s)) :
    (∃ h' r, h.recallocarray os a.ptr k s = some (h', r) ∧ r ≠ 0) ↔
      Allowed os h (k * s) ∧ Room os h A (k * s) := by
  by_cases hov : SIZE_MAX < k * s
  · rw [recallocarray, if_pos (overflow_iff.2 hov)]
    refine iff_of_false ?_ fun ha => ?_
    · rintro ⟨h', r, e, h0⟩
      cases e
      exact h0 rfl
    · have := ha.1.le
      omega
  · rw [recallocarray_eq ho os ha (not_lt.1 hov) hn, ← available_peek a.ptr,
      ← realloc_ne_zero_iff (ho.peek a.ptr).rep os (ho.ptr_ne_zero ha) hn hg]
    rcases realloc os (h.peek a.ptr) a.ptr (k * s) with _ | ⟨h₁, r₁⟩
    · simp
    · by_cases h0 : r₁ = 0 <;> simp [h0]

/-! ## Plain allocations -/

/-- The world after a successful call that turned `a` into `n` bytes at `r`. -/
structure Moved (w : World) (a : Alloc) (n : ℕ) (w' : World) (r : ℕ) : Prop where
  /-- The first bytes are those of `a`. -/
  contents : ∀ i < min a.size n, w'.heap.mem (r + i) = w.heap.mem (a.ptr + i)
  fresh : ∃ b ∈ w'.live, b.ptr = r ∧ b.size = n
  /-- The heap is in order, and the block of `a` is on its free list once. -/
  freed : ∃ free, HeapOk w' free ∧ free.count a.block = 1
  /-- Every other allocation keeps its address, recorded size and contents. -/
  others : ∀ d ∈ w.live, d.ptr ≠ a.ptr → d ∈ w'.live ∧
    sizeAt w'.heap.mem d.block = sizeAt w.heap.mem d.block ∧
    ∀ i < d.size, w'.heap.mem (d.ptr + i) = w.heap.mem (d.ptr + i)

/-- The world after a failed call: everything is still live, with its contents. -/
structure Untouched (w w' : World) : Prop where
  live : w'.live = w.live
  contents : w'.heap.mem = w.heap.mem
  ok : ∃ free, HeapOk w' free

/-- The world after a call that was to turn `a` into `n` bytes and returned `r`. -/
def ResizeOk (w : World) (a : Alloc) (n : ℕ) (w' : World) (r : ℕ) : Prop :=
  if r = 0 then Untouched w w' else Moved w a n w' r

section Plain

variable {w : World} {b : Block}

theorem hdrOf_plain (ho : Owns h A live) (ha : a ∈ live) (hk : a.kind = .plain) :
    hdrOf a.ptr = a.block := by
  obtain ⟨b, hb, hon⟩ := ho.exists_block ha
  rw [(ho.proper_hdr ha).1, hon.eq_alloc hk]
  rfl

theorem resizeOk_zero (ho : Owns w.heap A w.live) (hp : ∀ c ∈ w.live, c.kind = .plain)
    (hn : n ≠ 0) (hu : Unchanged w.heap h') : ResizeOk w a n (w.resized a.ptr n (h', 0)) 0 := by
  rw [ResizeOk, if_pos rfl, resized_zero hn]
  exact ⟨rfl, hu.mem, _, Owns.heapOk (w := { w with heap := h' }) (hu.owns ho) hp⟩

theorem resizeOk_block (ho : Owns w.heap A w.live) (hp : ∀ c ∈ w.live, c.kind = .plain)
    (hr : Replaces os w.heap w.live a n h' b)
    (hc : ∀ i < min a.size n, h'.mem (b.addr + 16 + i) = w.heap.mem (a.ptr + i)) :
    ResizeOk w a n (w.resized a.ptr n (h', b.addr + 16)) (b.addr + 16) := by
  rw [ResizeOk, if_neg (by omega), resized_block hr.size]
  obtain ⟨A', c, hcf, hca, ho'⟩ := hr.owns
  have hok := Owns.heapOk
    (w := ⟨h', b.alloc :: dropPtr w.live a.ptr, b.alloc.ptr :: w.returned⟩) ho' fun d hd => by
      rcases mem_cons.1 hd with rfl | hd
      · rfl
      · exact hp d (mem_dropPtr.1 hd).1
  refine ⟨hc, ⟨b.alloc, mem_cons_self, rfl, hr.size⟩, ⟨_, hok, ?_⟩, fun d hd hne => ?_⟩
  · refine count_eq_one_of_mem hok.once.of_append_left ?_
    exact mem_map.2 ⟨c, hcf, hca⟩
  · have hd' : d ∈ dropPtr w.live a.ptr := mem_dropPtr.2 ⟨hd, hne⟩
    refine ⟨mem_cons_of_mem _ hd', sizeAt_congr fun x h₁ h₂ => ?_, fun i hi => ?_⟩
    · exact hr.kept d hd' x h₁ (by omega)
    · exact ho.payload_kept hd (hr.kept d hd') hi

theorem Moves.contents (ho : Owns h A live) (ha : a ∈ live) (hk : a.kind = .plain)
    (hm : Moves os h A live a n h' b m₀) {i : ℕ} (hi : i < min a.size n) :
    h'.mem (b.addr + 16 + i) = h.mem (a.ptr + i) := by
  obtain ⟨c, hc, hon⟩ := ho.exists_block ha
  have hfit := (A.fits c (Blocks.mem_all.2 (Or.inr hc))).2
  have h₁ := hon.le_ptr
  have h₂ := hon.ptr_add_le
  refine hm.copied_of_lt hc (by omega) ?_ (by omega)
  rwa [hdrOf_plain ho ha hk, ho.sizeAt_block ha hk]

theorem realloc_resizeOk (ho : Owns w.heap A w.live) (hp : ∀ c ∈ w.live, c.kind = .plain)
    (ha : a ∈ w.live) (hu : a.Unconfused) (hn : n ≠ 0) (os : Sbrk) (hg : os.Grows n) :
    ∃ h' r, w.heap.realloc os a.ptr n = some (h', r) ∧
      ResizeOk w a n (w.resized a.ptr n (h', r)) r := by
  obtain ⟨h', r, e, ⟨rfl, hun⟩ | ⟨b', rfl, -⟩⟩ := realloc_replaces ho os ha hn hg
  · exact ⟨h', 0, e, resizeOk_zero ho hp hn hun⟩
  · obtain ⟨b, m₀, hb, hm⟩ := realloc_moves ho ha hu hn hg e (by omega)
    refine ⟨h', _, e, ?_⟩
    rw [hb]
    exact resizeOk_block ho hp hm.replaces fun i hi => hm.contents ho ha (hp a ha) hi

theorem recallocarray_resizeOk (ho : Owns w.heap A w.live) (hp : ∀ c ∈ w.live, c.kind = .plain)
    (ha : a ∈ w.live) (hu : a.Unconfused) (hn : k * s ≠ 0) (os : Sbrk) (hg : os.Grows (k * s)) :
    ∃ h' r, w.heap.recallocarray os a.ptr k s = some (h', r) ∧
      ResizeOk w a (k * s) (w.resized a.ptr (k * s) (h', r)) r ∧
      (r ≠ 0 → ∀ i, a.size ≤ i → i < k * s → h'.mem (r + i) = 0) := by
  by_cases hov : SIZE_MAX < k * s
  · refine ⟨_, _, by rw [recallocarray, if_pos (overflow_iff.2 hov)]; rfl, ?_, absurd rfl⟩
    exact resizeOk_zero ho hp hn (.noMem w.heap)
  obtain ⟨h', r, e, ⟨rfl, hun⟩ | ⟨b', rfl, -⟩⟩ :=
    recallocarray_replaces ho os ha (not_lt.1 hov) hn hg
  · exact ⟨h', 0, e, resizeOk_zero ho hp hn hun, absurd rfl⟩
  · obtain ⟨b, m₀, h₁, hb, hm, hrep, hz⟩ := recallocarray_moves ho ha hu hn hg e (by omega)
    rw [hdrOf_plain ho ha (hp a ha), ho.sizeAt_block ha (hp a ha), hb] at hz
    have hmem : h'.mem = vmemset h₁.mem (b.addr + 16 + a.size) 0 (k * s - a.size) := by
      rw [hz, zero]
    have hend := hrep.end_lt
    refine ⟨h', _, e, ?_, fun _ i hlo hi => ?_⟩ <;> rw [hb]
    · refine resizeOk_block ho hp hrep fun i hi => ?_
      rw [← hm.contents ho ha (hp a ha) hi, hmem]
      exact vmemset_rest_of_not _ _ hend (by omega)
    · obtain ⟨j, rfl⟩ := Nat.exists_eq_add_of_le hlo
      rw [hmem, ← add_assoc]
      exact vmemset_add _ _ (by omega) (by omega)

end Plain

/-- The client calls the functions that make plain allocations, with sizes below `2 ^ 30`. -/
def PlainCalls (_ : World) (c : Call) : Prop :=
  c.entry ∈ [Entry.malloc, .calloc, .realloc, .recallocarray, .free, .store] ∧ c.request < 2 ^ 30

instance (w : World) (c : Call) : Decidable (PlainCalls w c) := inferInstanceAs (Decidable (_ ∧ _))

theorem PlainCalls.grows {w : World} {c : Call} (h : PlainCalls w c) : c.Grows := by
  have hneed : c.need = c.request := by
    cases c with
    | posixMemalign | alignedAlloc => simp [PlainCalls, Call.entry] at h
    | _ => rfl
  rw [Call.Grows, hneed]
  exact c.os.grows_of_lt h.2

/-- **Reallocation preserves contents.** In every heap a client can reach, `realloc` and
`recallocarray` of a live pointer to any size from `1` on return; if they succeed the first bytes
are those of the old allocation (and `recallocarray` leaves the others zero), the old block is on
the free list once and everything else is as it was; if they fail nothing has changed. -/
theorem resize_preserves {w w' : World} (hs : w.Start) (hr : Runs PlainCalls w w') {a : Alloc}
    (ha : a ∈ w'.live) {n : ℕ} (hn : 1 ≤ n) (os : Sbrk) (hg : os.Grows n) :
    (∃ h' r, w'.heap.realloc os a.ptr n = some (h', r) ∧
      ResizeOk w' a n (w'.resized a.ptr n (h', r)) r) ∧
    ∀ k s, k * s = n → ∃ h' r, w'.heap.recallocarray os a.ptr k s = some (h', r) ∧
      ResizeOk w' a n (w'.resized a.ptr n (h', r)) r ∧
      (r ≠ 0 → ∀ i, a.size ≤ i → i < n → h'.mem (r + i) = 0) := by
  obtain ⟨⟨A, ho⟩, hlive⟩ := hr.forall_live (Q := fun a => a.kind = .plain ∧ a.size < 2 ^ 30) hs
    (fun _ _ hc => hc.grows) (fun v c a hc h₁ h₂ => ⟨plain_of_entry hc.1 (by decide) h₂, h₁ ▸ hc.2⟩)
    fun v c hv _ a ha _ => unconfused_of_lt (hv a ha).2
  have hp : ∀ c ∈ w'.live, c.kind = .plain := fun c hc => (hlive c hc).1
  have hu : a.Unconfused := unconfused_of_lt (hlive a ha).2
  refine ⟨realloc_resizeOk ho hp ha hu (by omega) os hg, ?_⟩
  rintro k s rfl
  exact recallocarray_resizeOk ho hp ha hu (by omega) os hg

/-- Eight bytes grown to twenty. -/
theorem resize_preserves_grow :
    ∃ w', Runs PlainCalls (World.boot (fun _ => 0xA5) 4096) w' ∧
      w'.live = [⟨4112, 8, 4096, .plain⟩] ∧
      Sbrk.Grows ⟨true, some 0⟩ 20 ∧
      (∃ h' r, w'.heap.realloc ⟨true, some 0⟩ 4112 20 = some (h', r) ∧
        ResizeOk w' ⟨4112, 8, 4096, .plain⟩ 20 (w'.resized 4112 20 (h', r)) r) ∧
      ∃ h' r, w'.heap.recallocarray ⟨true, some 0⟩ 4112 2 10 = some (h', r) ∧
        ResizeOk w' ⟨4112, 8, 4096, .plain⟩ 20 (w'.resized 4112 20 (h', r)) r ∧
        (r ≠ 0 → ∀ i, 8 ≤ i → i < 20 → h'.mem (r + i) = 0) := by
  obtain ⟨w', hr, hl⟩ := Runs.of_play_map PlainCalls (World.boot (fun _ => 0xA5) 4096)
    [.calloc 2 4 ⟨true, some 0⟩, .store 4112 7] World.live
    (by decide : _ = some [⟨4112, 8, 4096, .plain⟩])
  have h := resize_preserves (World.boot_start (by decide) (by decide)) hr
    (a := ⟨4112, 8, 4096, .plain⟩) (by simp [hl]) (n := 20) (by decide) ⟨true, some 0⟩
    (by decide)
  exact ⟨w', hr, hl, by decide, h.1, h.2 2 10 rfl⟩

theorem zero_wraps (h : Heap) {p n x : ℕ} (hp : p < 2 ^ 64) (hx : x < 2 ^ 64)
    (hlt : (x + (2 ^ 64 - p)) % 2 ^ 64 < n) : (h.zero p n).mem x = 0 :=
  vmemset_of_mod_lt h.mem 0 hp hx hlt

/-- **A size that is a negative increment**: the request lowers the break by eight bytes and
succeeds, and `recallocarray` then clears nearly all of memory, the other allocation included. -/
theorem recallocarray_clears_others :
    ∃ w', Runs PlainCalls (World.boot (fun _ => 0xA5) 4096) w' ∧
      w'.live = [⟨4136, 8, 4120, .plain⟩, ⟨4112, 8, 4096, .plain⟩] ∧ w'.heap.mem 4112 = 7 ∧
      ∃ h' r, w'.heap.recallocarray ⟨true, some 0⟩ 4136 1 (2 ^ 64 - 24) = some (h', r) ∧ r ≠ 0 ∧
        h'.mem 4112 = 0 := by
  obtain ⟨w', hr, hw⟩ := Runs.of_play_map PlainCalls (World.boot (fun _ => 0xA5) 4096)
    [.malloc 8 ⟨true, some 0⟩, .malloc 8 ⟨true, some 0⟩, .store 4112 7]
    (fun w => (w.live, w.heap.mem 4112, sizeAt w.heap.mem (hdrOf 4136),
      ((w.heap.peek 4136).realloc ⟨true, some 0⟩ 4136 (1 * (2 ^ 64 - 24))).map Prod.snd))
    (x := ([⟨4136, 8, 4120, .plain⟩, ⟨4112, 8, 4096, .plain⟩], 7, 8, some 4160)) (by decide)
  simp only [Prod.mk.injEq] at hw
  obtain ⟨hl, hm, hsize, hx⟩ := hw
  obtain ⟨⟨h₁, _⟩, he, rfl⟩ := Option.map_eq_some_iff.1 hx
  obtain ⟨⟨A, ho⟩, -⟩ := hr.forall_live (Q := fun a => a.size < 2 ^ 30)
    (World.boot_start (by decide) (by decide)) (fun _ _ hc => hc.grows)
    (fun v c a hc hsize _ => hsize ▸ hc.2) fun v c hv _ a ha _ => unconfused_of_lt (hv a ha)
  refine ⟨w', hr, hl, hm, h₁.zero (4160 + 8) (1 * (2 ^ 64 - 24) - 8), 4160, ?_, by decide, ?_⟩
  · have heq := recallocarray_eq ho ⟨true, some 0⟩ (a := ⟨4136, 8, 4120, .plain⟩) (by simp [hl])
      (k := 1) (s := 2 ^ 64 - 24) (by decide) (by decide)
    rw [heq, he, hsize]
    rfl
  · exact zero_wraps h₁ (by omega) (by omega) (by omega)

end Vlibc.Memory
