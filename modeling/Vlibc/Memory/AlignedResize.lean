import Vlibc.Memory.Realloc

/-!
# Resizing aligned allocations

`realloc` and `recallocarray` take the eight bytes in front of the link of any pointer for its size.
In front of an aligned pointer these are the magic and padding, so what they take for the old size
is at least the magic, `0x50414C47`. `aligned_resize_iff` says when the two functions nevertheless
do what they should: when what they copy is not less than the allocation (`enough`), stays in the
block (`within`), and finds zeros behind the allocation (`zeros`).
-/

namespace Vlibc.Memory

open ByteMemory List

/-- Where the block ends that an allocation lies in. -/
def World.blockEnd (w : World) (a : Alloc) : ℕ :=
  (w.heap.grants.find? fun g => g.addr = a.block).elim 0 fun g => g.addr + (16 + g.cap)

/-- The size that `realloc` reads: that in the header before the pointer. -/
def World.oldSize (w : World) (a : Alloc) : ℕ := sizeAt w.heap.mem (a.ptr - 16)

/-- The ranges copied from since `w` are all in the block of `a`. -/
def ReadsOwn (w : World) (a : Alloc) (h' : Heap) : Prop :=
  ∃ new, copies h'.log = new ++ copies w.heap.log ∧
    ∀ x ∈ new, a.block ≤ x.1 ∧ x.1 + x.2 ≤ w.blockEnd a

/-- `realloc(p, n)` and `recallocarray(p, 1, n)`, if they succeed, read only the block of `a`,
return its first bytes, and `recallocarray` zeros the rest. -/
structure ResizesWell (os : Sbrk) (w : World) (a : Alloc) (n : ℕ) : Prop where
  realloc : ∀ h' r, w.heap.realloc os a.ptr n = some (h', r) → r ≠ 0 → ReadsOwn w a h' ∧
    ∀ i < min a.size n, h'.mem (r + i) = w.heap.mem (a.ptr + i)
  recallocarray : ∀ h' r, w.heap.recallocarray os a.ptr 1 n = some (h', r) → r ≠ 0 →
    ReadsOwn w a h' ∧ (∀ i < min a.size n, h'.mem (r + i) = w.heap.mem (a.ptr + i)) ∧
    ∀ i, a.size ≤ i → i < n → h'.mem (r + i) = 0

/-- The bytes of an allocation are overwritten. -/
def World.fill (w : World) (a : Alloc) (f : ℕ → UInt8) : World :=
  { w with heap := { w.heap with mem := patch w.heap.mem a.ptr a.size f } }

/-- When resizing an aligned allocation works. -/
structure Resizable (w : World) (a : Alloc) (n : ℕ) : Prop where
  enough : min a.size n ≤ w.oldSize a
  within : a.ptr + min (w.oldSize a) n ≤ w.blockEnd a
  zeros : ∀ i, a.size ≤ i → i < min (w.oldSize a) n → w.heap.mem (a.ptr + i) = 0

variable {os : Sbrk} {w : World} {A : Blocks} {a : Alloc} {n : ℕ}

theorem Owns.blockEnd_eq (ho : Owns w.heap A w.live) {c : Block} (hc : c ∈ A.used)
    (hon : AllocOn w.heap.mem c a) : w.blockEnd a = c.addr + (16 + c.cap) := by
  have hca : c ∈ A.all := Blocks.mem_all.2 (Or.inr hc)
  have hmem : c.grant ∈ w.heap.grants := ho.rep.grants.mem_iff.1 (mem_map_of_mem hca)
  rw [World.blockEnd]
  rcases e : w.heap.grants.find? (fun g => g.addr = a.block) with _ | g
  · exact absurd (find?_eq_none.1 e _ hmem) (by simp [hon.block_eq])
  · -- the grant found is the one of `c`, since grants at one address are the same
    have hg := mem_of_find?_eq_some e
    have hga : g.addr = c.addr := by
      have := find?_some e
      simp only [decide_eq_true_eq] at this
      exact this.trans hon.block_eq
    obtain rfl : c.grant = g := by
      by_contra hne
      have hap := (Perm.pairwise_iff Grant.Apart.symm ho.rep.grants).1 A.apart
      exact (hap.forall hmem hg hne).ne hga.symm
    rw [e]
    rfl

variable {h' : Heap}

theorem readsOwn_iff {p k : ℕ} (e : copies h'.log = (p, k) :: copies w.heap.log) :
    ReadsOwn w a h' ↔ a.block ≤ p ∧ p + k ≤ w.blockEnd a := by
  constructor
  · rintro ⟨new, e', hn⟩
    have : [(p, k)] = new := append_cancel_right (e.symm.trans e')
    exact hn (p, k) (by simp [← this])
  · intro h
    exact ⟨[(p, k)], e, by simpa using h⟩

theorem readsOwn_congr {h₁ h₂ : Heap} (e : copies h₁.log = copies h₂.log) :
    ReadsOwn w a h₁ ↔ ReadsOwn w a h₂ := by
  rw [ReadsOwn, ReadsOwn, e]

theorem fill_mem (w : World) (a : Alloc) (f : ℕ → UInt8) {i : ℕ} (hi : i < a.size) :
    (w.fill a f).heap.mem (a.ptr + i) = f i :=
  patch_add _ _ _ _ hi

theorem fill_mem_of_le (w : World) (a : Alloc) (f : ℕ → UInt8) {i : ℕ} (hi : a.size ≤ i) :
    (w.fill a f).heap.mem (a.ptr + i) = w.heap.mem (a.ptr + i) :=
  patch_of_not _ _ _ _ (Or.inr (by omega))

section

variable (ho : Owns w.heap A w.live) (ha : a ∈ w.live)

include ho ha

theorem block_le_ptr : a.block ≤ a.ptr ∧ 16 ≤ a.ptr := by
  obtain ⟨c, hc, hon⟩ := ho.exists_block ha
  have := hon.le_ptr
  rw [hon.block_eq]
  omega

theorem oldSize_eq : sizeAt w.heap.mem (hdrOf a.ptr) = w.oldSize a := by
  rw [(ho.proper_hdr ha).1, World.oldSize]

theorem Moves.eq_of_within {b : Block} {m₀ : Mem}
    (hm : Moves os w.heap A w.live a n h' b m₀) (hw : a.ptr + min (w.oldSize a) n ≤ w.blockEnd a)
    {i : ℕ} (hi : i < min (w.oldSize a) n) :
    h'.mem (b.addr + 16 + i) = w.heap.mem (a.ptr + i) := by
  obtain ⟨c, hc, hon⟩ := ho.exists_block ha
  have h₁ := hon.le_ptr
  rw [ho.blockEnd_eq hc hon] at hw
  refine hm.copied_of_lt hc (by omega) ?_ (by omega)
  rw [oldSize_eq ho ha]
  exact hi

theorem Moves.readsOwn_iff {b : Block} {m₀ : Mem}
    (hm : Moves os w.heap A w.live a n h' b m₀) :
    ReadsOwn w a h' ↔ a.ptr + min (w.oldSize a) n ≤ w.blockEnd a := by
  have hcop := hm.copies
  rw [oldSize_eq ho ha] at hcop
  rw [Memory.readsOwn_iff hcop, and_iff_right (block_le_ptr ho ha).1]

/-- What `recallocarray(p, 1, n)` returns: the bytes of `realloc`, and zeros from the old size
on. -/
theorem recallocarray_bytes (hu : a.Unconfused) (hn : n ≠ 0) (hg : os.Grows n) {r : ℕ}
    (e : w.heap.recallocarray os a.ptr 1 n = some (h', r)) (h0 : r ≠ 0) :
    ∃ b m₀ h₁, r = b.addr + 16 ∧ Moves os w.heap A w.live a n h₁ b m₀ ∧
      (ReadsOwn w a h' ↔ ReadsOwn w a h₁) ∧
      (∀ i < w.oldSize a, h'.mem (r + i) = h₁.mem (r + i)) ∧
      ∀ i, w.oldSize a ≤ i → i < n → h'.mem (r + i) = 0 := by
  obtain ⟨b, m₀, h₁, hb, hm, hrep, hz⟩ :=
    recallocarray_moves ho ha hu (by simpa using hn) (by simpa using hg) e h0
  rw [one_mul] at hm hz hrep
  have hend := hrep.end_lt
  rw [← hb] at hend
  rw [oldSize_eq ho ha] at hz
  have hcop : copies h'.log = copies h₁.log := by
    rw [hz]
    simp only [Heap.zero]
  have hmem : h'.mem = vmemset h₁.mem (r + w.oldSize a) 0 (n - w.oldSize a) := by
    rw [hz, Heap.zero]
  refine ⟨b, m₀, h₁, hb, hm, readsOwn_congr hcop, fun i hi => ?_, fun i hlo hi => ?_⟩
  · rw [hmem]
    exact vmemset_rest_of_not _ _ hend (by omega)
  · obtain ⟨j, rfl⟩ := Nat.exists_eq_add_of_le hlo
    rw [hmem, ← add_assoc]
    exact vmemset_add _ _ (by omega) (by omega)

/-- **Sufficiency.** -/
theorem Resizable.resizesWell (hu : a.Unconfused) (hn : n ≠ 0) (hr : Resizable w a n)
    {os : Sbrk} (hg : os.Grows n) : ResizesWell os w a n := by
  have henough := hr.enough
  refine ⟨fun h' r e h0 => ?_, fun h' r e h0 => ?_⟩
  · obtain ⟨b, m₀, rfl, hm⟩ := realloc_moves ho ha hu hn hg e h0
    exact ⟨(hm.readsOwn_iff ho ha).2 hr.within,
      fun i hi => hm.eq_of_within ho ha hr.within (by omega)⟩
  · obtain ⟨b, m₀, h₁, rfl, hm, hreads, hlow, hhigh⟩ := recallocarray_bytes ho ha hu hn hg e h0
    refine ⟨hreads.2 ((hm.readsOwn_iff ho ha).2 hr.within), fun i hi => ?_, fun i hlo hi => ?_⟩
    · rw [hlow i (by omega)]
      exact hm.eq_of_within ho ha hr.within (by omega)
    · by_cases hold : w.oldSize a ≤ i
      · exact hhigh i hold hi
      · rw [hlow i (by omega), hm.eq_of_within ho ha hr.within (by omega)]
        exact hr.zeros i hlo (by omega)

/-! ### Filling an allocation -/

theorem oldSize_fill (f : ℕ → UInt8) : (w.fill a f).oldSize a = w.oldSize a := by
  have := (block_le_ptr ho ha).2
  exact sizeAt_congr fun x h₁ h₂ => patch_of_not _ _ _ _ (by omega)

theorem resizable_fill_iff (f : ℕ → UInt8) : Resizable (w.fill a f) a n ↔ Resizable w a n := by
  have hold := oldSize_fill ho ha f
  constructor <;> rintro ⟨h₁, h₂, h₃⟩
  · rw [hold] at h₁ h₂ h₃
    exact ⟨h₁, h₂, fun i hi hi' => (fill_mem_of_le w a f hi).symm.trans (h₃ i hi hi')⟩
  · refine ⟨?_, ?_, fun i hi hi' => ?_⟩ <;> rw [hold] at *
    · exact h₁
    · exact h₂
    · rw [fill_mem_of_le w a f hi]
      exact h₃ i hi hi'

/-- **Necessity**, for some contents: all ones. -/
theorem resizable_of_fill (hu : a.Unconfused) (hn : n ≠ 0) (hg : os.Grows n)
    (hs : ∃ h' r, w.heap.realloc os a.ptr n = some (h', r) ∧ r ≠ 0)
    (hw : ResizesWell os (w.fill a fun _ => 1) a n) : Resizable w a n := by
  rw [← resizable_fill_iff ho ha fun _ => 1]
  obtain ⟨A', hfree, -, ho'⟩ := ho.write_mem ha (m := patch w.heap.mem a.ptr a.size fun _ => 1)
    fun x hx => patch_of_not _ _ _ _ hx
  change Owns (w.fill a fun _ => 1).heap A' (w.fill a fun _ => 1).live at ho'
  -- filling the allocation does not change whether there is memory
  obtain ⟨hal, hroom⟩ := (realloc_ne_zero_iff ho.rep os (ho.ptr_ne_zero ha) hn hg).1 hs
  have hal' : Allowed os (w.fill a fun _ => 1).heap n := ⟨hal.armed, hal.pos, hal.probe, hal.le⟩
  have hroom' : Room os (w.fill a fun _ => 1).heap A' n := by
    rw [Room, hfree]
    exact hroom
  obtain ⟨h₁, r₁, e₁, h0₁⟩ :=
    (realloc_ne_zero_iff ho'.rep os (ho.ptr_ne_zero ha) hn hg).2 ⟨hal', hroom'⟩
  obtain ⟨b, m₀, -, hm⟩ := realloc_moves ho' ha hu hn hg e₁ h0₁
  have hwithin := (hm.readsOwn_iff ho' ha).1 (hw.realloc h₁ r₁ e₁ h0₁).1
  obtain ⟨h₂, r₂, e₂, h0₂⟩ := (recallocarray_ne_zero_iff (k := 1) (s := n) ho' os ha
    (by simpa using hn) (by simpa using hg)).2 (by simpa using And.intro hal' hroom')
  obtain ⟨b', m₀', h₃, rfl, hm', -, hlow, hhigh⟩ := recallocarray_bytes ho' ha hu hn hg e₂ h0₂
  obtain ⟨-, hsame, hzero⟩ := hw.recallocarray h₂ _ e₂ h0₂
  refine ⟨?_, hwithin, fun i hlo hi => ?_⟩
  · -- otherwise the first byte not copied is zero, and should be one
    by_contra hlt
    have hz := hhigh _ le_rfl (by omega)
    rw [hsame _ (by omega)] at hz
    rw [fill_mem w a _ (by omega)] at hz
    cases hz
  · rw [← hm'.eq_of_within ho' ha hwithin hi, ← hlow i (by omega)]
    exact hzero i hlo (by omega)

end

/-- **When aligned allocations can be resized.** A live aligned allocation is at a multiple of its
alignment and inside its block, with room for the alignment header. If there is memory for `n`
bytes, and the request for it does not lower the break, `realloc(p, n)` and `recallocarray(p, 1, n)` work whatever the allocation contains if and
only if the number of bytes they take from the record in front of it is large enough for the
allocation, keeps them inside the block, and reaches only zeros behind it. -/
theorem aligned_resize_iff {w w' : World} (hs : w.Start) (hr : Runs ClearCalls w w') {a : Alloc}
    (ha : a ∈ w'.live) {al : ℕ} (hk : a.kind = .aligned al) {n : ℕ} (hn : 1 ≤ n) :
    (al ∣ a.ptr ∧ a.block + 16 ≤ a.ptr - 16 ∧
      a.ptr + a.size ≤ a.block + (16 + sizeAt w'.heap.mem a.block)) ∧
    ((∃ os : Sbrk, os.Grows n ∧ ∃ h' r, w'.heap.realloc os a.ptr n = some (h', r) ∧ r ≠ 0) →
      ((∀ os : Sbrk, os.Grows n → ∀ f, ResizesWell os (w'.fill a f) a n) ↔ Resizable w' a n)) := by
  obtain ⟨A, ho⟩ := hr.inv hs.inv
  have hu : a.Unconfused := fun h => by simp [hk] at h
  have hn0 : n ≠ 0 := by omega
  refine ⟨?_, ?_⟩
  · obtain ⟨b, hb, hon⟩ := ho.exists_block ha
    have hsize := ho.rep.sizes b (Blocks.mem_all.2 (Or.inr hb))
    cases hon with
    | plain => cases hk
    | aligned hal hq hlo hhi =>
      cases hk
      simp only [hsize]
      exact ⟨hq, by omega, hhi⟩
  · rintro ⟨os, hg, hsucc⟩
    refine ⟨fun hw => resizable_of_fill ho ha hu hn0 hg hsucc (hw os hg _), fun hw os hg f => ?_⟩
    obtain ⟨A', -, -, ho'⟩ := ho.write_mem ha (m := patch w'.heap.mem a.ptr a.size f)
      fun x hx => patch_of_not _ _ _ _ hx
    change Owns (w'.fill a f).heap A' (w'.fill a f).live at ho'
    exact Resizable.resizesWell ho' ha hu hn0 ((resizable_fill_iff ho ha f).2 hw) hg

/-- Sixteen bytes at a multiple of sixty-four, in fresh memory of zeros, and twenty wanted. -/
theorem aligned_resize_iff_twenty :
    ∃ w', Runs ClearCalls (World.boot (fun _ => 0) 4096) w' ∧
      w'.live = [⟨4160, 16, 4096, .aligned 64⟩] ∧
      (64 ∣ 4160 ∧ 4096 + 16 ≤ 4160 - 16 ∧ 4160 + 16 ≤ 4096 + (16 + sizeAt w'.heap.mem 4096)) ∧
      ((∃ os : Sbrk, os.Grows 20 ∧ ∃ h' r, w'.heap.realloc os 4160 20 = some (h', r) ∧ r ≠ 0) →
        ((∀ os : Sbrk, os.Grows 20 → ∀ f, ResizesWell os
          (w'.fill ⟨4160, 16, 4096, .aligned 64⟩ f) ⟨4160, 16, 4096, .aligned 64⟩ 20) ↔ Resizable w' ⟨4160, 16, 4096, .aligned 64⟩ 20)) := by
  obtain ⟨w', hr, hl⟩ := Runs.of_play_map ClearCalls (World.boot (fun _ => 0) 4096)
    [.posixMemalign 64 16 ⟨true, some 0⟩] World.live
    (by decide : _ = some [⟨4160, 16, 4096, .aligned 64⟩])
  exact ⟨w', hr, hl, aligned_resize_iff (World.boot_start (by decide) (by decide)) hr
    (a := ⟨4160, 16, 4096, .aligned 64⟩) (by simp [hl]) rfl (by decide)⟩

/-- **Eight aligned bytes, grown to twenty-four**: all twenty-four are copied from the old place, and
the last of them lie behind the end of the block. -/
theorem aligned_realloc_overreads :
    ∃ w', Runs ClearCalls (World.boot (fun _ => 0xA5) 4096) w' ∧
      w'.live = [⟨4128, 8, 4096, .aligned 8⟩] ∧
      ¬ ResizesWell ⟨true, some 0⟩ w' ⟨4128, 8, 4096, .aligned 8⟩ 24 := by
  obtain ⟨w', hr, hw⟩ := Runs.of_play_map ClearCalls (World.boot (fun _ => 0xA5) 4096)
    [.posixMemalign 8 8 ⟨true, some 0⟩]
    (fun w => (w.live, w.blockEnd ⟨4128, 8, 4096, .aligned 8⟩, copies w.heap.log,
      (w.heap.realloc ⟨true, some 0⟩ 4128 24).map fun x => (x.2, copies x.1.log)))
    (by rfl : _ = some ([⟨4128, 8, 4096, .aligned 8⟩], 4143, [], some (4159, [(4128, 24)])))
  simp only [Prod.mk.injEq] at hw
  obtain ⟨hl, hend, hcop, hres⟩ := hw
  refine ⟨w', hr, hl, fun hwell => ?_⟩
  obtain ⟨⟨h', r⟩, e, hx⟩ := Option.map_eq_some_iff.1 hres
  obtain ⟨rfl, hcop'⟩ := Prod.mk.inj hx
  have hreads := (hwell.realloc h' _ e (by decide)).1
  rw [readsOwn_iff (hcop'.trans (by rw [hcop])), hend] at hreads
  omega

end Vlibc.Memory
