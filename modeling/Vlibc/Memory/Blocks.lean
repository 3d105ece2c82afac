import Vlibc.Foundations.Chain
import Vlibc.Memory.Malloc
import Mathlib.Order.Interval.Finset.Nat

/-!
# The heap as a set of blocks

What the allocator is for, without bytes: every block obtained from the system is either free, at a
place in the free list, or used. `Blocks` carries the facts that make such a division a heap, and
its three edits (`reuse`, `grow`, `release`) rebuild them, so a heap that breaks them cannot be
written down.

`Rep h A` connects a process image to its blocks: the linked list in memory runs through the free
blocks in order, each header records its block's size, and the blocks are the ones `sbrk` handed
out.
-/

namespace Vlibc.Memory

open ByteMemory List

/-- Two blocks obtained from the system share no byte, headers included. -/
def Grant.Apart (g g' : Grant) : Prop :=
  ByteMemory.Apart g.addr (16 + g.cap) g'.addr (16 + g'.cap)

theorem Grant.Apart.symm {g g' : Grant} (h : g.Apart g') : g'.Apart g := ByteMemory.Apart.symm h

instance : Std.Symm Grant.Apart := ⟨fun _ _ => Grant.Apart.symm⟩

theorem Grant.Apart.ne {g g' : Grant} (h : g.Apart g') : g.addr ≠ g'.addr := by
  rcases h with h | h <;> omega

/-- A block: its header's address, the size asked of the system, the size its header records. -/
structure Block where
  addr : ℕ
  cap : ℕ
  size : ℕ
  deriving DecidableEq

namespace Block

/-- The block as the system knows it. -/
def grant (b : Block) : Grant := ⟨b.addr, b.cap⟩

/-- The block with another recorded size. -/
def resize (b : Block) (n : ℕ) : Block := { b with size := n }

@[simp] theorem grant_addr (b : Block) : b.grant.addr = b.addr := rfl

@[simp] theorem grant_cap (b : Block) : b.grant.cap = b.cap := rfl

@[simp] theorem resize_grant (b : Block) (n : ℕ) : (b.resize n).grant = b.grant := rfl

end Block

/-- The blocks of a heap: the free ones in the order of the free list, and the used ones. -/
structure Blocks where
  free : List Block
  used : List Block
  apart : ((free ++ used).map Block.grant).Pairwise Grant.Apart
  fits : ∀ b ∈ free ++ used, 0 < b.addr ∧ b.size ≤ b.cap

namespace Blocks

/-- All blocks. -/
def all (A : Blocks) : List Block := A.free ++ A.used

/-- The blocks as the system knows them. -/
def grants (A : Blocks) : List Grant := A.all.map Block.grant

variable {b : Block}

@[simp] theorem mem_all {A : Blocks} : b ∈ A.all ↔ b ∈ A.free ∨ b ∈ A.used :=
  mem_append

theorem apart_of_ne (A : Blocks) {b c : Block} (hb : b ∈ A.all) (hc : c ∈ A.all)
    (hne : b.addr ≠ c.addr) : b.grant.Apart c.grant := by
  refine A.apart.forall (mem_map_of_mem hb) (mem_map_of_mem hc) fun e => hne ?_
  exact congrArg Grant.addr e

theorem apart_free_used (A : Blocks) {b c : Block} (hb : b ∈ A.free) (hc : c ∈ A.used) :
    b.grant.Apart c.grant := by
  have h := A.apart
  rw [map_append, pairwise_append] at h
  exact h.2.2 _ (mem_map_of_mem hb) _ (mem_map_of_mem hc)

theorem apart_used (A : Blocks) {rest : List Block} (h : A.used = b :: rest)
    {c : Block} (hc : c ∈ rest) : b.grant.Apart c.grant := by
  have ha := A.apart
  rw [h, map_append, pairwise_append, map_cons, pairwise_cons] at ha
  exact ha.2.1.1 _ (mem_map_of_mem hc)

/-- No blocks. -/
def empty : Blocks := ⟨[], [], by simp, by simp⟩

/-- The same blocks, the used ones in another order. -/
def permUsed (A : Blocks) {used : List Block} (h : used.Perm A.used) : Blocks where
  free := A.free
  used := used
  apart := (List.Perm.pairwise_iff Grant.Apart.symm
    (((List.Perm.refl A.free).append h).map Block.grant)).2 A.apart
  fits b hb := A.fits b (((List.Perm.refl A.free).append h).mem_iff.1 hb)

/-- Take `b` off the free list for a request of `n` bytes. -/
def reuse (A : Blocks) {pre post : List Block} {b : Block} {n : ℕ}
    (h : A.free = pre ++ b :: post) (hn : n ≤ b.size) : Blocks where
  free := pre ++ post
  used := b.resize n :: A.used
  apart := by
    refine (List.Perm.pairwise_iff Grant.Apart.symm ?_).2 A.apart
    rw [h]
    simp only [List.map_append, List.map_cons, Block.resize_grant, List.append_assoc,
      List.cons_append]
    exact (List.Perm.refl _).append List.perm_middle
  fits c hc := by
    have hb := A.fits b (by simp [h])
    simp only [List.mem_append, List.mem_cons] at hc
    rcases hc with (hc | hc) | rfl | hc
    · exact A.fits c (by simp [h, hc])
    · exact A.fits c (by simp [h, hc])
    · exact ⟨hb.1, hn.trans hb.2⟩
    · exact A.fits c (by simp [hc])

/-- Add a new block of `n` bytes at `a`, above every other block. -/
def grow (A : Blocks) (a n : ℕ) (ha : 0 < a)
    (h : ∀ b ∈ A.all, b.addr + (16 + b.cap) ≤ a) : Blocks where
  free := A.free
  used := ⟨a, n, n⟩ :: A.used
  apart := by
    refine (List.Perm.pairwise_iff Grant.Apart.symm (List.perm_middle.map _)).2 ?_
    rw [List.map_cons, List.pairwise_cons]
    refine ⟨fun g hg => ?_, A.apart⟩
    obtain ⟨b, hb, rfl⟩ := List.mem_map.1 hg
    exact Or.inr (h b hb)
  fits c hc := by
    simp only [List.mem_append, List.mem_cons] at hc
    rcases hc with hc | rfl | hc
    · exact A.fits c (by simp [hc])
    · exact ⟨ha, le_rfl⟩
    · exact A.fits c (by simp [hc])

/-- Put the used block `b` at the head of the free list. -/
def release (A : Blocks) {b : Block} {rest : List Block} (h : A.used = b :: rest) : Blocks where
  free := b :: A.free
  used := rest
  apart := by
    refine (List.Perm.pairwise_iff Grant.Apart.symm ?_).2 A.apart
    rw [h]
    exact (List.perm_middle.symm).map _
  fits c hc := by
    refine A.fits c ?_
    simp only [h, List.mem_append, List.mem_cons] at hc ⊢
    tauto

end Blocks

/-! ## Writing one header

The header fields of all blocks, after the link or the size in one header has been written. -/

section Headers

variable (A : Blocks) (m : Mem) {a c : Block} {v : ℕ}

theorem loadLE_storeLE_header (ha : a ∈ A.all) (hc : c ∈ A.all) {i j : ℕ} (hi : i ≤ 8)
    (hj : j ≤ 8) (h : c.addr ≠ a.addr ∨ Apart i 8 j 8) :
    loadLE (storeLE m (a.addr + i) 8 v) (c.addr + j) 8 = loadLE m (c.addr + j) 8 := by
  refine loadLE_storeLE_of_apart m v ?_
  unfold ByteMemory.Apart at h ⊢
  by_cases e : c.addr = a.addr
  · omega
  · have h' := A.apart_of_ne hc ha e
    simp only [Grant.Apart, ByteMemory.Apart, Block.grant_addr, Block.grant_cap] at h'
    omega

theorem nextAt_storeNext (ha : a ∈ A.all) (hc : c ∈ A.all) (hv : v < 2 ^ 64) :
    nextAt (storeLE m (a.addr + 8) 8 v) c.addr =
      if c.addr = a.addr then v else nextAt m c.addr := by
  split_ifs with e
  · rw [nextAt, e, loadLE_storeLE_of_lt m _ (by simpa using hv)]
  · exact loadLE_storeLE_header A m ha hc le_rfl le_rfl (Or.inl e)

theorem sizeAt_storeNext (ha : a ∈ A.all) (hc : c ∈ A.all) :
    sizeAt (storeLE m (a.addr + 8) 8 v) c.addr = sizeAt m c.addr :=
  loadLE_storeLE_header A m (j := 0) ha hc le_rfl (by omega) (Or.inr (Or.inr le_rfl))

theorem nextAt_storeSize (ha : a ∈ A.all) (hc : c ∈ A.all) :
    nextAt (storeLE m a.addr 8 v) c.addr = nextAt m c.addr :=
  loadLE_storeLE_header A m (i := 0) ha hc (by omega) le_rfl (Or.inr (Or.inl le_rfl))

theorem sizeAt_storeSize (ha : a ∈ A.all) (hc : c ∈ A.all) (hv : v < 2 ^ 64) :
    sizeAt (storeLE m a.addr 8 v) c.addr = if c.addr = a.addr then v else sizeAt m c.addr := by
  split_ifs with e
  · rw [sizeAt, e, loadLE_storeLE_of_lt m _ (by simpa using hv)]
  · exact loadLE_storeLE_header A m (i := 0) (j := 0) ha hc (by omega) (by omega) (Or.inl e)

theorem nextAt_lt (a : ℕ) : nextAt m a < 2 ^ 64 :=
  lt_of_lt_of_eq (loadLE_lt m (a + 8) 8) (by norm_num)

end Headers

/-! ## Process images -/

/-- `h` is a process image of the blocks `A`. -/
structure Rep (h : Heap) (A : Blocks) : Prop where
  chain : Chain (nextAt h.mem) 0 h.freeList (A.free.map Block.addr)
  sizes : ∀ b ∈ A.all, sizeAt h.mem b.addr = b.size
  below : ∀ b ∈ A.all, b.addr + (16 + b.cap) ≤ h.brk
  brk_pos : 0 < h.brk
  brk_lt : h.brk < 2 ^ 64
  grants : A.grants.Perm h.grants

theorem sizeAt_congr {m m' : Mem} {a : ℕ} (h : ∀ x, a ≤ x → x < a + 16 → m' x = m x) :
    sizeAt m' a = sizeAt m a :=
  loadLE_congr fun x h₁ h₂ => h x h₁ (by omega)

theorem nextAt_congr {m m' : Mem} {a : ℕ} (h : ∀ x, a ≤ x → x < a + 16 → m' x = m x) :
    nextAt m' a = nextAt m a :=
  loadLE_congr fun x h₁ h₂ => h x (by omega) (by omega)

namespace Rep

variable {h h' : Heap} {A : Blocks}

/-- **A heap is read off the headers of its blocks.** -/
theorem of_headers (hr : Rep h A)
    (hm : ∀ b ∈ A.all, ∀ x, b.addr ≤ x → x < b.addr + 16 → h'.mem x = h.mem x)
    (hf : h'.freeList = h.freeList) (hb : h'.brk = h.brk) (hg : h'.grants = h.grants) :
    Rep h' A where
  chain := by
    rw [hf]
    refine hr.chain.congr fun a ha => ?_
    obtain ⟨b, hb', rfl⟩ := mem_map.1 ha
    exact nextAt_congr (hm b (Blocks.mem_all.2 (Or.inl hb')))
  sizes b hb' := (sizeAt_congr (hm b hb')).trans (hr.sizes b hb')
  below b hb' := hb ▸ hr.below b hb'
  brk_pos := hb ▸ hr.brk_pos
  brk_lt := hb ▸ hr.brk_lt
  grants := hg ▸ hr.grants

theorem of_log (hr : Rep h A) (l : List Access) : Rep { h with log := l } A :=
  hr.of_headers (fun _ _ _ _ _ => rfl) rfl rfl rfl

theorem permUsed (hr : Rep h A) {used : List Block} (hp : used.Perm A.used) :
    Rep h (A.permUsed hp) where
  chain := hr.chain
  sizes b hb := hr.sizes b (((List.Perm.refl A.free).append hp).mem_iff.1 hb)
  below b hb := hr.below b (((List.Perm.refl A.free).append hp).mem_iff.1 hb)
  brk_pos := hr.brk_pos
  brk_lt := hr.brk_lt
  grants := (((List.Perm.refl A.free).append hp).map Block.grant).trans hr.grants

theorem size_lt (hr : Rep h A) (hb : b ∈ A.all) : b.size < 2 ^ 64 := by
  have h₁ := (A.fits b hb).2
  have h₂ := hr.below b hb
  have h₃ := hr.brk_lt
  omega

theorem addr_lt (hr : Rep h A) (hb : b ∈ A.all) : b.addr + 16 < 2 ^ 64 := by
  have h₁ := hr.below b hb
  have h₂ := hr.brk_lt
  omega

theorem freeList_lt (hr : Rep h A) : h.freeList < 2 ^ 64 := by
  by_cases h0 : h.freeList = 0
  · omega
  · obtain ⟨c, hc, hc'⟩ := mem_map.1 (hr.chain.head_mem h0)
    have := hr.addr_lt (Blocks.mem_all.2 (Or.inl hc))
    omega

theorem length_free_lt (hr : Rep h A) : A.free.length < 2 ^ 64 := by
  have hsub : (A.free.map Block.addr).toFinset ⊆ Finset.range h.brk := by
    intro a ha
    obtain ⟨b, hb, rfl⟩ := mem_map.1 (mem_toFinset.1 ha)
    have := hr.below b (Blocks.mem_all.2 (Or.inl hb))
    exact Finset.mem_range.2 (by omega)
  have hcard := Finset.card_le_card hsub
  rw [toFinset_card_of_nodup hr.chain.nodup, length_map, Finset.card_range] at hcard
  have := hr.brk_lt
  omega

end Rep

theorem hdrOf_add {a : ℕ} (h : a < 2 ^ 64) : hdrOf (a + 16) = a := by
  rw [hdrOf, show a + 16 + 2 ^ 64 - 16 = a + 2 ^ 64 by omega, Nat.add_mod_right, Nat.mod_eq_of_lt h]

theorem hdrOf_of_le {p : ℕ} (h : 16 ≤ p) (hp : p < 2 ^ 64) : hdrOf p = p - 16 := by
  obtain ⟨a, rfl⟩ := Nat.exists_eq_add_of_le' h
  rw [hdrOf_add (by omega), Nat.add_sub_cancel]

end Vlibc.Memory
