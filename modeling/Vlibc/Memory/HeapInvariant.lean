import Vlibc.Memory.Run

/-!
# The heap invariant

`HeapOk` is what a client of `malloc` and `free` can rely on at any point of a run. It follows from
the correspondence `Owns` between live allocations and used blocks when all live allocations are
plain (`Owns.heapOk`), and every run keeps that (`malloc_free_heapOk`). The bound on the sizes
keeps a size field from being read as the magic of an alignment header (`unconfused_of_lt`).
-/

namespace Vlibc.Memory

open ByteMemory List

/-- The state of a heap whose live allocations are plain; `free` lists the nodes of the free
list. -/
structure HeapOk (w : World) (free : List ℕ) : Prop where
  /-- The extents of all blocks ever obtained from the system are pairwise disjoint. -/
  extents : w.heap.grants.Pairwise Grant.Apart
  /-- The free list runs through `free` and ends: it is acyclic. -/
  chain : Chain (nextAt w.heap.mem) 0 w.heap.freeList free
  /-- Every block is on the free list or live. -/
  divided : (free ++ w.live.map Alloc.block).Perm (w.heap.grants.map Grant.addr)
  /-- No block is there twice, on the free list, live, or both. -/
  once : (free ++ w.live.map Alloc.block).Nodup
  /-- The header of a live block records the size last asked for, within the block's capacity. -/
  recorded : ∀ a ∈ w.live, a.ptr = a.block + 16 ∧ sizeAt w.heap.mem a.block = a.size ∧
    ∃ g ∈ w.heap.grants, g.addr = a.block ∧ a.size ≤ g.cap
  /-- No two live allocations overlap. -/
  payloads : w.live.Pairwise fun a b => Apart a.ptr a.size b.ptr b.size

theorem Blocks.addr_nodup (A : Blocks) : (A.all.map Block.addr).Nodup := by
  rw [nodup_iff_pairwise_ne, pairwise_map]
  exact (pairwise_map.1 A.apart).imp fun h => h.ne

theorem map_block_of_held {m : Mem} {live : List Alloc} {used : List Block}
    (hf : List.Forall₂ (fun a b => AllocOn m b a) live used) :
    live.map Alloc.block = used.map Block.addr := by
  induction hf with
  | nil => rfl
  | cons hab _ ih => rw [map_cons, map_cons, hab.block_eq, ih]

theorem payloads_of_held {m : Mem} {live : List Alloc} {used : List Block}
    (hf : List.Forall₂ (fun a b => AllocOn m b a) live used)
    (hap : (used.map Block.grant).Pairwise Grant.Apart) (hfit : ∀ b ∈ used, b.size ≤ b.cap) :
    live.Pairwise fun a b => Apart a.ptr a.size b.ptr b.size := by
  induction hf with
  | nil => exact .nil
  | @cons a b _ _ hab ht ih =>
    rw [map_cons, pairwise_cons] at hap
    refine pairwise_cons.2 ⟨fun c hc => ?_, ih hap.2 fun d hd => hfit d (by simp [hd])⟩
    obtain ⟨d, hd, hon⟩ := AllocOn.exists_of_mem ht hc
    have := hab.apart hon (hap.1 _ (mem_map_of_mem hd)) (hfit b (by simp)) (hfit d (by simp [hd]))
    unfold ByteMemory.Apart
    omega

theorem Owns.heapOk {w : World} {A : Blocks} (ho : Owns w.heap A w.live)
    (hp : ∀ a ∈ w.live, a.kind = .plain) : HeapOk w (A.free.map Block.addr) where
  extents := (Perm.pairwise_iff Grant.Apart.symm ho.rep.grants).1 A.apart
  chain := ho.rep.chain
  divided := by
    rw [map_block_of_held ho.held, ← map_append]
    have := ho.rep.grants.map Grant.addr
    rwa [Blocks.grants, map_map] at this
  once := by
    rw [map_block_of_held ho.held, ← map_append]
    exact A.addr_nodup
  recorded a ha := by
    obtain ⟨b, hb, hon⟩ := ho.exists_block ha
    have hba : b ∈ A.all := Blocks.mem_all.2 (Or.inr hb)
    rw [hon.eq_alloc (hp a ha)]
    exact ⟨rfl, ho.rep.sizes b hba, b.grant, ho.rep.grants.mem_iff.1 (mem_map_of_mem hba), rfl,
      (A.fits b hba).2⟩
  payloads := by
    refine payloads_of_held ho.held ?_ fun b hb => (A.fits b (mem_append_right _ hb)).2
    have := A.apart
    rw [map_append, pairwise_append] at this
    exact this.2.1

/-! ## Runs of `malloc` and `free` -/

theorem unconfused_of_lt {a : Alloc} (h : a.size < 2 ^ 30) : a.Unconfused := by
  intro _
  unfold posixAlignMagic
  omega

/-- The client calls `malloc` with any size and `free` with pointers to allocations below
`2 ^ 30` bytes, and uses its memory. What `sbrk` returns is memory above all that it has returned
before: it refuses an increment that is negative. -/
def MallocFree (w : World) (c : Call) : Prop :=
  c.entry ∈ [Entry.malloc, .free, .store] ∧ c.Grows ∧
    ∀ a ∈ w.live, a.ptr = c.arg → a.size < 2 ^ 30

instance (w : World) (c : Call) : Decidable (MallocFree w c) := inferInstanceAs (Decidable (_ ∧ _))

/-- **The heap invariant of `malloc` and `free`.** At every point of every run, however the system
answers `sbrk`: the blocks obtained so far are disjoint, each is live or on the acyclic free list
exactly once and never both, live headers record the requested sizes within the capacities, and
live allocations do not overlap. Moreover no call hangs. -/
theorem malloc_free_heapOk {w w' : World} (hs : w.Start) (hr : Runs MallocFree w w') :
    (∃ free, HeapOk w' free) ∧ ∀ c : Call, c.Legal w' → ∃ w'', w'.exec c = some w'' := by
  obtain ⟨⟨A, ho⟩, hp⟩ := hr.forall_live (Q := fun a => a.kind = .plain) hs (fun _ _ hc => hc.2.1)
    (fun _ _ _ hc _ => plain_of_entry hc.1 (by decide))
    fun _ _ _ hc a ha e => unconfused_of_lt (hc.2.2 a ha e)
  exact ⟨⟨_, ho.heapOk hp⟩, fun c hc => exec_returns ⟨A, ho⟩ hc⟩

/-- A run that reuses a block for a smaller request. -/
theorem malloc_free_heapOk_reuse :
    ∃ w', Runs MallocFree (World.boot (fun _ => 0xA5) 4096) w' ∧
      w'.live = [⟨4112, 10, 4096, .plain⟩, ⟨4184, 8, 4168, .plain⟩] ∧
      ((∃ free, HeapOk w' free) ∧ ∀ c : Call, c.Legal w' → ∃ w'', w'.exec c = some w'') := by
  obtain ⟨w', hr, hl⟩ := Runs.of_play_map MallocFree (World.boot (fun _ => 0xA5) 4096)
    [.malloc 24 ⟨true, some 0⟩, .malloc 8 ⟨true, some 32⟩, .store 4112 7, .free 4112,
      .malloc 10 ⟨true, none⟩] World.live
    (by decide : _ = some [⟨4112, 10, 4096, .plain⟩, ⟨4184, 8, 4168, .plain⟩])
  exact ⟨w', hr, hl, malloc_free_heapOk (World.boot_start (by decide) (by decide)) hr⟩

end Vlibc.Memory
