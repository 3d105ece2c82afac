import Vlibc.Memory.Run

/-!
# Which block `free` releases

`free` looks at the four bytes where an alignment header has its magic. In front of a plain
allocation these are the low half of its recorded size: a size that is the magic modulo `2 ^ 32`
sends `free` down the wrong branch, where it takes the stale link of the block for the pointer to
release. `free` releases the right block and touches no other for all other live allocations, and
for those whose stale link happens to be their own address (`free_exact_iff`).
-/

namespace Vlibc.Memory

open ByteMemory List Block

variable {h : Heap} {A : Blocks} {live : List Alloc} {a : Alloc}

/-- `free` puts exactly the block of `a` on the free list, and changes neither header nor payload
of any other live allocation. -/
def FreesExactly (w : World) (a : Alloc) : Prop :=
  (∀ l, Chain (nextAt w.heap.mem) 0 w.heap.freeList l →
    Chain (nextAt (w.heap.free a.ptr).mem) 0 (w.heap.free a.ptr).freeList (a.block :: l)) ∧
  ∀ c ∈ w.live, c.ptr ≠ a.ptr → c.Kept w.heap.mem (w.heap.free a.ptr).mem

theorem not_unconfused_iff :
    ¬ a.Unconfused ↔ a.kind = .plain ∧ a.size % 2 ^ 32 = posixAlignMagic := by
  rw [Alloc.Unconfused, Classical.not_imp, not_not]

theorem free_confused (ho : Owns h A live) (ha : a ∈ live) (hc : ¬ a.Unconfused) :
    h.free a.ptr = Heap.freeImpl
      { h with mem := storeLE h.mem a.block 4 0, log := .header a.block :: h.log }
      (nextAt h.mem a.block) := by
  obtain ⟨hk, hm⟩ := not_unconfused_iff.1 hc
  obtain ⟨b, hb, hon⟩ := ho.exists_block ha
  obtain rfl := hon.eq_alloc hk
  have hba : b ∈ A.all := Blocks.mem_all.2 (Or.inr hb)
  have hlt := ho.rep.addr_lt hba
  have hmag : magicAt h.mem b.addr = posixAlignMagic := by
    rw [magicAt_eq, ho.rep.sizes b hba]
    exact hm
  simp only [alloc_ptr, alloc_block]
  rw [Heap.free, if_neg (by omega), hdrOf_add (by omega)]
  simp only [if_pos hmag]

/-- The wrong branch releases the right block only if the stale link names it. -/
theorem free_confused_ne (ho : Owns h A live) (ha : a ∈ live) (hc : ¬ a.Unconfused)
    (hne : nextAt h.mem a.block ≠ a.ptr) : (h.free a.ptr).freeList ≠ a.block := by
  rw [free_confused ho ha hc]
  obtain ⟨b, hb, hon⟩ := ho.exists_block ha
  obtain rfl := hon.eq_alloc (not_unconfused_iff.1 hc).1
  simp only [alloc_ptr, alloc_block] at hne ⊢
  have hba : b ∈ A.all := Blocks.mem_all.2 (Or.inr hb)
  have hlt := ho.rep.addr_lt hba
  have hpos := (A.fits b hba).1
  rw [Heap.freeImpl]
  by_cases h0 : nextAt h.mem b.addr = 0
  · -- nothing is released, and a live block is not on the list yet
    rw [if_pos h0]
    intro (e : h.freeList = b.addr)
    obtain ⟨c, hcf, hca⟩ := mem_map.1 (ho.rep.chain.head_mem (by omega))
    exact (A.apart_free_used hcf hb).ne (hca.trans e)
  · rw [if_neg h0]
    intro (e : hdrOf (nextAt h.mem b.addr) = b.addr)
    have := nextAt_lt h.mem b.addr
    unfold hdrOf at e
    omega

/-- If the stale link does name it, only the header of the block changes. -/
theorem free_confused_self (ho : Owns h A live) (ha : a ∈ live) (hc : ¬ a.Unconfused)
    (he : nextAt h.mem a.block = a.ptr) :
    (h.free a.ptr).freeList = a.block ∧
      (∀ x, x < a.block ∨ a.block + 16 ≤ x → (h.free a.ptr).mem x = h.mem x) ∧
      nextAt (h.free a.ptr).mem a.block = h.freeList := by
  have hfl := ho.rep.freeList_lt
  rw [free_confused ho ha hc, he]
  obtain ⟨b, hb, hon⟩ := ho.exists_block ha
  obtain rfl := hon.eq_alloc (not_unconfused_iff.1 hc).1
  have hlt := ho.rep.addr_lt (Blocks.mem_all.2 (Or.inr hb))
  simp only [alloc_ptr, alloc_block]
  rw [Heap.freeImpl, if_neg (by omega), hdrOf_add (by omega)]
  refine ⟨rfl, fun x hx => ?_, ?_⟩
  · simp only
    rw [storeLE_of_not _ _ _ _ (by omega), storeLE_of_not _ _ _ _ (by omega)]
  · rw [nextAt, loadLE_storeLE_of_lt _ _ (lt_of_lt_of_eq hfl (by norm_num))]

theorem push_block (ho : Owns h A live) (ha : a ∈ live) {m : Mem}
    (hm : ∀ x, x < a.block ∨ a.block + 16 ≤ x → m x = h.mem x)
    (hn : nextAt m a.block = h.freeList) :
    Chain (nextAt m) 0 a.block (a.block :: A.free.map Block.addr) ∧
      ∀ c ∈ live, c.ptr ≠ a.ptr → c.Kept h.mem m := by
  obtain ⟨A₁, hf, -, ho₁⟩ := ho.focus ha
  obtain ⟨b, rest, e, hb⟩ := ho₁.cons_inv
  have hbu : b ∈ A₁.used := by simp [e]
  have hba : b ∈ A₁.all := Blocks.mem_all.2 (Or.inr hbu)
  rw [hb.block_eq] at hm hn ⊢
  refine ⟨ho.rep.chain.push (A₁.fits b hba).1.ne' hn fun x hx => ?_, fun c hc hne => ?_⟩
  · rw [← hf] at hx
    obtain ⟨c, hc, rfl⟩ := mem_map.1 hx
    have hap := A₁.apart_free_used hc hbu
    simp only [Grant.Apart, ByteMemory.Apart, grant_addr, grant_cap] at hap
    exact nextAt_congr fun x h₁ h₂ => hm x (by omega)
  · have hk : ∀ d ∈ rest, Kept h.mem m d := fun d hd x h₁ h₂ => by
      have hap := A₁.apart_used e hd
      simp only [Grant.Apart, ByteMemory.Apart, grant_addr, grant_cap] at hap
      exact hm x (by omega)
    exact (Owns.held_kept ho₁.rep (fun d hd => Blocks.mem_all.2 (Or.inr (by simp [e, hd])))
      (ho₁.on_tail e) hk).2 c (mem_dropPtr.2 ⟨hc, hne⟩)

/-- **When `free` returns exactly the freed block.** For a live allocation of any kind and size, in
every heap reached by clear calls: `free` releases its block and leaves every other allocation
alone, unless the low half of a plain allocation's size is the magic; then it does so only if the
stale link in its header is the allocation's own address. -/
theorem free_exact_iff {w w' : World} (hs : w.Start) (hr : Runs ClearCalls w w') {a : Alloc}
    (ha : a ∈ w'.live) :
    FreesExactly w' a ↔ a.Unconfused ∨ nextAt w'.heap.mem a.block = a.ptr := by
  obtain ⟨A, ho⟩ := hr.inv hs.inv
  by_cases hu : a.Unconfused
  · refine iff_of_true ⟨fun l hl => ?_, fun c hc hne => ?_⟩ (Or.inl hu) <;>
      obtain ⟨A', b, hf, -, hb, ho', hk, -⟩ := ho.free ha hu
    · have hch := ho'.rep.chain
      rw [hf, map_cons, hb] at hch
      rw [hl.unique ho.rep.chain]
      exact hch
    · exact hk c (mem_dropPtr.2 ⟨hc, hne⟩)
  · rw [or_iff_right hu]
    constructor
    · intro hx
      by_contra hne
      exact free_confused_ne ho ha hu hne (Chain.cons_iff.1 (hx.1 _ ho.rep.chain)).1
    · intro hx
      obtain ⟨hfl, hm, hn⟩ := free_confused_self ho ha hu hx
      obtain ⟨hch, hk⟩ := push_block ho ha hm hn
      refine ⟨fun l hl => ?_, hk⟩
      rw [hfl, hl.unique ho.rep.chain]
      exact hch

/-- A plain and an aligned allocation. -/
theorem free_exact_iff_aligned :
    ∃ w', Runs ClearCalls (World.boot (fun _ => 0) 4096) w' ∧
      w'.live = [⟨4160, 100, 4121, .aligned 64⟩, ⟨4112, 9, 4096, .plain⟩] ∧
      (FreesExactly w' ⟨4160, 100, 4121, .aligned 64⟩ ↔
        (⟨4160, 100, 4121, .aligned 64⟩ : Alloc).Unconfused ∨ nextAt w'.heap.mem 4121 = 4160) := by
  obtain ⟨w', hr, hl⟩ := Runs.of_play_map ClearCalls (World.boot (fun _ => 0) 4096)
    [.malloc 9 ⟨true, some 0⟩, .posixMemalign 64 100 ⟨true, some 0⟩] World.live
    (by decide : _ = some [⟨4160, 100, 4121, .aligned 64⟩, ⟨4112, 9, 4096, .plain⟩])
  exact ⟨w', hr, hl, free_exact_iff (World.boot_start (by decide) (by decide)) hr (by simp [hl])⟩

/-- **A size that is the magic**: `free` reads the fresh block's link, finds `NULL` there, and
releases nothing. -/
theorem free_of_magic_size :
    ∃ w', Runs ClearCalls (World.boot (fun _ => 0) 4096) w' ∧
      w'.live = [⟨4112, 0x50414C47, 4096, .plain⟩] ∧
      ¬ FreesExactly w' ⟨4112, 0x50414C47, 4096, .plain⟩ := by
  obtain ⟨w', hr, hw⟩ := Runs.of_play_map ClearCalls (World.boot (fun _ => 0) 4096)
    [.malloc 0x50414C47 ⟨true, some 0⟩]
    (fun w => (w.live, w.heap.freeList, (w.heap.free 4112).freeList))
    (by decide : _ = some ([⟨4112, 0x50414C47, 4096, .plain⟩], 0, 0))
  simp only [Prod.mk.injEq] at hw
  obtain ⟨hl, hf, hf'⟩ := hw
  refine ⟨w', hr, hl, fun hx => ?_⟩
  have := (Chain.cons_iff.1 (hx.1 [] hf)).1
  rw [hf'] at this
  cases this

end Vlibc.Memory
