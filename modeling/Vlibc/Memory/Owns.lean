import Vlibc.Memory.Spec

/-!
# Live allocations

A live allocation sits on a used block: directly behind its header, or, from `posix_memalign`,
behind an alignment header further up in the payload. `Owns h A live` says that the live allocations
and the used blocks of `A` correspond one to one. What is done to one allocation (`Owns.gain`,
`Owns.write`, `Owns.release`, `Owns.align`) leaves the blocks of all others `Kept`, byte for byte.
-/

namespace Vlibc.Memory

open ByteMemory List

/-- How an allocation was made. -/
inductive Kind
  | plain
  | aligned (alignment : ℕ)
  deriving DecidableEq

/-- A live allocation: the pointer, the size last asked for, and the header of its block. -/
structure Alloc where
  ptr : ℕ
  size : ℕ
  block : ℕ
  kind : Kind
  deriving DecidableEq

/-- The allocation that is a whole block. -/
def Block.alloc (b : Block) : Alloc := ⟨b.addr + 16, b.size, b.addr, .plain⟩

@[simp] theorem Block.alloc_ptr (b : Block) : b.alloc.ptr = b.addr + 16 := rfl

@[simp] theorem Block.alloc_size (b : Block) : b.alloc.size = b.size := rfl

@[simp] theorem Block.alloc_block (b : Block) : b.alloc.block = b.addr := rfl

/-- The size field in front of a plain allocation does not look like the magic of an aligned
one. -/
def Alloc.Unconfused (a : Alloc) : Prop :=
  a.kind = .plain → a.size % 2 ^ 32 ≠ posixAlignMagic

/-- An allocation in a block: at its start, or with a header of its own further behind. -/
inductive AllocOn (m : Mem) (b : Block) : Alloc → Prop
  | plain : AllocOn m b b.alloc
  | aligned {al q n : ℕ} (hal : 8 ∣ al) (hq : al ∣ q + 16) (hlo : b.addr + 16 ≤ q)
      (hhi : q + 16 + n ≤ b.addr + (16 + b.size)) (hm : magicAt m q = posixAlignMagic)
      (ho : nextAt m q = b.addr + 16) : AllocOn m b ⟨q + 16, n, b.addr, .aligned al⟩

/-- No byte of the block changes, header included. -/
def Kept (m m' : Mem) (b : Block) : Prop :=
  ∀ x, b.addr ≤ x → x < b.addr + (16 + b.cap) → m' x = m x

/-- No byte of the allocation's block changes, header included, as far as the header says. -/
def Alloc.Kept (m m' : Mem) (a : Alloc) : Prop :=
  ∀ x, a.block ≤ x → x < a.block + (16 + sizeAt m a.block) → m' x = m x

theorem Alloc.Kept.trans {m₁ m₂ m₃ : Mem} {a : Alloc} (h : a.Kept m₁ m₂) (h' : a.Kept m₂ m₃) :
    a.Kept m₁ m₃ := by
  have e : sizeAt m₂ a.block = sizeAt m₁ a.block := sizeAt_congr fun x h₁ h₂ => h x h₁ (by omega)
  exact fun x h₁ h₂ => (h' x h₁ (by omega)).trans (h x h₁ h₂)

namespace AllocOn

variable {m m' : Mem} {b : Block} {a : Alloc}

theorem block_eq (h : AllocOn m b a) : a.block = b.addr := by
  cases h <;> rfl

theorem eq_alloc (h : AllocOn m b a) (hk : a.kind = .plain) : a = b.alloc := by
  cases h with
  | plain => rfl
  | aligned => cases hk

theorem le_ptr (h : AllocOn m b a) : b.addr + 16 ≤ a.ptr := by
  cases h with
  | plain => exact le_rfl
  | aligned _ _ hlo => exact hlo.trans (Nat.le_add_right _ _)

theorem ptr_add_le (h : AllocOn m b a) : a.ptr + a.size ≤ b.addr + (16 + b.size) := by
  cases h with
  | plain => simp only [Block.alloc_ptr, Block.alloc_size]; omega
  | aligned _ _ _ hhi => exact hhi

/-- Allocations on blocks that are apart: so are their payloads, with the sixteen bytes in front
of each. -/
theorem apart {c : Block} {d : Alloc} (hb : AllocOn m b a) (hd : AllocOn m c d)
    (h : b.grant.Apart c.grant) (hbf : b.size ≤ b.cap) (hcf : c.size ≤ c.cap) :
    a.ptr + a.size ≤ d.ptr - 16 ∨ d.ptr + d.size ≤ a.ptr - 16 := by
  have h₁ := hb.le_ptr
  have h₂ := hb.ptr_add_le
  have h₃ := hd.le_ptr
  have h₄ := hd.ptr_add_le
  simp only [Grant.Apart, ByteMemory.Apart, Block.grant_addr, Block.grant_cap] at h
  omega

variable {used : List Block}

theorem exists_of_mem {live : List Alloc}
    (hf : List.Forall₂ (fun a b => AllocOn m b a) live used) (ha : a ∈ live) :
    ∃ b ∈ used, AllocOn m b a := by
  induction hf with
  | nil => simp at ha
  | cons hab _ ih =>
    rcases mem_cons.1 ha with rfl | ha
    · exact ⟨_, mem_cons_self, hab⟩
    · obtain ⟨b, hb, h⟩ := ih ha
      exact ⟨b, mem_cons_of_mem _ hb, h⟩

theorem congr (h : AllocOn m b a) (hm : ∀ x, b.addr + 16 ≤ x → x < a.ptr → m' x = m x) :
    AllocOn m' b a := by
  cases h with
  | plain => exact .plain
  | @aligned al q n hal hq hlo hhi hmag ho =>
    refine .aligned hal hq hlo hhi ?_ ?_
    · rw [magicAt_eq, sizeAt_congr fun x h₁ h₂ => hm x (by omega) h₂, ← magicAt_eq, hmag]
    · rw [nextAt_congr fun x h₁ h₂ => hm x (by omega) h₂, ho]

end AllocOn

/-- The live allocations correspond to the used blocks. -/
structure Owns (h : Heap) (A : Blocks) (live : List Alloc) : Prop where
  rep : Rep h A
  held : List.Forall₂ (fun a b => AllocOn h.mem b a) live A.used

/-- What is left alive when a pointer is freed. -/
def dropPtr (live : List Alloc) (p : ℕ) : List Alloc := live.filter fun a => a.ptr ≠ p

theorem mem_dropPtr {live : List Alloc} {p : ℕ} {a : Alloc} :
    a ∈ dropPtr live p ↔ a ∈ live ∧ a.ptr ≠ p := by
  simp [dropPtr]

namespace Owns

variable {h h' : Heap} {A : Blocks} {a : Alloc} {live : List Alloc} {b : Block}
  {rest : List Block}

theorem perm (ho : Owns h A live) {live' : List Alloc} (hp : live'.Perm live) :
    ∃ A', A'.free = A.free ∧ A'.used.Perm A.used ∧ Owns h A' live' := by
  obtain ⟨used, hf, hu⟩ := perm_comp_forall₂ hp ho.held
  exact ⟨A.permUsed hu, rfl, hu, ho.rep.permUsed hu, hf⟩

theorem cons_inv (ho : Owns h A (a :: live)) : ∃ b rest, A.used = b :: rest ∧ AllocOn h.mem b a := by
  obtain ⟨b, rest, hb, -, e⟩ := forall₂_cons_left_iff.1 ho.held
  exact ⟨b, rest, e, hb⟩

theorem on_head (ho : Owns h A (a :: live)) (e : A.used = b :: rest) : AllocOn h.mem b a := by
  have := ho.held
  rw [e] at this
  exact (forall₂_cons.1 this).1

theorem on_tail (ho : Owns h A (a :: live)) (e : A.used = b :: rest) :
    List.Forall₂ (fun a b => AllocOn h.mem b a) live rest := by
  have := ho.held
  rw [e] at this
  exact (forall₂_cons.1 this).2

theorem exists_block (ho : Owns h A live) (ha : a ∈ live) : ∃ b ∈ A.used, AllocOn h.mem b a :=
  AllocOn.exists_of_mem ho.held ha

theorem apart (ho : Owns h A (a :: live)) {c : Alloc} (hc : c ∈ live) :
    a.ptr + a.size ≤ c.ptr - 16 ∨ c.ptr + c.size ≤ a.ptr - 16 := by
  obtain ⟨b, rest, e, hb⟩ := ho.cons_inv
  obtain ⟨d, hd, hon⟩ := AllocOn.exists_of_mem (ho.on_tail e) hc
  exact hb.apart hon (A.apart_used e hd) (A.fits b (by simp [e])).2 (A.fits d (by simp [e, hd])).2

theorem ptr_ne (ho : Owns h A (a :: live)) {c : Alloc} (hc : c ∈ live) : c.ptr ≠ a.ptr := by
  obtain ⟨b, -, hb⟩ := ho.exists_block mem_cons_self
  have h₁ := hb.le_ptr
  have h₂ := ho.apart hc
  omega

theorem perm_drop (ho : Owns h A live) (ha : a ∈ live) :
    (a :: dropPtr live a.ptr).Perm live := by
  obtain ⟨l₁, l₂, rfl⟩ := append_of_mem ha
  obtain ⟨A', -, -, ho'⟩ := ho.perm List.perm_middle.symm
  have e : dropPtr (l₁ ++ a :: l₂) a.ptr = l₁ ++ l₂ := by
    simp only [dropPtr, filter_append, filter_cons]
    rw [filter_eq_self.2 fun c hc => by simpa using ho'.ptr_ne (by simp [hc]),
      filter_eq_self.2 fun c hc => by simpa using ho'.ptr_ne (by simp [hc])]
    simp
  rw [e]
  exact List.perm_middle.symm

theorem focus (ho : Owns h A live) (ha : a ∈ live) :
    ∃ A', A'.free = A.free ∧ A'.used.Perm A.used ∧ Owns h A' (a :: dropPtr live a.ptr) :=
  ho.perm (ho.perm_drop ha)

theorem held_congr {m m' : Mem}
    (hf : List.Forall₂ (fun a b => AllocOn m b a) live used)
    (hm : ∀ b ∈ used, ∀ x, b.addr + 16 ≤ x → x < b.addr + (16 + b.size) → m' x = m x) :
    List.Forall₂ (fun a b => AllocOn m' b a) live used := by
  induction hf with
  | nil => exact .nil
  | @cons a b _ _ hab _ ih =>
    refine .cons (hab.congr fun x h₁ h₂ => hm b mem_cons_self x h₁ ?_)
      (ih fun c hc => hm c (mem_cons_of_mem _ hc))
    have := hab.ptr_add_le
    omega

/-- Used blocks that keep their bytes: their allocations are still there, and keep theirs. -/
theorem held_kept {m' : Mem} (hr : Rep h A) (hA : ∀ b ∈ used, b ∈ A.all)
    (hf : List.Forall₂ (fun a b => AllocOn h.mem b a) live used)
    (hk : ∀ b ∈ used, Kept h.mem m' b) :
    List.Forall₂ (fun a b => AllocOn m' b a) live used ∧ ∀ a ∈ live, a.Kept h.mem m' := by
  refine ⟨held_congr hf fun b hb x h₁ h₂ => hk b hb x (by omega) ?_, fun a ha x h₁ h₂ => ?_⟩
  · have := (A.fits b (hA b hb)).2
    omega
  · obtain ⟨b, hbu, hb⟩ := AllocOn.exists_of_mem hf ha
    have := (A.fits b (hA b hbu)).2
    rw [hb.block_eq] at h₁ h₂
    rw [hr.sizes b (hA b hbu)] at h₂
    exact hk b hbu x h₁ (by omega)

theorem gain {os : Sbrk} {n : ℕ} {A' : Blocks} (ho : Owns h A live)
    (hob : Obtained os h A n h' A' b) :
    Owns h' A' (b.alloc :: live) ∧ ∀ c ∈ live, c.Kept h.mem h'.mem := by
  have hk : ∀ c ∈ A.used, Kept h.mem h'.mem c := by
    intro c hc x h₁ h₂
    refine hob.mem x fun d hd => ?_
    have hap : d.grant.Apart c.grant := by
      rcases mem_cons.1 hd with rfl | hd
      · exact A'.apart_used hob.used hc
      · exact A.apart_free_used hd hc
    simp only [Grant.Apart, ByteMemory.Apart, Block.grant_addr, Block.grant_cap] at hap
    omega
  obtain ⟨hf, hk'⟩ := held_kept ho.rep (fun b hb => Blocks.mem_all.2 (Or.inr hb)) ho.held hk
  refine ⟨⟨hob.rep, ?_⟩, hk'⟩
  rw [hob.used]
  exact .cons .plain hf

theorem write (ho : Owns h A (a :: live))
    (hm : ∀ x, x < a.ptr ∨ a.ptr + a.size ≤ x → h'.mem x = h.mem x)
    (hf : h'.freeList = h.freeList) (hb : h'.brk = h.brk) (hg : h'.grants = h.grants) :
    Owns h' A (a :: live) ∧ ∀ c ∈ live, c.Kept h.mem h'.mem := by
  obtain ⟨b, rest, e, hon⟩ := ho.cons_inv
  have h₁ := hon.le_ptr
  have h₂ := hon.ptr_add_le
  have h₃ := (A.fits b (by simp [e])).2
  have hk : ∀ c ∈ rest, Kept h.mem h'.mem c := by
    intro c hc x hx hx'
    have hap := A.apart_used e hc
    simp only [Grant.Apart, ByteMemory.Apart, Block.grant_addr, Block.grant_cap] at hap
    exact hm x (by omega)
  obtain ⟨hfa, hk'⟩ := held_kept ho.rep
    (fun c hc => Blocks.mem_all.2 (Or.inr (by simp [e, hc]))) (ho.on_tail e) hk
  refine ⟨⟨ho.rep.of_headers (fun c hc x hx hx' => hm x ?_) hf hb hg, ?_⟩, hk'⟩
  · by_cases hcb : c.addr = b.addr
    · omega
    · have hap := A.apart_of_ne hc (Blocks.mem_all.2 (Or.inr (by simp [e] : b ∈ A.used))) hcb
      simp only [Grant.Apart, ByteMemory.Apart, Block.grant_addr, Block.grant_cap] at hap
      omega
  · rw [e]
    exact .cons (hon.congr fun x hx hx' => hm x (Or.inl hx')) hfa

theorem proper_hdr (ho : Owns h A live) (ha : a ∈ live) :
    hdrOf a.ptr = a.ptr - 16 ∧ Proper h.grants (.header (a.ptr - 16)) := by
  obtain ⟨b, hb, hon⟩ := ho.exists_block ha
  have hba : b ∈ A.all := Blocks.mem_all.2 (Or.inr hb)
  have h₁ := hon.le_ptr
  have h₂ := hon.ptr_add_le
  have h₃ := (A.fits b hba).2
  have h₄ := ho.rep.below b hba
  have h₅ := ho.rep.brk_lt
  refine ⟨hdrOf_of_le (by omega) (by omega), ?_⟩
  cases hon with
  | plain => exact ho.rep.proper ⟨b, hba, rfl⟩
  | @aligned al q n hal hq =>
    exact .inr ((Nat.dvd_sub (hal.trans hq) (by decide : 8 ∣ 16)))

/-- **`free` of a live allocation** puts its block at the head of the free list. -/
theorem release (ho : Owns h A (a :: live)) (e : A.used = b :: rest) (hu : a.Unconfused) :
    Owns (h.free a.ptr) (A.release e) live ∧ (∀ c ∈ live, c.Kept h.mem (h.free a.ptr).mem) ∧
      Quiet h (h.free a.ptr) := by
  have hon := ho.on_head e
  have hba : b ∈ A.all := Blocks.mem_all.2 (Or.inr (by simp [e]))
  have hbf := (A.fits b hba).2
  have hap : ∀ c ∈ rest, b.addr + (16 + b.cap) ≤ c.addr ∨ c.addr + (16 + c.cap) ≤ b.addr :=
    fun c hc => A.apart_used e hc
  have key : Rep (h.free a.ptr) (A.release e) ∧ (∀ c ∈ rest, Kept h.mem (h.free a.ptr).mem c) ∧
      (h.free a.ptr).log = .header b.addr :: .header (a.ptr - 16) :: h.log := by
    cases hon with
    | plain =>
      obtain ⟨hr, hm, hl⟩ := free_plain ho.rep e (hu rfl)
      exact ⟨hr, fun c hc x h₁ h₂ => hm x (by have := hap c hc; omega), hl⟩
    | @aligned al q n hal hq hlo hhi hmag horig =>
      obtain ⟨hr, hm, hl⟩ := free_aligned ho.rep e hlo (by omega) hmag horig
      exact ⟨hr, fun c hc x h₁ h₂ => hm x (by have := hap c hc; omega)
        (by have := hap c hc; omega), hl⟩
  obtain ⟨hr, hk, hl⟩ := key
  obtain ⟨hf, hk'⟩ := held_kept ho.rep
    (fun c hc => Blocks.mem_all.2 (Or.inr (by simp [e, hc]))) (ho.on_tail e) hk
  refine ⟨⟨hr, hf⟩, hk', free_grants .., free_brk .., ?_⟩
  refine ⟨[.header b.addr, .header (a.ptr - 16)], hl, fun x hx => ?_⟩
  simp only [mem_cons, not_mem_nil, or_false] at hx
  rcases hx with rfl | rfl
  · exact ho.rep.proper ⟨b, hba, rfl⟩
  · exact (ho.proper_hdr mem_cons_self).2

/-- **An alignment header** at `q`, in the payload of a block, makes it an aligned allocation. -/
theorem align (ho : Owns h A (b.alloc :: live)) (e : A.used = b :: rest) {al q n : ℕ}
    (hal : 8 ∣ al) (hq : al ∣ q + 16) (hlo : b.addr + 16 ≤ q)
    (hhi : q + 16 + n ≤ b.addr + (16 + b.size))
    (hm : h'.mem = storeLE (storeLE h.mem q 4 posixAlignMagic) (q + 8) 8 (b.addr + 16))
    (hf : h'.freeList = h.freeList) (hb : h'.brk = h.brk) (hg : h'.grants = h.grants) :
    Owns h' A (⟨q + 16, n, b.addr, .aligned al⟩ :: live) ∧ ∀ c ∈ live, c.Kept h.mem h'.mem := by
  have hba : b ∈ A.all := Blocks.mem_all.2 (Or.inr (by simp [e]))
  have hbl := ho.rep.addr_lt hba
  have hw : ∀ x, x < b.alloc.ptr ∨ b.alloc.ptr + b.alloc.size ≤ x → h'.mem x = h.mem x := by
    intro x hx
    simp only [Block.alloc_ptr, Block.alloc_size] at hx
    rw [hm, storeLE_of_not _ _ _ _ (by omega), storeLE_of_not _ _ _ _ (by omega)]
  obtain ⟨ho', hk⟩ := ho.write hw hf hb hg
  refine ⟨⟨ho'.rep, ?_⟩, hk⟩
  rw [e]
  refine .cons (.aligned hal hq hlo hhi ?_ ?_) (ho'.on_tail e)
  · rw [hm, magicAt, loadLE_storeLE_of_apart _ _ (Or.inr (by omega)),
      loadLE_storeLE_of_lt _ _ (by decide)]
  · rw [hm, nextAt, loadLE_storeLE_of_lt _ _ (lt_of_lt_of_eq hbl (by norm_num))]

theorem write_mem (ho : Owns h A live) (ha : a ∈ live) {m : Mem}
    (hm : ∀ x, x < a.ptr ∨ a.ptr + a.size ≤ x → m x = h.mem x) :
    ∃ A', A'.free = A.free ∧ A'.all.Perm A.all ∧ Owns { h with mem := m } A' live := by
  obtain ⟨A₁, hf₁, hu₁, ho₁⟩ := ho.focus ha
  obtain ⟨ho₂, -⟩ : Owns { h with mem := m } A₁ (a :: dropPtr live a.ptr) ∧ _ :=
    ho₁.write hm rfl rfl rfl
  obtain ⟨A₂, hf₂, hu₂, ho₃⟩ := ho₂.perm (ho.perm_drop ha).symm
  refine ⟨A₂, hf₂.trans hf₁, ?_, ho₃⟩
  simp only [Blocks.all, hf₂, hf₁]
  exact (hu₂.trans hu₁).append_left _

theorem store (ho : Owns h A live) {x : ℕ} (v : UInt8)
    (hx : ∃ a ∈ live, a.ptr ≤ x ∧ x < a.ptr + a.size) :
    ∃ A', A'.all.Perm A.all ∧ Owns { h with mem := Function.update h.mem x v } A' live := by
  obtain ⟨a, ha, h₁, h₂⟩ := hx
  obtain ⟨A', -, hp, ho'⟩ := ho.write_mem ha (m := Function.update h.mem x v)
    fun y hy => Function.update_of_ne (by omega) _ _
  exact ⟨A', hp, ho'⟩

end Owns

end Vlibc.Memory
