import Vlibc.Memory.Blocks

/-!
# What `malloc` and `free` do to the blocks

Everything above the two primitives goes through these lemmas. `malloc` always returns
(`malloc_cases`): it fails and leaves the memory alone, or takes the first fitting free block
(`Blocks.reuse`), or, when none fits, a new one (`Blocks.grow`). `free` puts a used block at the
head of the free list (`Blocks.release`), when the sixteen bytes in front of the pointer are read
for what they are (`free_plain`, `free_aligned`).
-/

namespace Vlibc.Memory

open ByteMemory List

theorem firstFit_of_chain {m : Mem} (size prev : ℕ) {l : List ℕ} {fuel b : ℕ}
    (hc : Chain (nextAt m) 0 b l) (hf : l.length < fuel) :
    (∃ pre c post, l = pre ++ c :: post ∧ (∀ x ∈ pre, sizeAt m x < size) ∧ size ≤ sizeAt m c ∧
      firstFit m size fuel prev b = some ⟨pre ++ [c], some (pre.getLastD prev, c)⟩) ∨
    ((∀ x ∈ l, sizeAt m x < size) ∧ firstFit m size fuel prev b = some ⟨l, none⟩) := by
  induction l generalizing fuel prev b with
  | nil =>
    obtain _ | fuel := fuel
    · omega
    obtain rfl := Chain.nil_iff.1 hc
    exact .inr ⟨by simp, by simp [firstFit]⟩
  | cons c l ih =>
    obtain _ | fuel := fuel
    · omega
    obtain ⟨rfl, hb, ht⟩ := Chain.cons_iff.1 hc
    rw [firstFit, if_neg hb]
    by_cases hs : size ≤ sizeAt m b
    · exact .inl ⟨[], b, l, rfl, by simp, hs, by simp [hs]⟩
    · rw [if_neg hs]
      have hs' : sizeAt m b < size := not_le.1 hs
      rcases ih b ht (by simp at hf; omega) with ⟨pre, c, post, rfl, hp, hc', e⟩ | ⟨hl, e⟩
      · refine .inl ⟨b :: pre, c, post, rfl, ?_, hc', ?_⟩
        · simpa [hs'] using hp
        · rw [e, getLastD_cons]
          rfl
      · refine .inr ⟨by simpa [hs'] using hl, ?_⟩
        rw [e]
        rfl

/-- `h'` logs more than `h`, and what it logs more are accesses in `P`. -/
def LogsMore (h h' : Heap) (P : Access → Prop) : Prop :=
  ∃ new, h'.log = new ++ h.log ∧ ∀ e ∈ new, P e

theorem LogsMore.refl (h : Heap) (P : Access → Prop) : LogsMore h h P := ⟨[], rfl, by simp⟩

variable {h₁ h₂ h₃ : Heap}

theorem LogsMore.trans {P : Access → Prop} (h : LogsMore h₁ h₂ P)
    (h' : LogsMore h₂ h₃ P) : LogsMore h₁ h₃ P := by
  obtain ⟨n₁, e₁, hn₁⟩ := h
  obtain ⟨n₂, e₂, hn₂⟩ := h'
  refine ⟨n₂ ++ n₁, by rw [e₂, e₁, append_assoc], fun e he => ?_⟩
  rcases mem_append.1 he with he | he
  · exact hn₂ e he
  · exact hn₁ e he

variable {h h' : Heap}

theorem LogsMore.mono {P Q : Access → Prop} (hl : LogsMore h h' P)
    (hPQ : ∀ e, P e → Q e) : LogsMore h h' Q :=
  let ⟨n, e, hn⟩ := hl
  ⟨n, e, fun a ha => hPQ a (hn a ha)⟩

/-- The copies among the accesses. -/
def copies : List Access → List (ℕ × ℕ)
  | [] => []
  | .header _ :: l => copies l
  | .copy src len :: l => (src, len) :: copies l

theorem copies_of_headers {new l : List Access} (h : ∀ e ∈ new, ∃ a, e = .header a) :
    copies (new ++ l) = copies l := by
  induction new with
  | nil => rfl
  | cons e new ih =>
    obtain ⟨a, rfl⟩ := h e mem_cons_self
    exact ih fun e he => h e (mem_cons_of_mem _ he)

/-- An access to the header of a block. -/
def IsHeaderOf (l : List Block) (e : Access) : Prop := ∃ b ∈ l, e = .header b.addr

theorem LogsMore.copies_eq {l : List Block} (hl : LogsMore h h' (IsHeaderOf l)) :
    copies h'.log = copies h.log := by
  obtain ⟨new, e, hn⟩ := hl
  rw [e, copies_of_headers fun x hx => let ⟨b, _, hb⟩ := hn x hx; ⟨b.addr, hb⟩]

/-- `x` is no header byte of the blocks in the list. -/
def OffHeaders (l : List Block) (x : ℕ) : Prop := ∀ b ∈ l, x < b.addr ∨ b.addr + 16 ≤ x

/-- How a `malloc` of `n` bytes on a heap of blocks `A` can come out. -/
inductive MallocOut (os : Sbrk) (h : Heap) (A : Blocks) (n : ℕ) (h' : Heap) : ℕ → Prop
  /-- It fails. -/
  | failed (hm : h'.mem = h.mem) (hf : h'.freeList = h.freeList) (hb : h'.brk = h.brk)
      (hg : h'.grants = h.grants) (hl : LogsMore h h' (IsHeaderOf A.all)) :
      MallocOut os h A n h' 0
  /-- It takes the first free block that is large enough. -/
  | reused {pre post : List Block} {b : Block} (e : A.free = pre ++ b :: post) (hn : n ≤ b.size)
      (hpre : ∀ c ∈ pre, c.size < n) (hr : Rep h' (A.reuse e hn)) (hb : h'.brk = h.brk)
      (hg : h'.grants = h.grants) (hm : ∀ x, OffHeaders A.free x → h'.mem x = h.mem x)
      (hl : LogsMore h h' (IsHeaderOf A.all)) : MallocOut os h A n h' (b.addr + 16)
  /-- No free block is large enough, and it takes a new one. -/
  | grown {gap a : ℕ} (hgap : os.gap = some gap) (hbrk : a = h.brk + gap)
      (hfree : ∀ c ∈ A.free, c.size < n) (ha : 0 < a)
      (hA : ∀ b ∈ A.all, b.addr + (16 + b.cap) ≤ a) (hr : Rep h' (A.grow a n ha hA))
      (hb : h'.brk = a + (16 + n)) (hg : h'.grants = ⟨a, n⟩ :: h.grants)
      (hm : ∀ x, x < a ∨ a + 8 ≤ x → h'.mem x = h.mem x)
      (hl : LogsMore h h' (IsHeaderOf (⟨a, n, n⟩ :: A.all)))
      (ht : .header a ∈ h'.log) : MallocOut os h A n h' (a + 16)

/-! ## Taking a block off the free list -/

section Take

variable {A : Blocks} {pre post : List Block} {b : Block} {n : ℕ}

theorem prev_cases (e : A.free = pre ++ b :: post) :
    (pre = [] ∧ (pre.map Block.addr).getLastD 0 = 0) ∨
      ∃ s a, pre = s ++ [a] ∧ a ∈ A.free ∧ (pre.map Block.addr).getLastD 0 = a.addr := by
  rcases eq_nil_or_concat pre with rfl | ⟨s, a, rfl⟩
  · exact .inl ⟨rfl, rfl⟩
  · refine .inr ⟨s, a, concat_eq_append, by simp [e], by simp⟩

theorem takeBlock_chain (hr : Rep h A) (e : A.free = pre ++ b :: post) :
    Chain (nextAt (h.takeBlock ((pre.map Block.addr).getLastD 0) b.addr n).mem) 0
      (h.takeBlock ((pre.map Block.addr).getLastD 0) b.addr n).freeList
      ((pre ++ post).map Block.addr) := by
  have hall : ∀ c ∈ A.free, c ∈ A.all := fun c hc => Blocks.mem_all.2 (Or.inl hc)
  have hb : b ∈ A.all := hall b (by simp [e])
  have hch := hr.chain
  rw [e] at hch
  rcases prev_cases e with ⟨rfl, hp⟩ | ⟨s, a, rfl, ha, hp⟩
  · rw [hp]
    simp only [Heap.takeBlock, if_true]
    refine hch.pop.congr fun x hx => ?_
    obtain ⟨c, hc, rfl⟩ := mem_map.1 hx
    exact nextAt_storeSize A _ hb (hall c (by simp [e, hc]))
  · rw [hp]
    have ha0 : a.addr ≠ 0 := (A.fits a (hall a ha)).1.ne'
    simp only [Heap.takeBlock, if_neg ha0]
    simp only [append_assoc, map_append, map_cons, cons_append, nil_append] at hch ⊢
    -- the links after both stores, at any free block
    have key : ∀ c ∈ A.free, nextAt (storeLE (storeLE h.mem (a.addr + 8) 8 (nextAt h.mem b.addr))
        b.addr 8 n) c.addr =
          if c.addr = a.addr then nextAt h.mem b.addr else nextAt h.mem c.addr := fun c hc => by
      rw [nextAt_storeSize A _ hb (hall c hc),
        nextAt_storeNext A _ (hall a ha) (hall c hc) (nextAt_lt _ _)]
    refine hch.unlink ?_ fun x hx hxa => ?_
    · rw [key a ha, if_pos rfl]
    · have hx' : x ∈ A.free.map Block.addr := by
        rw [e]
        simpa using hx
      obtain ⟨c, hc, rfl⟩ := mem_map.1 hx'
      rw [key c hc, if_neg hxa]

theorem takeBlock_sizes (e : A.free = pre ++ b :: post) (hn : n < 2 ^ 64) {c : Block}
    (hc : c ∈ A.all) :
    sizeAt (h.takeBlock ((pre.map Block.addr).getLastD 0) b.addr n).mem c.addr =
      if c.addr = b.addr then n else sizeAt h.mem c.addr := by
  have hall : ∀ c ∈ A.free, c ∈ A.all := fun c hc => Blocks.mem_all.2 (Or.inl hc)
  have hb : b ∈ A.all := hall b (by simp [e])
  rcases prev_cases e with ⟨rfl, hp⟩ | ⟨s, a, rfl, ha, hp⟩
  · rw [hp]
    simp only [Heap.takeBlock, if_true]
    exact sizeAt_storeSize A _ hb hc hn
  · rw [hp]
    have ha0 : a.addr ≠ 0 := (A.fits a (hall a ha)).1.ne'
    simp only [Heap.takeBlock, if_neg ha0]
    rw [sizeAt_storeSize A _ hb hc hn, sizeAt_storeNext A _ (hall a ha) hc]

theorem takeBlock_off (e : A.free = pre ++ b :: post) {x : ℕ} (hx : OffHeaders A.free x) :
    (h.takeBlock ((pre.map Block.addr).getLastD 0) b.addr n).mem x = h.mem x := by
  have hxb := hx b (by simp [e])
  rcases prev_cases e with ⟨rfl, hp⟩ | ⟨s, a, rfl, ha, hp⟩
  · rw [hp]
    simp only [Heap.takeBlock, if_true]
    exact storeLE_of_not _ _ _ _ (by omega)
  · rw [hp]
    have hxa := hx a ha
    have ha0 : a.addr ≠ 0 := (A.fits a (Blocks.mem_all.2 (Or.inl ha))).1.ne'
    simp only [Heap.takeBlock, if_neg ha0]
    rw [storeLE_of_not _ _ _ _ (by omega), storeLE_of_not _ _ _ _ (by omega)]

@[simp] theorem takeBlock_brk (h : Heap) (p b n : ℕ) : (h.takeBlock p b n).brk = h.brk := by
  simp only [Heap.takeBlock]
  split_ifs <;> rfl

@[simp] theorem takeBlock_grants (h : Heap) (p b n : ℕ) :
    (h.takeBlock p b n).grants = h.grants := by
  simp only [Heap.takeBlock]
  split_ifs <;> rfl

@[simp] theorem takeBlock_log (h : Heap) (p b n : ℕ) : (h.takeBlock p b n).log = h.log := by
  simp only [Heap.takeBlock]
  split_ifs <;> rfl

theorem takeBlock_rep (hr : Rep h A) (e : A.free = pre ++ b :: post) (hn : n ≤ b.size) :
    Rep (h.takeBlock ((pre.map Block.addr).getLastD 0) b.addr n) (A.reuse e hn) := by
  have hb : b ∈ A.all := Blocks.mem_all.2 (Or.inl (by simp [e]))
  have hn64 : n < 2 ^ 64 := lt_of_le_of_lt hn (hr.size_lt hb)
  -- every block but `b` was there before, at another address
  have hmem : ∀ c ∈ (A.reuse e hn).all, c = b.resize n ∨ c ∈ A.all ∧ c.addr ≠ b.addr := by
    intro c hc
    have hd := hr.chain.nodup
    rw [e, map_append, map_cons] at hd
    have hd' := nodup_middle.1 hd
    rw [nodup_cons, ← map_append] at hd'
    rcases Blocks.mem_all.1 hc with hc | hc
    · refine .inr ⟨Blocks.mem_all.2 (Or.inl ?_), fun hcb => hd'.1 ?_⟩
      · simp only [Blocks.reuse, mem_append] at hc
        simp only [e, mem_append, mem_cons]
        tauto
      · exact mem_map.2 ⟨c, hc, hcb⟩
    · rcases mem_cons.1 hc with rfl | hc
      · exact .inl rfl
      · exact .inr ⟨Blocks.mem_all.2 (Or.inr hc), (A.apart_free_used (by simp [e]) hc).ne.symm⟩
  refine ⟨takeBlock_chain hr e, fun c hc => ?_, fun c hc => ?_, ?_, ?_, ?_⟩
  · rcases hmem c hc with rfl | ⟨hc, hcb⟩
    · have := takeBlock_sizes (h := h) e hn64 hb
      rwa [if_pos rfl] at this
    · rw [takeBlock_sizes e hn64 hc, if_neg hcb, hr.sizes c hc]
  · rw [takeBlock_brk]
    rcases hmem c hc with rfl | ⟨hc, -⟩
    · exact hr.below b hb
    · exact hr.below c hc
  · rw [takeBlock_brk]
    exact hr.brk_pos
  · rw [takeBlock_brk]
    exact hr.brk_lt
  · rw [takeBlock_grants]
    refine Perm.trans ?_ hr.grants
    simp only [Blocks.grants, Blocks.all, Blocks.reuse, e, map_append, map_cons,
      Block.resize_grant, append_assoc, cons_append]
    exact (List.Perm.refl _).append perm_middle

end Take

/-! ## Extending the break -/

variable {A : Blocks}

theorem grow_rep {a n : ℕ} (hr : Rep h A) (ha : 0 < a)
    (hA : ∀ b ∈ A.all, b.addr + (16 + b.cap) ≤ a) (hlt : a + (16 + n) < 2 ^ 64)
    (hm : h'.mem = storeLE h.mem a 8 n) (hf : h'.freeList = h.freeList)
    (hb : h'.brk = a + (16 + n)) (hg : h'.grants = ⟨a, n⟩ :: h.grants) :
    Rep h' (A.grow a n ha hA) := by
  have hold : ∀ b ∈ A.all, ∀ x, b.addr ≤ x → x < b.addr + 16 → h'.mem x = h.mem x := by
    intro b hb' x h₁ h₂
    have := hA b hb'
    rw [hm, storeLE_of_not _ _ _ _ (by omega)]
  have hmem : ∀ c ∈ (A.grow a n ha hA).all, c = ⟨a, n, n⟩ ∨ c ∈ A.all := by
    intro c hc
    simp only [Blocks.grow, Blocks.mem_all, mem_cons] at hc ⊢
    tauto
  refine ⟨?_, fun c hc => ?_, fun c hc => ?_, by omega, by omega, ?_⟩
  · rw [hf]
    refine hr.chain.congr fun x hx => ?_
    obtain ⟨b, hb', rfl⟩ := mem_map.1 hx
    exact nextAt_congr (hold b (Blocks.mem_all.2 (Or.inl hb')))
  · rcases hmem c hc with rfl | hc
    · rw [hm, sizeAt, loadLE_storeLE_of_lt _ _ (lt_of_lt_of_eq (by omega : n < 2 ^ 64) (by norm_num))]
    · exact (sizeAt_congr (hold c hc)).trans (hr.sizes c hc)
  · rcases hmem c hc with rfl | hc
    · exact hb.ge
    · have := hA c hc
      omega
  · rw [hg]
    exact (List.perm_middle.map Block.grant).trans (hr.grants.cons _)

theorem fetch_cases (hr : Rep h A) (os : Sbrk) {n : ℕ} (hg : os.gap = none ∨ 16 + n < 2 ^ 63) :
    ∃ h' r, h.fetch os n = some (h', r) ∧ MallocOut os h A n h' r := by
  have hall : ∀ c ∈ A.free, c ∈ A.all := fun c hc => Blocks.mem_all.2 (Or.inl hc)
  have hlen : (A.free.map Block.addr).length < 2 ^ 64 := by
    rw [length_map]
    exact hr.length_free_lt
  -- the loop only looks at headers of free blocks
  have hlog : ∀ (l : List Block) (h' : Heap), (∀ c ∈ l, c ∈ A.free) →
      h'.log = (l.map Block.addr).map Access.header ++ h.log → LogsMore h h' (IsHeaderOf A.all) := by
    intro l h' hl e
    refine ⟨_, e, fun x hx => ?_⟩
    simp only [map_map, mem_map] at hx
    obtain ⟨c, hc, rfl⟩ := hx
    exact ⟨c, hall c (hl c hc), rfl⟩
  rcases firstFit_of_chain n 0 hr.chain hlen with
    ⟨pre, c, post, e, hpre, hc, hff⟩ | ⟨hsmall, hff⟩
  · obtain ⟨pre, rest, e', rfl, hrest⟩ := map_eq_append_iff.1 e
    obtain ⟨b, post, rfl, rfl, rfl⟩ := map_eq_cons_iff.1 hrest
    have hb : b ∈ A.all := hall b (by simp [e'])
    rw [hr.sizes b hb] at hc
    have hr' := hr.of_log ((pre.map Block.addr ++ [b.addr]).map Access.header ++ h.log)
    refine ⟨_, _, by rw [Heap.fetch, hff], .reused e' hc (fun x hx => ?_) (takeBlock_rep hr' e' hc)
      (takeBlock_brk ..) (takeBlock_grants ..) (fun x hx => takeBlock_off e' hx)
      (hlog (pre ++ [b]) _ (fun x hx => ?_) ?_)⟩
    · rw [← hr.sizes x (hall x (by simp [e', hx]))]
      exact hpre _ (mem_map_of_mem hx)
    · simp only [mem_append, mem_singleton] at hx
      simp only [e', mem_append, mem_cons]
      tauto
    · simp
  · have hfree : ∀ c ∈ A.free, c.size < n := fun c hc => by
      rw [← hr.sizes c (hall c hc)]
      exact hsmall _ (mem_map_of_mem hc)
    have hlog' := fun h' => hlog A.free h' fun _ hc => hc
    rw [Heap.fetch, hff]
    rcases hgap : os.gap with _ | gap
    · simp only [Heap.sbrk, hgap]
      exact ⟨_, _, rfl, .failed rfl rfl rfl rfl (hlog' _ rfl)⟩
    · have hinc : 16 + n < 2 ^ 63 := hg.resolve_left (by simp [hgap])
      simp only [Heap.sbrk_of_lt os _ hinc, hgap]
      by_cases hlt : h.brk + gap + (16 + n) < 2 ^ 64
      · have hpos : 0 < h.brk + gap := Nat.add_pos_left hr.brk_pos gap
        have hA : ∀ b ∈ A.all, b.addr + (16 + b.cap) ≤ h.brk + gap := fun b hb =>
          (hr.below b hb).trans (Nat.le_add_right _ _)
        have hcap : 16 + n - 16 = n := Nat.add_sub_cancel_left 16 n
        simp only [if_pos hlt, hcap]
        refine ⟨_, _, rfl, .grown hgap rfl hfree hpos hA
          (grow_rep hr hpos hA hlt rfl rfl rfl rfl) rfl rfl
          (fun x hx => storeLE_of_not _ _ _ _ hx) ?_ mem_cons_self⟩
        refine ⟨.header (h.brk + gap) :: (A.free.map Block.addr).map Access.header, rfl, ?_⟩
        intro x hx
        rcases mem_cons.1 hx with rfl | hx
        · exact ⟨_, mem_cons_self, rfl⟩
        · simp only [map_map, mem_map] at hx
          obtain ⟨c, hc, rfl⟩ := hx
          exact ⟨c, mem_cons_of_mem _ (hall c hc), rfl⟩
      · simp only [if_neg hlt]
        exact ⟨_, _, rfl, .failed rfl rfl rfl rfl (hlog' _ rfl)⟩

/-- The checks in front of the search. -/
structure Allowed (os : Sbrk) (h : Heap) (n : ℕ) : Prop where
  armed : h.failAfter ≠ 0
  pos : n ≠ 0
  probe : os.probe = true
  le : n ≤ SIZE_MAX - 16

theorem malloc_checks (os : Sbrk) (h : Heap) (n : ℕ) :
    (¬ Allowed os h n ∧ ∃ k, h.malloc os n = some (Heap.noMem { h with failAfter := k })) ∨
      (Allowed os h n ∧ ∃ k, h.malloc os n = Heap.fetch os { h with failAfter := k } n) := by
  rw [Heap.malloc]
  by_cases h₀ : h.failAfter = 0
  · rw [if_pos h₀]
    exact .inl ⟨fun ha => ha.armed h₀, -1, rfl⟩
  obtain ⟨k, hk⟩ : ∃ k, (if 0 ≤ h.failAfter then { h with failAfter := h.failAfter - 1 } else h) =
      { h with failAfter := k } := by
    split_ifs
    · exact ⟨_, rfl⟩
    · exact ⟨h.failAfter, rfl⟩
  simp only [if_neg h₀, hk]
  by_cases h₁ : n = 0
  · rw [if_pos h₁]
    exact .inl ⟨fun ha => ha.pos h₁, k, rfl⟩
  rw [if_neg h₁]
  by_cases h₂ : os.probe = false
  · rw [if_pos h₂]
    exact .inl ⟨fun ha => by simp [ha.probe] at h₂, k, rfl⟩
  rw [if_neg h₂]
  by_cases h₃ : SIZE_MAX - 16 < n
  · rw [if_pos h₃]
    exact .inl ⟨fun ha => absurd ha.le (not_le.2 h₃), k, rfl⟩
  rw [if_neg h₃]
  exact .inr ⟨⟨h₀, h₁, by simpa using h₂, not_lt.1 h₃⟩, k, rfl⟩

theorem Rep.of_failAfter (hr : Rep h A) (k : ℤ) :
    Rep { h with failAfter := k } A :=
  hr.of_headers (fun _ _ _ _ _ => rfl) rfl rfl rfl

theorem Allowed.grows {os : Sbrk} {h : Heap} {n : ℕ} (ha : Allowed os h n) (hg : os.Grows n) :
    os.gap = none ∨ 16 + n < 2 ^ 63 :=
  hg.imp_right fun h => h.resolve_right (not_lt.2 ha.le)

/-- **What `malloc` does**, if the system is not asked to lower the break. -/
theorem malloc_cases (hr : Rep h A) (os : Sbrk) (n : ℕ) (hg : os.Grows n) :
    ∃ h' r, h.malloc os n = some (h', r) ∧ MallocOut os h A n h' r := by
  rcases malloc_checks os h n with ⟨-, k, e⟩ | ⟨hyes, k, e⟩
  · exact ⟨_, _, e, .failed rfl rfl rfl rfl ⟨[], rfl, by simp⟩⟩
  obtain ⟨h', r, e', hout⟩ := fetch_cases (hr.of_failAfter k) os (hyes.grows hg)
  refine ⟨h', r, e.trans e', ?_⟩
  cases hout with
  | failed hm hf hb hg hl => exact .failed hm hf hb hg hl
  | reused hfree hn hpre hr hb hg hm hl => exact .reused hfree hn hpre hr hb hg hm hl
  | grown hgap hbrk hfree ha hA hr hb hg hm hl ht =>
    exact .grown hgap hbrk hfree ha hA hr hb hg hm hl ht

/-- `malloc` returns, whatever it asks of the system. -/
theorem malloc_returns (hr : Rep h A) (os : Sbrk) (n : ℕ) : ∃ x, h.malloc os n = some x := by
  rcases malloc_checks os h n with ⟨-, k, e⟩ | ⟨-, k, e⟩
  · exact ⟨_, e⟩
  rw [e, Heap.fetch]
  rcases firstFit_of_chain n 0 hr.chain (by rw [length_map]; exact hr.length_free_lt) with
    ⟨pre, c, post, -, -, -, hff⟩ | ⟨-, hff⟩
  · simp only [hff]
    exact ⟨_, rfl⟩
  · simp only [hff]
    split
    · exact ⟨_, rfl⟩
    · exact ⟨_, rfl⟩

/-- There is memory for `n` more bytes: in a free block, or from the system. -/
def Room (os : Sbrk) (h : Heap) (A : Blocks) (n : ℕ) : Prop :=
  (∃ b ∈ A.free, n ≤ b.size) ∨ ∃ gap, os.gap = some gap ∧ h.brk + gap + (16 + n) < 2 ^ 64

theorem fetch_ne_zero_iff (hr : Rep h A) (os : Sbrk) (n : ℕ)
    (hg : os.gap = none ∨ 16 + n < 2 ^ 63) :
    (∃ h' r, h.fetch os n = some (h', r) ∧ r ≠ 0) ↔ Room os h A n := by
  have hsz : ∀ c ∈ A.free, sizeAt h.mem c.addr = c.size := fun c hc =>
    hr.sizes c (Blocks.mem_all.2 (Or.inl hc))
  rcases firstFit_of_chain n 0 hr.chain (by rw [length_map]; exact hr.length_free_lt) with
    ⟨pre, x, post, e, -, hx, hff⟩ | ⟨hsmall, hff⟩
  · have hmem : x ∈ A.free.map Block.addr := by simp [e]
    obtain ⟨b, hb, rfl⟩ := mem_map.1 hmem
    refine iff_of_true ⟨_, _, by rw [Heap.fetch, hff], by omega⟩ (Or.inl ⟨b, hb, ?_⟩)
    rw [← hsz b hb]
    exact hx
  · have hno : ¬ ∃ b ∈ A.free, n ≤ b.size := by
      rintro ⟨b, hb, hle⟩
      have := hsmall b.addr (mem_map_of_mem hb)
      rw [hsz b hb] at this
      omega
    rw [Room, or_iff_right hno, Heap.fetch, hff]
    rcases hgap : os.gap with _ | gap
    · simp [Heap.sbrk, hgap, Heap.noMem]
    · have hinc : 16 + n < 2 ^ 63 := hg.resolve_left (by simp [hgap])
      simp only [Heap.sbrk_of_lt os _ hinc, hgap]
      by_cases hlt : h.brk + gap + (16 + n) < 2 ^ 64
      · simp only [if_pos hlt]
        exact iff_of_true ⟨_, _, rfl, by omega⟩ ⟨gap, rfl, hlt⟩
      · simp only [if_neg hlt, Heap.noMem]
        refine iff_of_false ?_ ?_
        · rintro ⟨h', r, e, h0⟩
          cases e
          exact h0 rfl
        · rintro ⟨gap', e, hlt'⟩
          cases e
          exact hlt hlt'

theorem malloc_ne_zero_iff (hr : Rep h A) (os : Sbrk) (n : ℕ) (hg : os.Grows n) :
    (∃ h' r, h.malloc os n = some (h', r) ∧ r ≠ 0) ↔ Allowed os h n ∧ Room os h A n := by
  rcases malloc_checks os h n with ⟨hno, k, e⟩ | ⟨hyes, k, e⟩
  · rw [e]
    refine iff_of_false ?_ fun ha => hno ha.1
    rintro ⟨h', r, e', h0⟩
    cases e'
    exact h0 rfl
  · rw [e, and_iff_right hyes]
    exact fetch_ne_zero_iff (hr.of_failAfter k) os n (hyes.grows hg)

/-! ## The system's side

What a call leaves on the system's side: the blocks handed out, the break, and the log. -/

/-- The access is to a block handed out by the system, or to a multiple of eight. -/
def Proper (grants : List Grant) : Access → Prop
  | .header a => (∃ g ∈ grants, g.addr = a) ∨ 8 ∣ a
  | .copy _ _ => True

theorem Proper.mono {l l' : List Grant} (h : ∀ g ∈ l, g ∈ l') {e : Access} (he : Proper l e) :
    Proper l' e := by
  cases e with
  | header a =>
    rcases he with ⟨g, hg, rfl⟩ | hd
    · exact .inl ⟨g, h g hg, rfl⟩
    · exact .inr hd
  | copy => trivial

/-- Nothing is taken from the system. -/
structure Quiet (h h' : Heap) : Prop where
  grants : h'.grants = h.grants
  brk : h'.brk = h.brk
  log : LogsMore h h' (Proper h.grants)

/-- At most one block is taken from the system, at the gap above the break that `os` names. -/
structure Evolves (os : Sbrk) (h h' : Heap) : Prop where
  grants : (h'.grants = h.grants ∧ h'.brk = h.brk) ∨
    ∃ gap n, os.gap = some gap ∧ h'.grants = ⟨h.brk + gap, n⟩ :: h.grants ∧
      h'.brk = h.brk + gap + (16 + n) ∧ .header (h.brk + gap) ∈ h'.log
  log : LogsMore h h' (Proper h'.grants)

theorem Quiet.refl (h : Heap) : Quiet h h := ⟨rfl, rfl, .refl h _⟩

theorem Quiet.trans (h : Quiet h₁ h₂) (h' : Quiet h₂ h₃) : Quiet h₁ h₃ :=
  ⟨h'.grants.trans h.grants, h'.brk.trans h.brk, h.log.trans (h.grants ▸ h'.log)⟩

namespace Evolves

variable {os : Sbrk}

theorem of_quiet (hq : Quiet h h') : Evolves os h h' :=
  ⟨.inl ⟨hq.grants, hq.brk⟩, hq.grants.symm ▸ hq.log⟩

theorem subset (he : Evolves os h h') : ∀ g ∈ h.grants, g ∈ h'.grants := by
  rcases he.grants with ⟨e, -⟩ | ⟨gap, n, -, e, -⟩ <;> simp +contextual [e]

theorem quiet_left (hq : Quiet h h₁) (he : Evolves os h₁ h') : Evolves os h h' := by
  refine ⟨?_, LogsMore.trans (hq.log.mono fun e hp => hp.mono ?_) he.log⟩
  · rw [← hq.grants, ← hq.brk]
    exact he.grants
  · exact hq.grants ▸ he.subset

theorem quiet_right (he : Evolves os h h₁) (hq : Quiet h₁ h') : Evolves os h h' := by
  refine ⟨?_, LogsMore.trans (hq.grants.symm ▸ he.log) (hq.grants.symm ▸ hq.log)⟩
  rw [hq.grants, hq.brk]
  rcases he.grants with hs | ⟨gap, n, hgap, e, hb, hl⟩
  · exact .inl hs
  · obtain ⟨new, hnew, -⟩ := hq.log
    exact .inr ⟨gap, n, hgap, e, hb, by rw [hnew]; exact mem_append_right _ hl⟩

end Evolves

theorem Rep.proper (hr : Rep h A) {e : Access} (he : IsHeaderOf A.all e) :
    Proper h.grants e := by
  obtain ⟨b, hb, rfl⟩ := he
  exact .inl ⟨b.grant, hr.grants.mem_iff.1 (mem_map_of_mem hb), rfl⟩

/-- The heap `h'` has one used block more than `h`: `b`, recorded with size `n`, and either the first
free block that is large enough or, if there is none, a new one. Outside the headers of `b` and of
the free blocks the memory is as before. -/
structure Obtained (os : Sbrk) (h : Heap) (A : Blocks) (n : ℕ) (h' : Heap) (A' : Blocks)
    (b : Block) : Prop where
  rep : Rep h' A'
  used : A'.used = b :: A.used
  size : b.size = n
  mem : ∀ x, OffHeaders (b :: A.free) x → h'.mem x = h.mem x
  evolves : Evolves os h h'
  copies : copies h'.log = copies h.log
  source : (∃ pre c post, A.free = pre ++ c :: post ∧ A'.free = pre ++ post ∧ b = c.resize n ∧
      n ≤ c.size ∧ ∀ d ∈ pre, d.size < n) ∨
    A'.free = A.free ∧ ∀ c ∈ A.free, c.size < n

theorem MallocOut.of_ne_zero {os : Sbrk} {n r : ℕ} (hr : Rep h A)
    (hout : MallocOut os h A n h' r) (hne : r ≠ 0) :
    ∃ A' b, Obtained os h A n h' A' b ∧ r = b.addr + 16 := by
  cases hout with
  | failed => exact absurd rfl hne
  | @reused pre post b e hn hpre hr' hb hg hm hl =>
    exact ⟨_, b.resize n, ⟨hr', rfl, rfl, fun x hx => hm x fun c hc => hx c (by simp [hc]),
      .of_quiet ⟨hg, hb, hl.mono fun _ => hr.proper⟩, hl.copies_eq,
      .inl ⟨pre, b, post, e, rfl, rfl, hn, hpre⟩⟩, rfl⟩
  | @grown gap a hgap hbrk hfree ha hA hr' hb hg hm hl ht =>
    refine ⟨_, ⟨a, n, n⟩, ⟨hr', rfl, rfl, fun x hx => hm x ?_, ⟨?_, ?_⟩, hl.copies_eq,
      .inr ⟨rfl, hfree⟩⟩, rfl⟩
    · have := hx ⟨a, n, n⟩ mem_cons_self
      simp only at this
      omega
    · subst hbrk
      exact .inr ⟨gap, n, hgap, hg, hb, ht⟩
    · refine hl.mono fun e he => hr'.proper ?_
      obtain ⟨c, hc, rfl⟩ := he
      simp only [mem_cons, Blocks.mem_all] at hc
      refine ⟨c, ?_, rfl⟩
      simp only [Blocks.grow, Blocks.mem_all, mem_cons]
      tauto

theorem MallocOut.of_zero {os : Sbrk} {n : ℕ} (hr : Rep h A)
    (hout : MallocOut os h A n h' 0) :
    h'.mem = h.mem ∧ h'.freeList = h.freeList ∧ Quiet h h' := by
  generalize e : 0 = r at hout
  cases hout with
  | failed hm hf hb hg hl => exact ⟨hm, hf, hg, hb, hl.mono fun _ => hr.proper⟩
  | reused | grown => omega

/-! ## `free` -/

section Free

variable {b : Block} {rest : List Block}

theorem magicAt_eq (m : Mem) (a : ℕ) : magicAt m a = sizeAt m a % 2 ^ 32 := by
  rw [sizeAt, show (2 : ℕ) ^ 32 = 256 ^ 4 by norm_num]
  exact (loadLE_add_mod m a 4 4).symm

theorem freeImpl_rep (hr : Rep h A) (e : A.used = b :: rest) :
    Rep (h.freeImpl (b.addr + 16)) (A.release e) := by
  have hb : b ∈ A.all := Blocks.mem_all.2 (Or.inr (by simp [e]))
  have hb0 : b.addr ≠ 0 := (A.fits b hb).1.ne'
  have hbl := hr.addr_lt hb
  have hall : ∀ c, c ∈ (A.release e).all ↔ c ∈ A.all := by
    intro c
    simp only [Blocks.release, Blocks.mem_all, e, mem_cons]
    tauto
  have hfl := hr.freeList_lt
  rw [Heap.freeImpl, if_neg (by omega)]
  simp only [hdrOf_add (by omega : b.addr < 2 ^ 64)]
  refine ⟨?_, fun c hc => ?_, fun c hc => hr.below c ((hall c).1 hc), hr.brk_pos, hr.brk_lt, ?_⟩
  · refine hr.chain.push hb0 ?_ fun x hx => ?_
    · rw [nextAt_storeNext A _ hb hb hfl, if_pos rfl]
    · obtain ⟨c, hc, rfl⟩ := mem_map.1 hx
      have hne : c.addr ≠ b.addr := (A.apart_free_used hc (by simp [e] : b ∈ A.used)).ne
      rw [nextAt_storeNext A _ hb (Blocks.mem_all.2 (Or.inl hc)) hfl, if_neg hne]
  · rw [hall] at hc
    rw [sizeAt_storeNext A _ hb hc, hr.sizes c hc]
  · refine Perm.trans ?_ hr.grants
    simp only [Blocks.grants, Blocks.all, Blocks.release, e]
    exact (List.perm_middle.symm).map _

theorem freeImpl_off {p x : ℕ} (h : Heap) (hx : x < hdrOf p + 8 ∨ hdrOf p + 16 ≤ x) :
    (h.freeImpl p).mem x = h.mem x := by
  rw [Heap.freeImpl]
  split_ifs with hp
  · rfl
  · exact storeLE_of_not _ _ _ _ (by omega)

@[simp] theorem freeImpl_grants (h : Heap) (p : ℕ) : (h.freeImpl p).grants = h.grants := by
  rw [Heap.freeImpl]
  split_ifs <;> rfl

@[simp] theorem freeImpl_brk (h : Heap) (p : ℕ) : (h.freeImpl p).brk = h.brk := by
  rw [Heap.freeImpl]
  split_ifs <;> rfl

@[simp] theorem free_grants (h : Heap) (p : ℕ) : (h.free p).grants = h.grants := by
  simp only [Heap.free]
  split_ifs <;> simp

@[simp] theorem free_brk (h : Heap) (p : ℕ) : (h.free p).brk = h.brk := by
  simp only [Heap.free]
  split_ifs <;> simp

@[simp] theorem freeImpl_copies (h : Heap) (p : ℕ) :
    copies (h.freeImpl p).log = copies h.log := by
  rw [Heap.freeImpl]
  split_ifs <;> rfl

@[simp] theorem free_copies (h : Heap) (p : ℕ) : copies (h.free p).log = copies h.log := by
  simp only [Heap.free]
  split_ifs <;> simp [copies]

/-- **`free` on a block whose recorded size does not look like the magic.** -/
theorem free_plain (hr : Rep h A) (e : A.used = b :: rest) (hm : b.size % 2 ^ 32 ≠ posixAlignMagic) :
    Rep (h.free (b.addr + 16)) (A.release e) ∧
      (∀ x, x < b.addr + 8 ∨ b.addr + 16 ≤ x → (h.free (b.addr + 16)).mem x = h.mem x) ∧
      (h.free (b.addr + 16)).log = .header b.addr :: .header b.addr :: h.log := by
  have hb : b ∈ A.all := Blocks.mem_all.2 (Or.inr (by simp [e]))
  have hbl := hr.addr_lt hb
  have hh := hdrOf_add (by omega : b.addr < 2 ^ 64)
  have hmag : magicAt h.mem b.addr ≠ posixAlignMagic := by rwa [magicAt_eq, hr.sizes b hb]
  rw [Heap.free, if_neg (by omega), hh]
  simp only [if_neg hmag]
  refine ⟨freeImpl_rep (hr.of_log _) e, fun x hx => ?_, ?_⟩
  · exact freeImpl_off _ (by rw [hh]; exact hx)
  · rw [Heap.freeImpl, if_neg (by omega), hh]

/-- **`free` on an aligned pointer** `q + 16` into the payload of `b`, with its header intact. -/
theorem free_aligned (hr : Rep h A) (e : A.used = b :: rest) {q : ℕ} (hq : b.addr + 16 ≤ q)
    (hq' : q + 16 ≤ b.addr + (16 + b.cap)) (hm : magicAt h.mem q = posixAlignMagic)
    (ho : nextAt h.mem q = b.addr + 16) :
    Rep (h.free (q + 16)) (A.release e) ∧
      (∀ x, (x < b.addr + 8 ∨ b.addr + 16 ≤ x) → (x < q ∨ q + 4 ≤ x) →
        (h.free (q + 16)).mem x = h.mem x) ∧
      (h.free (q + 16)).log = .header b.addr :: .header q :: h.log := by
  have hb : b ∈ A.all := Blocks.mem_all.2 (Or.inr (by simp [e]))
  have hbl := hr.addr_lt hb
  have hbb := hr.below b hb
  have hblt := hr.brk_lt
  have hh := hdrOf_add (by omega : b.addr < 2 ^ 64)
  rw [Heap.free, if_neg (by omega), hdrOf_add (by omega : q < 2 ^ 64)]
  simp only [if_pos hm, ho]
  -- zeroing the magic stays inside the payload of `b`
  have hr' : Rep { h with mem := storeLE h.mem q 4 0, log := .header q :: h.log } A := by
    refine hr.of_headers (fun c hc x h₁ h₂ => storeLE_of_not _ _ _ _ ?_) rfl rfl rfl
    by_cases hcb : c.addr = b.addr
    · omega
    · have := A.apart_of_ne hc hb hcb
      simp only [Grant.Apart, ByteMemory.Apart, Block.grant_addr, Block.grant_cap] at this
      omega
  refine ⟨freeImpl_rep hr' e, fun x hx hx' => ?_, ?_⟩
  · rw [freeImpl_off _ (by rw [hh]; exact hx)]
    exact storeLE_of_not _ _ _ _ hx'
  · rw [Heap.freeImpl, if_neg (by omega), hh]

end Free

end Vlibc.Memory
