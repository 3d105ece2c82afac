import Vlibc.Memory.HeapInvariant
import Mathlib.Algebra.Group.Action.Defs
import Mathlib.Algebra.Order.BigOperators.Group.Finset

/-!
# How many blocks a bounded client needs

A client that asks for sizes in a finite set `S` and never holds more than `k` allocations. First
fit hands a free block to any request that it is large enough for and records the request in the
header: the block has shrunk for good. So the number of blocks is not bounded by `k * S.card`
(`shrinking_reuse_grows`).

It is if each time the first free block that is large enough is of exactly the requested size
(`ExactFit`): there are never more than `k` blocks of one size (`Blocks.Tight`), since a new one is
taken only when all others of that size are live (`exactFit_grants_le`).
-/

namespace Vlibc.Memory

open ByteMemory List Option

/-- The nodes met from `p` on along the links, `fuel` of them at most. -/
def nodesFrom (m : Mem) : (fuel p : ℕ) → List ℕ
  | 0, _ => []
  | fuel + 1, p => if p = 0 then [] else p :: nodesFrom m fuel (nextAt m p)

/-- The blocks in the free list. -/
def Heap.freeNodes (h : Heap) : List ℕ := nodesFrom h.mem (2 ^ 64) h.freeList

/-- The first free block that is large enough for `n` bytes, if there is one, is recorded with
exactly `n` bytes. -/
def ExactFit (h : Heap) (n : ℕ) : Prop :=
  ∀ b ∈ h.freeNodes.find? (fun b => n ≤ sizeAt h.mem b), sizeAt h.mem b = n

instance (h : Heap) (n : ℕ) : Decidable (ExactFit h n) :=
  inferInstanceAs (Decidable (∀ b ∈ h.freeNodes.find? _, _))

theorem nodesFrom_of_chain {m : Mem} {l : List ℕ} {fuel p : ℕ} (hc : Chain (nextAt m) 0 p l)
    (hf : l.length < fuel) : nodesFrom m fuel p = l := by
  induction l generalizing fuel p with
  | nil =>
    obtain _ | fuel := fuel
    · omega
    rw [nodesFrom, if_pos (Chain.nil_iff.1 hc)]
  | cons b l ih =>
    obtain _ | fuel := fuel
    · omega
    obtain ⟨rfl, hb, ht⟩ := Chain.cons_iff.1 hc
    rw [nodesFrom, if_neg hb, ih ht (by simp at hf; omega)]

variable {A : Blocks}

theorem Rep.freeNodes_eq {h : Heap} (hr : Rep h A) :
    h.freeNodes = A.free.map Block.addr :=
  nodesFrom_of_chain hr.chain (by rw [length_map]; exact hr.length_free_lt)

theorem ExactFit.size_eq {h : Heap} {n : ℕ} (hx : ExactFit h n) (hr : Rep h A)
    {pre post : List Block} {c : Block} (e : A.free = pre ++ c :: post) (hc : n ≤ c.size)
    (hpre : ∀ d ∈ pre, d.size < n) : c.size = n := by
  have hsz : ∀ d ∈ A.free, sizeAt h.mem d.addr = d.size := fun d hd =>
    hr.sizes d (Blocks.mem_all.2 (Or.inl hd))
  rw [← hsz c (by simp [e])]
  refine hx c.addr ?_
  rw [hr.freeNodes_eq, e, map_append, map_cons, mem_def, find?_eq_some_iff_append]
  refine ⟨by simpa [hsz c (by simp [e])] using hc, pre.map Block.addr, post.map Block.addr, rfl, ?_⟩
  intro x hx
  obtain ⟨d, hd, rfl⟩ := List.mem_map.1 hx
  simpa [hsz d (by simp [e, hd])] using hpre d hd

/-- The sizes of all blocks. -/
def Blocks.sizes (A : Blocks) : List ℕ := A.all.map Block.size

/-- All recorded sizes are in `S`, and no more than `k` blocks have the same one. -/
structure Blocks.Tight (S : Finset ℕ) (k : ℕ) (A : Blocks) : Prop where
  mem : ∀ n ∈ A.sizes, n ∈ S
  count : ∀ n, A.sizes.count n ≤ k

variable {S : Finset ℕ}

theorem Blocks.Tight.length_le {k : ℕ} (h : A.Tight S k) :
    A.all.length ≤ k * S.card := by
  have hsum : ∑ n ∈ S, A.sizes.count n = A.sizes.length := by
    have := Multiset.sum_count_eq_card (m := (A.sizes : Multiset ℕ)) (s := S) (by simpa using h.mem)
    simpa using this
  calc A.all.length = ∑ n ∈ S, A.sizes.count n := by rw [hsum, Blocks.sizes, length_map]
    _ ≤ S.card • k := Finset.sum_le_card_nsmul S _ k fun n _ => h.count n
    _ = k * S.card := by rw [smul_eq_mul, mul_comm]

theorem Blocks.Tight.perm {k : ℕ} {A A' : Blocks} (h : A.Tight S k)
    (hp : A'.all.Perm A.all) : A'.Tight S k := by
  have hs : A'.sizes.Perm A.sizes := hp.map Block.size
  exact ⟨fun n hn => h.mem n (hs.mem_iff.1 hn), fun n => hs.count_eq n ▸ h.count n⟩

/-- **A block obtained by an exact fit, or none**: with it there are still at most `k` of a size. -/
theorem Obtained.tight {os : Sbrk} {h h' : Heap} {A A' : Blocks} {n k : ℕ} {b : Block}
    (hob : Obtained os h A n h' A' b) (hr : Rep h A) (hx : ExactFit h n)
    (ht : A.Tight S k) (hn : n ∈ S) (hk : A'.used.length ≤ k) : A'.Tight S k := by
  rcases hob.source with ⟨pre, c, post, e, e', rfl, hc, hpre⟩ | ⟨e', hfree⟩
  · -- the block taken keeps its size, so the blocks are the same ones
    obtain rfl := hx.size_eq hr e hc hpre
    refine ht.perm ?_
    simp only [Blocks.all, e, e', hob.used, append_assoc, cons_append]
    exact (List.Perm.refl _).append perm_middle
  · have hs : A'.sizes = A.free.map Block.size ++ n :: A.used.map Block.size := by
      simp [Blocks.sizes, Blocks.all, e', hob.used, hob.size]
    have hold : A.sizes = A.free.map Block.size ++ A.used.map Block.size := by
      simp [Blocks.sizes, Blocks.all]
    refine ⟨fun m hm => ?_, fun m => ?_⟩
    · rw [hs, mem_append, mem_cons] at hm
      have := ht.mem m
      rw [hold, mem_append] at this
      rcases hm with hm | rfl | hm
      · exact this (Or.inl hm)
      · exact hn
      · exact this (Or.inr hm)
    · by_cases hmn : m = n
      · -- no free block has that size: all of them are live
        subst hmn
        have h0 : (A.free.map Block.size).count m = 0 := by
          refine count_eq_zero_of_not_mem fun hm => ?_
          obtain ⟨c, hc, rfl⟩ := List.mem_map.1 hm
          exact lt_irrefl _ (hfree c hc)
        have hl := count_le_length (a := m) (l := m :: A.used.map Block.size)
        rw [hob.used] at hk
        rw [hs, count_append, h0]
        simp only [length_cons, length_map] at hl hk
        omega
      · have := ht.count m
        rw [hold, count_append] at this
        rw [hs, count_append, count_cons_of_ne (Ne.symm hmn)]
        exact this

/-! ## Runs -/

/-- The client asks `malloc` for sizes in `S`, frees what it holds, uses its memory, and is never
left with more than `k` allocations. -/
def BoundedClient (S : Finset ℕ) (k : ℕ) (w : World) (c : Call) : Prop :=
  c.entry ∈ [Entry.malloc, .free, .store] ∧ (c.entry = .malloc → c.request ∈ S) ∧
    ∀ w' ∈ w.exec c, w'.live.length ≤ k

instance (S : Finset ℕ) (k : ℕ) (w : World) (c : Call) : Decidable (BoundedClient S k w c) :=
  inferInstanceAs (Decidable (_ ∧ (_ → _) ∧ ∀ w' ∈ w.exec c, _))

/-- The same, with every request an exact fit. -/
def ExactClient (S : Finset ℕ) (k : ℕ) (w : World) (c : Call) : Prop :=
  BoundedClient S k w c ∧ (c.entry = .malloc → ExactFit w.heap c.request)

instance (S : Finset ℕ) (k : ℕ) (w : World) (c : Call) : Decidable (ExactClient S k w c) :=
  inferInstanceAs (Decidable (_ ∧ (_ → _)))

/-- The heap's blocks are tight, and all allocations plain. -/
def World.Tight (S : Finset ℕ) (k : ℕ) (w : World) : Prop :=
  ∃ A, Owns w.heap A w.live ∧ A.Tight S k ∧ ∀ a ∈ w.live, a.kind = .plain

section Step

variable {k : ℕ} {w w' : World}

theorem tight_malloc (hS : ∀ n ∈ S, n < 2 ^ 30) {n : ℕ} {os : Sbrk} (ht : w.Tight S k)
    (hc : ExactClient S k w (.malloc n os)) (e : w.exec (.malloc n os) = some w') :
    w'.Tight S k := by
  obtain ⟨A, ho, hA, hp⟩ := ht
  have hlen : w'.live.length ≤ k := hc.1.2.2 w' e
  obtain ⟨h', r, e', hout⟩ := malloc_cases ho.rep os n (os.grows_of_lt (hS n (hc.1.2.1 rfl)))
  rw [World.exec, e', map_some, some.injEq] at e
  subst e
  by_cases hr : r = 0
  · subst hr
    obtain ⟨hm, hf, hq⟩ := hout.of_zero ho.rep
    rw [resized_null ⟨A, ho⟩]
    exact ⟨A, Unchanged.owns ⟨hm, hf, hq⟩ ho, hA, hp⟩
  · obtain ⟨A', b, hob, rfl⟩ := hout.of_ne_zero ho.rep hr
    obtain ⟨ho', -⟩ := ho.gain hob
    rw [resized_block hob.size, dropPtr_zero ⟨A, ho⟩] at hlen ⊢
    refine ⟨A', ho', hob.tight ho.rep (hc.2 rfl) hA (hc.1.2.1 rfl) ?_, fun a ha => ?_⟩
    · rwa [← ho'.held.length_eq]
    · rcases mem_cons.1 ha with rfl | ha
      · rfl
      · exact hp a ha

theorem tight_free (hS : ∀ n ∈ S, n < 2 ^ 30) {p : ℕ} (ht : w.Tight S k)
    (hl : p = 0 ∨ ∃ a ∈ w.live, a.ptr = p) :
    World.Tight S k { w with heap := w.heap.free p, live := dropPtr w.live p } := by
  obtain ⟨A, ho, hA, hp⟩ := ht
  rcases hl with rfl | ⟨a, ha, rfl⟩
  · rw [dropPtr_zero ⟨A, ho⟩]
    exact ⟨A, ho, hA, hp⟩
  · have hu : a.Unconfused := by
      obtain ⟨b, hb, hon⟩ := ho.exists_block ha
      refine unconfused_of_lt (hS _ (hA.mem _ ?_))
      rw [hon.eq_alloc (hp a ha)]
      exact List.mem_map_of_mem (Blocks.mem_all.2 (Or.inr hb))
    obtain ⟨A', -, -, hall, -, ho', -⟩ := ho.free ha hu
    exact ⟨A', ho', hA.perm hall, fun c hc => hp c (mem_dropPtr.1 hc).1⟩

theorem tight_step (hS : ∀ n ∈ S, n < 2 ^ 30) (ht : w.Tight S k)
    (h : Step (ExactClient S k) w w') : w'.Tight S k := by
  obtain ⟨c, hl, hc, e⟩ := h
  have hmem : c.entry ∈ [Entry.malloc, .free, .store] := hc.1.1
  cases c with
  | malloc n os => exact tight_malloc hS ht hc e
  | free p =>
    cases e
    exact tight_free hS ht hl
  | store x v =>
    obtain ⟨A, ho, hA, hp⟩ := ht
    obtain ⟨A', hall, ho'⟩ := ho.store v hl
    cases e
    exact ⟨A', ho', hA.perm hall, hp⟩
  | _ => exact absurd hmem (by simp [Call.entry])

end Step

/-- **Freed memory is recycled when every request fits exactly**: then the blocks taken from the
system are at most `k` for each size, however long the run. -/
theorem exactFit_grants_le {S : Finset ℕ} {k : ℕ} (hS : ∀ n ∈ S, n < 2 ^ 30) {w w' : World}
    (hs : w.Start) (hr : Runs (ExactClient S k) w w') : w'.heap.grants.length ≤ k * S.card := by
  have ht : w'.Tight S k := by
    induction hr with
    | refl =>
      obtain ⟨A, ho⟩ := hs.inv
      have hg := ho.rep.grants
      rw [hs.grants, perm_nil, Blocks.grants, map_eq_nil_iff] at hg
      refine ⟨A, ho, ⟨?_, ?_⟩, by simp [hs.live]⟩ <;> simp [Blocks.sizes, hg]
    | tail _ hstep ih => exact tight_step hS ih hstep
  obtain ⟨A, ho, hA, -⟩ := ht
  calc w'.heap.grants.length = A.all.length := by
        rw [← ho.rep.grants.length_eq, Blocks.grants, length_map]
    _ ≤ k * S.card := hA.length_le

/-- One size, one allocation at a time: the block is used again and again. -/
theorem exactFit_grants_le_one :
    ∃ w', Runs (ExactClient {8} 1) (World.boot (fun _ => 0xA5) 4096) w' ∧
      w'.live = [⟨4112, 8, 4096, .plain⟩] ∧ w'.heap.grants.length ≤ 1 * ({8} : Finset ℕ).card := by
  obtain ⟨w', hr, hl⟩ := Runs.of_play_map (ExactClient {8} 1) (World.boot (fun _ => 0xA5) 4096)
    [.malloc 8 ⟨true, some 0⟩, .free 4112, .malloc 8 ⟨true, some 0⟩, .free 4112,
      .malloc 8 ⟨true, some 0⟩] World.live
    (by decide : _ = some [⟨4112, 8, 4096, .plain⟩])
  exact ⟨w', hr, hl,
    exactFit_grants_le (by decide) (World.boot_start (by decide) (by decide)) hr⟩

/-- **The bound fails without the exact fit.** One allocation at a time, of two bytes and of one
byte in turn: the block of two bytes serves the request for one, is recorded as one byte, and the
next request for two bytes goes to the system. -/
theorem shrinking_reuse_grows :
    ∃ w', Runs (BoundedClient {1, 2} 1) (World.boot (fun _ => 0xA5) 4096) w' ∧
      1 * ({1, 2} : Finset ℕ).card < w'.heap.grants.length := by
  obtain ⟨w', hr, hl⟩ := Runs.of_play_map (BoundedClient {1, 2} 1)
    (World.boot (fun _ => 0xA5) 4096)
    [.malloc 2 ⟨true, some 0⟩, .free 4112, .malloc 1 ⟨true, some 0⟩, .free 4112,
      .malloc 2 ⟨true, some 0⟩, .free 4130, .malloc 1 ⟨true, some 0⟩, .free 4130,
      .malloc 2 ⟨true, some 0⟩] (fun w => w.heap.grants.length)
    (by decide : _ = some 3)
  exact ⟨w', hr, by rw [hl]; decide⟩

end Vlibc.Memory
