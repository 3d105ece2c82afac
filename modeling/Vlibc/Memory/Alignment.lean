import Vlibc.Memory.Run

/-!
# Where blocks land

`malloc` adds the request to the program break as it is: the next block starts sixteen bytes and one
request further up. From an aligned break, with `sbrk` advancing it by exactly the amount asked for,
the blocks are stacked (`Stacked`), and all of them start at multiples of eight exactly when the
sizes of all but the newest are multiples of eight (`Stacked.dvd_addr_iff`, `aligned_iff`).
-/

namespace Vlibc.Memory

open ByteMemory List

/-- The blocks lie one on the other from `base` on, up to the break; the newest comes first. -/
def Stacked (base : ℕ) : List Grant → ℕ → Prop
  | [], brk => brk = base
  | g :: gs, brk => brk = g.addr + (16 + g.cap) ∧ Stacked base gs g.addr

namespace Stacked

variable {base brk : ℕ} {gs : List Grant}

theorem dvd_cap_iff (hb : 8 ∣ base) (h : Stacked base gs brk) :
    (∀ g ∈ gs, 8 ∣ g.cap) ↔ 8 ∣ brk ∧ ∀ g ∈ gs, 8 ∣ g.addr := by
  induction gs generalizing brk with
  | nil =>
    obtain rfl : brk = base := h
    simp [hb]
  | cons g gs ih =>
    obtain ⟨rfl, ht⟩ := h
    rw [forall_mem_cons, forall_mem_cons, ih ht]
    constructor
    · rintro ⟨hc, ha, hs⟩
      exact ⟨by omega, ha, hs⟩
    · rintro ⟨hbrk, ha, hs⟩
      exact ⟨by omega, ha, hs⟩

/-- **All blocks start at multiples of eight** exactly when all but the newest have sizes that are
multiples of eight. -/
theorem dvd_addr_iff (hb : 8 ∣ base) (h : Stacked base gs brk) :
    (∀ g ∈ gs, 8 ∣ g.addr) ↔ ∀ g ∈ gs.tail, 8 ∣ g.cap := by
  rcases gs with _ | ⟨g, gs⟩
  · simp
  · rw [forall_mem_cons, tail_cons, dvd_cap_iff hb h.2]

end Stacked

/-- What has been handed out, dereferenced and returned, in a process whose break started at
`base`. -/
structure Ledger (base : ℕ) (w : World) : Prop where
  stacked : Stacked base w.heap.grants w.heap.brk
  /-- Dereferenced headers are blocks, or alignment headers. -/
  proper : ∀ e ∈ w.heap.log, Proper w.heap.grants e
  /-- Every block's header has been dereferenced. -/
  touched : ∀ g ∈ w.heap.grants, .header g.addr ∈ w.heap.log
  /-- Returned pointers are behind the header of a block, or aligned. -/
  returned : ∀ p ∈ w.returned, (∃ g ∈ w.heap.grants, p = g.addr + 16) ∨ 8 ∣ p

/-- The calls are clear, and `sbrk` advances the break by exactly what is asked for, or fails. -/
def ExactBreak (w : World) (c : Call) : Prop := ClearCalls w c ∧ ∀ gap ∈ c.os.gap, gap = 0

instance (w : World) (c : Call) : Decidable (ExactBreak w c) :=
  inferInstanceAs (Decidable (_ ∧ ∀ gap ∈ c.os.gap, _))

theorem Owns.ptr_cases {h : Heap} {A : Blocks} {live : List Alloc} {a : Alloc} (ho : Owns h A live)
    (ha : a ∈ live) : (∃ g ∈ h.grants, a.ptr = g.addr + 16) ∨ 8 ∣ a.ptr := by
  obtain ⟨b, hb, hon⟩ := ho.exists_block ha
  cases hon with
  | plain =>
    refine .inl ⟨b.grant, ho.rep.grants.mem_iff.1 (mem_map_of_mem ?_), rfl⟩
    exact Blocks.mem_all.2 (Or.inr hb)
  | aligned hal hq => exact .inr (hal.trans hq)

theorem Ledger.step {base : ℕ} {w w' : World} {c : Call} (hl : Ledger base w)
    (hgap : ∀ gap ∈ c.os.gap, gap = 0) (hok : StepOk w c w') : Ledger base w' := by
  obtain ⟨hgr, new, hlog, hnew⟩ := hok.evolves
  have hsub := hok.evolves.subset
  refine ⟨?_, fun e he => ?_, fun g hg => ?_, fun p hp => ?_⟩
  · rcases hgr with ⟨e₁, e₂⟩ | ⟨gap, n, hg, e₁, e₂, -⟩
    · rw [e₁, e₂]
      exact hl.stacked
    · obtain rfl := hgap gap hg
      rw [e₁, e₂]
      exact ⟨rfl, hl.stacked⟩
  · rw [hlog, mem_append] at he
    rcases he with he | he
    · exact hnew e he
    · exact (hl.proper e he).mono hsub
  · have hold : ∀ g ∈ w.heap.grants, .header g.addr ∈ w'.heap.log := fun g hg => by
      rw [hlog]
      exact mem_append_right _ (hl.touched g hg)
    rcases hgr with ⟨e₁, -⟩ | ⟨gap, n, -, e₁, -, ht⟩
    · exact hold g (e₁ ▸ hg)
    · rw [e₁, mem_cons] at hg
      rcases hg with rfl | hg
      · exact ht
      · exact hold g hg
  · rcases hok.returned p hp with hp | ⟨a, ha, rfl⟩
    · rcases hl.returned p hp with ⟨g, hg, e⟩ | h
      · exact .inl ⟨g, hsub g hg, e⟩
      · exact .inr h
    · obtain ⟨A, ho⟩ := hok.inv
      exact ho.ptr_cases ha

theorem Runs.ledger {w w' : World} (hs : w.Start) (hr : Runs ExactBreak w w') :
    Ledger w.heap.brk w' := by
  refine (hr.induct (I := Ledger w.heap.brk) hs.inv ?_ (fun _ _ hc => hc.1.2)
    (fun _ _ _ hc => hc.1.1) fun _ _ _ hl hc hok => hl.step hc.2 hok).2
  constructor <;> simp [hs.grants, hs.log, hs.returned, Stacked]

/-- **When allocations are aligned.** From a break that is a multiple of sixteen, advanced by
exactly the amounts asked for: all pointers returned and all headers dereferenced so far are
multiples of eight if and only if every block taken from the system so far, apart from the newest,
was asked for with a size that is a multiple of eight. -/
theorem aligned_iff {w w' : World} (hs : w.Start) (hb : 16 ∣ w.heap.brk)
    (hr : Runs ExactBreak w w') :
    ((∀ p ∈ w'.returned, 8 ∣ p) ∧ ∀ a, .header a ∈ w'.heap.log → 8 ∣ a) ↔
      ∀ g ∈ w'.heap.grants.tail, 8 ∣ g.cap := by
  have hl := hr.ledger hs
  rw [← hl.stacked.dvd_addr_iff (by omega)]
  constructor
  · rintro ⟨-, hlog⟩ g hg
    exact hlog _ (hl.touched g hg)
  · intro hg
    refine ⟨fun p hp => ?_, fun a ha => ?_⟩
    · rcases hl.returned p hp with ⟨g, hg', rfl⟩ | h
      · have := hg g hg'
        omega
      · exact h
    · rcases hl.proper _ ha with ⟨g, hg', rfl⟩ | h
      · exact hg g hg'
      · exact h

/-- Blocks of twenty-four, eight and nine bytes, the odd one last. -/
theorem aligned_iff_odd_last :
    ∃ w', Runs ExactBreak (World.boot (fun _ => 0xA5) 4096) w' ∧
      w'.heap.grants = [⟨4160, 9⟩, ⟨4136, 8⟩, ⟨4096, 24⟩] ∧
      (((∀ p ∈ w'.returned, 8 ∣ p) ∧ ∀ a, .header a ∈ w'.heap.log → 8 ∣ a) ↔
        ∀ g ∈ w'.heap.grants.tail, 8 ∣ g.cap) := by
  obtain ⟨w', hr, hg⟩ := Runs.of_play_map ExactBreak (World.boot (fun _ => 0xA5) 4096)
    [.malloc 24 ⟨true, some 0⟩, .calloc 2 4 ⟨true, some 0⟩, .free 4112, .realloc 4152 5 ⟨true, none⟩,
      .malloc 9 ⟨true, some 0⟩] (fun w => w.heap.grants)
    (by decide +kernel : _ = some [⟨4160, 9⟩, ⟨4136, 8⟩, ⟨4096, 24⟩])
  exact ⟨w', hr, hg, aligned_iff (World.boot_start (by decide) (by decide)) (by decide) hr⟩

/-- **A request of one byte misaligns the next allocation.** -/
theorem odd_request_misaligns :
    ∃ w', Runs ExactBreak (World.boot (fun _ => 0xA5) 4096) w' ∧
      w'.returned = [4129, 4112] ∧ ¬ (∀ p ∈ w'.returned, 8 ∣ p) ∧
      ¬ ∀ a, .header a ∈ w'.heap.log → 8 ∣ a := by
  obtain ⟨w', hr, hw⟩ := Runs.of_play_map ExactBreak (World.boot (fun _ => 0xA5) 4096)
    [.malloc 1 ⟨true, some 0⟩, .malloc 1 ⟨true, some 0⟩] (fun w => (w.returned, w.heap.log))
    (by decide : _ = some ([4129, 4112], [.header 4113, .header 4096]))
  obtain ⟨hret, hlog⟩ := Prod.mk.inj hw
  refine ⟨w', hr, hret, by rw [hret]; decide, fun h => ?_⟩
  have := h 4113 (by rw [hlog]; simp)
  omega

end Vlibc.Memory
