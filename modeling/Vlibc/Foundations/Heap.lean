import Mathlib.Algebra.Order.Group.Multiset

/-!
# Blocks of memory that are allocated and freed

A `Heap` holds the blocks that are allocated and not freed; a new block gets an address that no
block had before. A program (`Prog`) allocates, reads, writes and frees blocks. It faults if it uses
or frees a block that is not there any more, or a place outside of a block.

`Ends x m post` says that `x` ends without a fault, and what holds then. What is there is given by
the multiset of the blocks (`Owns`): a rule speaks of the blocks that an operation needs; others
stay.
-/

namespace Vlibc

open List Multiset

/-- The blocks in use, each with its address and its cells. -/
structure Heap (γ : Type) where
  blocks : List (ℕ × List γ)
  next : ℕ
  nodup : (blocks.map Prod.fst).Nodup
  lt_next : ∀ b ∈ blocks, b.1 < next

namespace Heap

variable {γ : Type}

/-- The cells of the block at an address. -/
def block (h : Heap γ) (p : ℕ) : Option (List γ) :=
  (h.blocks.find? fun b => decide (b.1 = p)).map Prod.snd

/-- A new block. -/
def alloc (h : Heap γ) (cells : List γ) : Heap γ where
  blocks := (h.next, cells) :: h.blocks
  next := h.next + 1
  nodup := by
    refine List.nodup_cons.2 ⟨fun hmem => ?_, h.nodup⟩
    obtain ⟨b, hb, e⟩ := List.mem_map.1 hmem
    exact absurd (h.lt_next b hb) (by rw [e]; exact Nat.lt_irrefl _)
  lt_next b hb := by
    obtain rfl | hb := List.mem_cons.1 hb
    · exact Nat.lt_succ_self _
    · exact Nat.lt_succ_of_lt (h.lt_next b hb)

/-- The block at an address is not in use any more. -/
def erase (h : Heap γ) (p : ℕ) : Heap γ where
  blocks := h.blocks.filter fun b => decide (b.1 ≠ p)
  next := h.next
  nodup := h.nodup.sublist (List.filter_sublist.map _)
  lt_next b hb := h.lt_next b (List.mem_of_mem_filter hb)

/-- The block at an address gets other cells. -/
def replace (h : Heap γ) (p : ℕ) (cells : List γ) : Heap γ where
  blocks := h.blocks.map fun b => (b.1, if b.1 = p then cells else b.2)
  next := h.next
  nodup := by
    rw [List.map_map]
    exact h.nodup
  lt_next b hb := by
    obtain ⟨b', hb', rfl⟩ := List.mem_map.1 hb
    exact h.lt_next b' hb'

/-- The blocks in use are these. -/
def Owns (h : Heap γ) (bs : Multiset (ℕ × List γ)) : Prop := (h.blocks : Multiset (ℕ × List γ)) = bs

variable {h : Heap γ} {p : ℕ} {cells : List γ} {bs bs' : Multiset (ℕ × List γ)}

theorem Owns.nodup (ho : h.Owns bs) : (bs.map Prod.fst).Nodup := by
  rw [← ho, map_coe]
  exact coe_nodup.2 h.nodup

theorem Owns.of_eq (ho : h.Owns bs) (e : bs = bs') : h.Owns bs' := e ▸ ho

theorem Owns.ne (ho : h.Owns ((p, cells) ::ₘ bs)) : ∀ b ∈ bs, b.1 ≠ p := by
  intro b hb e
  have hnodup := ho.nodup
  rw [Multiset.map_cons, Multiset.nodup_cons] at hnodup
  exact hnodup.1 (Multiset.mem_map.2 ⟨b, hb, e⟩)

theorem Owns.block_eq (ho : h.Owns bs) (hmem : (p, cells) ∈ bs) : h.block p = some cells := by
  rw [← ho, mem_coe] at hmem
  have hsome : (h.blocks.find? fun b => decide (b.1 = p)).isSome :=
    find?_isSome.2 ⟨(p, cells), hmem, decide_eq_true rfl⟩
  obtain ⟨b, hb⟩ := Option.isSome_iff_exists.1 hsome
  have he : b.1 = p := by simpa using List.find?_some hb
  have hsame : b = (p, cells) :=
    List.inj_on_of_nodup_map h.nodup (mem_of_find?_eq_some hb) hmem he
  rw [block, hb, hsame]
  rfl

theorem Owns.block_eq_none (ho : h.Owns bs) (hne : ∀ b ∈ bs, b.1 ≠ p) : h.block p = none := by
  rw [block, Option.map_eq_none_iff, find?_eq_none]
  intro b hb
  rw [← ho] at hne
  simpa using hne b hb

theorem Owns.alloc (ho : h.Owns bs) (cells : List γ) :
    (h.alloc cells).Owns ((h.next, cells) ::ₘ bs) := by
  rw [Owns, Heap.alloc, ← cons_coe, ho]

theorem Owns.erase (ho : h.Owns ((p, cells) ::ₘ bs)) : (h.erase p).Owns bs := by
  have hother := ho.ne
  rw [Owns, Heap.erase, ← filter_coe]
  rw [ho, Multiset.filter_cons_of_neg _ (by simp)]
  exact Multiset.filter_eq_self.2 hother

theorem Owns.replace (ho : h.Owns ((p, cells) ::ₘ bs)) (cells' : List γ) :
    (h.replace p cells').Owns ((p, cells') ::ₘ bs) := by
  have hother := ho.ne
  rw [Owns, Heap.replace, ← map_coe]
  rw [ho, Multiset.map_cons, if_pos rfl]
  congr 1
  refine (Multiset.map_congr rfl fun b hb => ?_).trans (Multiset.map_id bs)
  rw [if_neg (hother b hb)]
  rfl

end Heap

/-! ## Programs -/

/-- The heap, and the requests for memory so far with the answers. -/
structure Memory (γ ρ : Type) where
  heap : Heap γ
  asked : List (ρ × Bool)

/-- A memory without blocks. -/
def Memory.empty (γ ρ : Type) : Memory γ ρ :=
  ⟨⟨[], 0, List.nodup_nil, fun _ h => absurd h List.not_mem_nil⟩, []⟩

/-- What a program must not do: use a block that is not in use, or a place outside of a block, or go
on when the steps that a loop is given are used up. -/
inductive Fault where
  | dead
  | outside
  | endless
  deriving DecidableEq

/-- A program that may fault. -/
abbrev Prog (γ ρ α : Type) := ExceptT Fault (StateM (Memory γ ρ)) α

section Operations

variable {γ ρ : Type}

/-- Ask for a block with the given cells; the allocator grants the `n`-th request or refuses it. -/
def request (grants : ℕ → Bool) (r : ρ) (cells : List γ) : Prog γ ρ (Option ℕ) := fun m =>
  if grants m.asked.length then
    (.ok (some m.heap.next), ⟨m.heap.alloc cells, m.asked ++ [(r, true)]⟩)
  else (.ok none, { m with asked := m.asked ++ [(r, false)] })

/-- The cells of a block that is alive. -/
def cellsAt (p : ℕ) : Prog γ ρ (List γ) := fun m =>
  (m.heap.block p).elim (.error .dead, m) fun cells => (.ok cells, m)

/-- Overwrite cells of a block from a place on. -/
def writeAt (p i : ℕ) (xs : List γ) : Prog γ ρ Unit := fun m =>
  (m.heap.block p).elim (.error .dead, m) fun cells =>
    if i + xs.length ≤ cells.length then
      (.ok (), { m with
        heap := m.heap.replace p (cells.take i ++ xs ++ cells.drop (i + xs.length)) })
    else (.error .outside, m)

/-- Releasing a block that is alive. -/
def release (p : ℕ) : Prog γ ρ Unit := fun m =>
  (m.heap.block p).elim (.error .dead, m) fun _ => (.ok (), { m with heap := m.heap.erase p })

end Operations

/-- The outcome of a program, and the memory behind it. -/
def exec {γ ρ α : Type} (x : Prog γ ρ α) (m : Memory γ ρ) : Except Fault α × Memory γ ρ :=
  (ExceptT.run x).run m

/-- The program ends without a fault, and this holds then. -/
def Ends {γ ρ α : Type} (x : Prog γ ρ α) (m : Memory γ ρ) (post : α → Memory γ ρ → Prop) : Prop :=
  ∃ a m', exec x m = (.ok a, m') ∧ post a m'

/-- The program faults, in a memory with the property. -/
def Faults {γ ρ α : Type} (x : Prog γ ρ α) (m : Memory γ ρ) (post : Memory γ ρ → Prop) : Prop :=
  ∃ e m', exec x m = (.error e, m') ∧ post m'

/-- The program ends as asked, or it faults in a memory of the bad kind. -/
def EndsOr {γ ρ α : Type} (x : Prog γ ρ α) (m : Memory γ ρ) (post : α → Memory γ ρ → Prop)
    (bad : Memory γ ρ → Prop) : Prop :=
  Ends x m post ∨ Faults x m bad

section Rules

variable {γ ρ α β : Type} {x : Prog γ ρ α} {f : α → Prog γ ρ β} {m m' : Memory γ ρ} {a : α}
  {post : α → Memory γ ρ → Prop} {post' : β → Memory γ ρ → Prop} {bad : Memory γ ρ → Prop}

theorem exec_bind_of_ok (h : exec x m = (.ok a, m')) : exec (x >>= f) m = exec (f a) m' := by
  have h' : (ExceptT.run x).run m = (.ok a, m') := h
  simp only [exec, ExceptT.run_bind, StateT.run_bind, h']
  rfl

theorem exec_bind_of_error {e : Fault} (h : exec x m = (.error e, m')) :
    exec (x >>= f) m = (.error e, m') := by
  have h' : (ExceptT.run x).run m = (.error e, m') := h
  simp only [exec, ExceptT.run_bind, StateT.run_bind, h']
  rfl

theorem Ends.pure (h : post a m) : Ends (Pure.pure a : Prog γ ρ α) m post := ⟨a, m, rfl, h⟩

theorem Ends.bind (hx : Ends x m post) (hf : ∀ a m', post a m' → Ends (f a) m' post') :
    Ends (x >>= f) m post' := by
  obtain ⟨a, m₁, he, hp⟩ := hx
  obtain ⟨b, m₂, he', hp'⟩ := hf a m₁ hp
  exact ⟨b, m₂, (exec_bind_of_ok he).trans he', hp'⟩

variable {post₂ : α → Memory γ ρ → Prop}

theorem Ends.imp (hx : Ends x m post)
    (h : ∀ a m', post a m' → post₂ a m') : Ends x m post₂ := by
  obtain ⟨a, m', he, hp⟩ := hx
  exact ⟨a, m', he, h a m' hp⟩

theorem Ends.bind_or (hx : Ends x m post) (hf : ∀ a m', post a m' → EndsOr (f a) m' post' bad) :
    EndsOr (x >>= f) m post' bad := by
  obtain ⟨a, m₁, he, hp⟩ := hx
  obtain ⟨b, m₂, he', hp'⟩ | ⟨e, m₂, he', hp'⟩ := hf a m₁ hp
  · exact .inl ⟨b, m₂, (exec_bind_of_ok he).trans he', hp'⟩
  · exact .inr ⟨e, m₂, (exec_bind_of_ok he).trans he', hp'⟩

theorem EndsOr.imp (hx : EndsOr x m post bad)
    {bad₂ : Memory γ ρ → Prop} (h : ∀ a m', post a m' → post₂ a m') (h' : ∀ m', bad m' → bad₂ m') :
    EndsOr x m post₂ bad₂ := by
  obtain hx | ⟨e, m', he, hb⟩ := hx
  · exact .inl (hx.imp h)
  · exact .inr ⟨e, m', he, h' m' hb⟩

theorem Faults.bind (hx : Faults x m bad) : Faults (x >>= f) m bad := by
  obtain ⟨e, m', he, hp⟩ := hx
  exact ⟨e, m', exec_bind_of_error he, hp⟩

end Rules

section OperationRules

variable {γ ρ : Type} {m : Memory γ ρ} {p : ℕ} {cells : List γ} {bs : Multiset (ℕ × List γ)}

/-- The answer to a request: it is refused, and the blocks stay as they are; or it is granted, and
this holds for the new block and the heap. -/
inductive Answered (grants : ℕ → Bool) (r : ρ) (m : Memory γ ρ) (post : ℕ → Heap γ → Prop) :
    Option ℕ → Memory γ ρ → Prop
  | refused {m' : Memory γ ρ} (hg : grants m.asked.length = false)
    (hasked : m'.asked = m.asked ++ [(r, false)]) (hheap : m'.heap = m.heap) :
    Answered grants r m post none m'
  | granted {m' : Memory γ ρ} (p : ℕ) (hg : grants m.asked.length = true)
    (hasked : m'.asked = m.asked ++ [(r, true)]) (h : post p m'.heap) :
    Answered grants r m post (some p) m'

theorem Answered.imp {grants : ℕ → Bool} {r : ρ} {post post' : ℕ → Heap γ → Prop}
    {answer : Option ℕ} {m' : Memory γ ρ} (h : Answered grants r m post answer m')
    (hpost : ∀ p h, post p h → post' p h) : Answered grants r m post' answer m' := by
  cases h with
  | refused hg hasked hheap => exact .refused hg hasked hheap
  | granted p hg hasked h => exact .granted p hg hasked (hpost p _ h)

theorem request_ends (ho : m.heap.Owns bs) (grants : ℕ → Bool) (r : ρ) (cells : List γ) :
    Ends (request grants r cells) m
      (Answered grants r m fun p h => h.Owns ((p, cells) ::ₘ bs)) := by
  cases hg : grants m.asked.length with
  | false =>
    exact ⟨none, { m with asked := m.asked ++ [(r, false)] },
      if_neg (by rw [hg]; exact Bool.false_ne_true), .refused hg rfl rfl⟩
  | true => exact ⟨_, _, if_pos hg, .granted _ hg rfl (ho.alloc cells)⟩

theorem cellsAt_ends (ho : m.heap.Owns bs) (hmem : (p, cells) ∈ bs) :
    Ends (cellsAt p) m fun cells' m' => cells' = cells ∧ m' = m := by
  refine ⟨cells, m, ?_, rfl, rfl⟩
  change (m.heap.block p).elim _ _ = _
  rw [ho.block_eq hmem]
  rfl

theorem writeAt_ends (ho : m.heap.Owns ((p, cells) ::ₘ bs)) (i : ℕ) (xs : List γ)
    (hi : i + xs.length ≤ cells.length) :
    Ends (writeAt p i xs) m fun _ m' => m'.asked = m.asked ∧
      m'.heap.Owns ((p, cells.take i ++ xs ++ cells.drop (i + xs.length)) ::ₘ bs) := by
  refine ⟨(), { m with heap := m.heap.replace p _ }, ?_, rfl, ho.replace _⟩
  change (m.heap.block p).elim _ _ = _
  rw [ho.block_eq (Multiset.mem_cons_self _ _)]
  exact if_pos hi

theorem release_ends (ho : m.heap.Owns ((p, cells) ::ₘ bs)) :
    Ends (release p) m fun _ m' => m'.asked = m.asked ∧ m'.heap.Owns bs := by
  refine ⟨(), { m with heap := m.heap.erase p }, ?_, rfl, ho.erase⟩
  change (m.heap.block p).elim _ _ = _
  rw [ho.block_eq (Multiset.mem_cons_self _ _)]
  rfl

theorem cellsAt_faults (ho : m.heap.Owns bs) (hne : ∀ b ∈ bs, b.1 ≠ p) :
    Faults (cellsAt p) m fun m' => m' = m := by
  refine ⟨.dead, m, ?_, rfl⟩
  change (m.heap.block p).elim _ _ = _
  rw [ho.block_eq_none hne]
  rfl

end OperationRules

/-! ## The answers of the allocator -/

section Answers

variable {ρ : Type} {grants : ℕ → Bool} {l l' l'' : List (ρ × Bool)} {r : ρ}

/-- Between two records all requests were granted. -/
def Granted (l l' : List (ρ × Bool)) : Prop := ∃ gs, l' = l ++ gs ∧ ∀ g ∈ gs, g.2 = true

/-- Between two records all requests were granted but the last one, which the allocator refuses. -/
def Refused (grants : ℕ → Bool) (r : ρ) (l l' : List (ρ × Bool)) : Prop :=
  ∃ gs, l' = l ++ (gs ++ [(r, false)]) ∧ (∀ g ∈ gs, g.2 = true) ∧
    grants (l.length + gs.length) = false

theorem Granted.refl (l : List (ρ × Bool)) : Granted l l :=
  ⟨[], (append_nil l).symm, fun _ hg => absurd hg not_mem_nil⟩

theorem granted_concat (l : List (ρ × Bool)) (r : ρ) : Granted l (l ++ [(r, true)]) :=
  ⟨[(r, true)], rfl, forall_mem_singleton.2 rfl⟩

theorem refused_concat (hg : grants l.length = false) (r : ρ) :
    Refused grants r l (l ++ [(r, false)]) :=
  ⟨[], rfl, fun _ hg => absurd hg not_mem_nil, hg⟩

theorem Granted.trans (h : Granted l l') (h' : Granted l' l'') : Granted l l'' := by
  obtain ⟨gs, rfl, hgs⟩ := h
  obtain ⟨gs', rfl, hgs'⟩ := h'
  exact ⟨gs ++ gs', append_assoc _ _ _, fun g hg => (mem_append.1 hg).elim (hgs g) (hgs' g)⟩

theorem Granted.refused (h : Granted l l') (h' : Refused grants r l' l'') :
    Refused grants r l l'' := by
  obtain ⟨gs, rfl, hgs⟩ := h
  obtain ⟨gs', rfl, hgs', hgrants⟩ := h'
  refine ⟨gs ++ gs', by simp only [append_assoc],
    fun g hg => (mem_append.1 hg).elim (hgs g) (hgs' g), ?_⟩
  rwa [length_append, add_assoc, ← length_append] at hgrants

end Answers

end Vlibc
