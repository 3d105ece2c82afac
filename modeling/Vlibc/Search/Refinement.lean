import Vlibc.Foundations.SearchTree
import Vlibc.Search.Tree

/-!
# The tree in memory

A search tree whose values are an address and a key lies in memory if each of its nodes does, with
links to the two parts (`Owns`). An operation that starts at the place of a link replaces the tree
behind it and leaves the rest of memory alone (`Replaces`); that is kept from a part to the whole
(`Replaces.left`, `Replaces.right`).
-/

namespace Vlibc.Search

open BinaryTree List Option Function

variable {K : Type}

/-! ## Trees in memory -/

/-- The pointer to a tree. -/
def ptr : BinaryTree (ℕ × K) → ℕ
  | .nil => 0
  | .node c _ _ => c.1

@[simp] theorem ptr_nil : ptr (.nil : BinaryTree (ℕ × K)) = 0 := rfl

@[simp] theorem ptr_node (c : ℕ × K) (l r : BinaryTree (ℕ × K)) : ptr (.node c l r) = c.1 := rfl

/-- The addresses of the nodes, in order. -/
def addrs (t : BinaryTree (ℕ × K)) : List ℕ := (inorder t).map Prod.fst

@[simp] theorem addrs_nil : addrs (.nil : BinaryTree (ℕ × K)) = [] := rfl

@[simp] theorem addrs_node (c : ℕ × K) (l r : BinaryTree (ℕ × K)) :
    addrs (.node c l r) = addrs l ++ c.1 :: addrs r := by
  simp [addrs]

theorem nodup_addrs_node {c : ℕ × K} {l r : BinaryTree (ℕ × K)}
    (h : (addrs (.node c l r)).Nodup) :
    (addrs l).Nodup ∧ (addrs r).Nodup ∧ c.1 ∉ addrs l ∧ c.1 ∉ addrs r ∧
      ∀ b ∈ addrs l, b ∉ addrs r := by
  rw [addrs_node, nodup_append] at h
  obtain ⟨hnl, hncr, hdisj⟩ := h
  obtain ⟨hcr, hnr⟩ := nodup_cons.1 hncr
  exact ⟨hnl, hnr, fun hc => hdisj c.1 hc c.1 mem_cons_self rfl, hcr,
    fun b hb hb' => hdisj b hb b (.tail _ hb') rfl⟩

/-- The nodes of the tree are in memory, linked as in the tree. -/
def Owns (node : ℕ → Option (Node K)) : BinaryTree (ℕ × K) → Prop
  | .nil => True
  | .node c l r =>
    c.1 ≠ 0 ∧ node c.1 = some ⟨c.2, ptr l, ptr r⟩ ∧ Owns node l ∧ Owns node r

variable {t : BinaryTree (ℕ × K)}

theorem Owns.congr {node node' : ℕ → Option (Node K)} (h : Owns node t)
    (heq : ∀ b ∈ addrs t, node' b = node b) : Owns node' t := by
  induction t with
  | nil => trivial
  | node c l r ihl ihr =>
    obtain ⟨hne, hnode, hl, hr⟩ := h
    simp only [addrs_node, mem_append, mem_cons] at heq
    exact ⟨hne, (heq c.1 (.inr (.inl rfl))).trans hnode, ihl hl fun b hb => heq b (.inl hb),
      ihr hr fun b hb => heq b (.inr (.inr hb))⟩

variable {node : ℕ → Option (Node K)}

theorem Owns.exists_node (h : Owns node t)
    {c : ℕ × K} (hc : c ∈ inorder t) : c.1 ≠ 0 ∧ ∃ v, node c.1 = some v ∧ v.key = c.2 := by
  induction t with
  | nil => cases hc
  | node d l r ihl ihr =>
    obtain ⟨hne, hnode, hl, hr⟩ := h
    simp only [inorder_node, mem_append, mem_cons] at hc
    rcases hc with hc | rfl | hc
    · exact ihl hl hc
    · exact ⟨hne, _, hnode, rfl⟩
    · exact ihr hr hc

theorem Owns.isSome (h : Owns node t) {b : ℕ}
    (hb : b ∈ addrs t) : (node b).isSome := by
  obtain ⟨c, hc, rfl⟩ := List.mem_map.1 hb
  obtain ⟨-, v, hv, -⟩ := h.exists_node hc
  rw [hv]
  rfl

namespace Slot

/-- The node whose field the place is. -/
def owner : Slot → Option ℕ
  | root => none
  | left n => some n
  | right n => some n

end Slot

namespace Heap

variable {h : Heap K} {p : Slot} {n x b : ℕ}

@[simp] theorem setNode_node (v : Option (Node K)) :
    (h.setNode n v).node = Function.update h.node n v := rfl

@[simp] theorem put_freed : (h.put p x).freed = h.freed := by cases p <;> rfl

theorem put_node (hb : p.owner ≠ some b) : (h.put p x).node b = h.node b := by
  cases p with
  | root => rfl
  | left n | right n => exact update_of_ne (fun heq : b = n => hb (congrArg some heq.symm)) _ _

theorem put_of_load (hload : h.load p = some x) : h.put p x = h := by
  cases p with
  | root =>
    cases hload
    rfl
  | left n | right n =>
    obtain ⟨v, hv, rfl⟩ := map_eq_some_iff.1 hload
    simp only [put, setNode, hv, map_some]
    rw [← hv, update_eq_self]

theorem store_eq (hload : h.load p = some b) : h.store p x = some (h.put p x) := by
  rw [store, hload]
  rfl

theorem put_setNode (v : Option (Node K)) (hn : p.owner ≠ some n) :
    (h.setNode n v).put p x = (h.put p x).setNode n v := by
  cases p with
  | root => rfl
  | left m | right m =>
    have hne : m ≠ n := fun heq => hn (congrArg some heq)
    simp only [put, setNode, update_of_ne hne, update_comm hne]

theorem put_remove (hn : p.owner ≠ some n) : (h.remove n).put p x = (h.put p x).remove n := by
  have hswap := congrArg (fun g : Heap K => { g with freed := n :: h.freed })
    (put_setNode (h := h) (x := x) none hn)
  cases p <;> exact hswap

theorem load_setNode (v : Option (Node K)) (hn : p.owner ≠ some n) :
    (h.setNode n v).load p = h.load p := by
  cases p with
  | root => rfl
  | left m | right m =>
    have hne : m ≠ n := fun heq => hn (congrArg some heq)
    simp only [load, setNode, update_of_ne hne]

theorem load_remove (hn : p.owner ≠ some n) : (h.remove n).load p = h.load p := by
  have hset := load_setNode (h := h) none hn
  cases p <;> exact hset

variable {v : Node K}

theorem free_eq (hv : h.node n = some v) : h.free n = some (h.remove n) := by
  rw [free, hv]
  rfl

end Heap

/-! ## Replacing a tree -/

/-- The tree `t` lies behind the link at `p`, which is not in the tree; no two nodes of the tree, or
addresses in `new`, which are free, are the same. -/
structure Holds (h : Heap K) (p : Slot) (t : BinaryTree (ℕ × K)) (new : List ℕ) : Prop where
  load : h.load p = some (ptr t)
  owns : Owns h.node t
  nodup : (addrs t).Nodup
  owner : ∀ n, p.owner = some n → n ∉ addrs t
  fresh : ∀ a ∈ new, a ≠ 0 ∧ h.node a = none

/-- The tree `t` behind `p` is replaced by `t'`, with nodes at addresses in `new`, and all else is
left as it was. -/
structure Replaces (h h' : Heap K) (p : Slot) (t : BinaryTree (ℕ × K)) (new : List ℕ)
    (t' : BinaryTree (ℕ × K)) : Prop where
  root : h'.root = (h.put p (ptr t')).root
  node : ∀ b, b ∉ addrs t → b ∉ new → h'.node b = (h.put p (ptr t')).node b
  owns : Owns h'.node t'
  live : ∀ b, b ∈ addrs t ∨ b ∈ new → ((h'.node b).isSome ↔ b ∈ addrs t')

variable {h h' : Heap K} {p : Slot} {c : ℕ × K} {l r l' r' : BinaryTree (ℕ × K)} {new : List ℕ}

theorem Holds.not_mem_new (hh : Holds h p t new) {b : ℕ} (hb : b ∈ addrs t) : b ∉ new := by
  intro hnew
  have hsome := hh.owns.isSome hb
  rw [(hh.fresh b hnew).2] at hsome
  cases hsome

theorem Replaces.refl (hh : Holds h p t new) : Replaces h h p t new t where
  root := by rw [Heap.put_of_load hh.load]
  node b _ _ := by rw [Heap.put_of_load hh.load]
  owns := hh.owns
  live b hb := by
    refine ⟨fun hsome => hb.resolve_right fun hnew => ?_, hh.owns.isSome⟩
    rw [(hh.fresh b hnew).2] at hsome
    cases hsome

theorem Holds.parts (hh : Holds h p (.node c l r) new) :
    Holds h (.left c.1) l new ∧ Holds h (.right c.1) r new ∧ c.1 ∉ addrs l ∧ c.1 ∉ addrs r ∧
      ∀ b ∈ addrs l, b ∉ addrs r := by
  obtain ⟨-, hnode, hl, hr⟩ := hh.owns
  obtain ⟨hnl, hnr, hcl, hcr, hdisj⟩ := nodup_addrs_node hh.nodup
  refine ⟨⟨by simp [Heap.load, hnode], hl, hnl, ?_, hh.fresh⟩,
    ⟨by simp [Heap.load, hnode], hr, hnr, ?_, hh.fresh⟩, hcl, hcr, hdisj⟩
  · rintro n ⟨⟩
    exact hcl
  · rintro n ⟨⟩
    exact hcr

variable {n : ℕ}

/-- Replacing a tree behind a field of the node `n` leaves alone what is neither in the tree nor
`n`. -/
theorem Replaces.node_of_ne {t' : BinaryTree (ℕ × K)} (hrep : Replaces h h' p t new t')
    (howner : p.owner = some n) {b : ℕ} (hb : b ∉ addrs t) (hnew : b ∉ new) (hne : b ≠ n) :
    h'.node b = h.node b := by
  rw [hrep.node b hb hnew, Heap.put_node (by rw [howner]; exact fun h => hne (some.inj h).symm)]

theorem Replaces.left (hh : Holds h p (.node c l r) new)
    (hrep : Replaces h h' (.left c.1) l new l') :
    Replaces h h' p (.node c l r) new (.node c l' r) := by
  obtain ⟨hne, hnode, -, hr⟩ := hh.owns
  obtain ⟨-, -, hcl, hcr, hdisj⟩ := hh.parts
  have hput : h.put p (ptr (.node c l' r)) = h := Heap.put_of_load hh.load
  have hnew : ∀ {b}, b ∈ addrs (.node c l r) → b ∉ new := hh.not_mem_new
  simp only [addrs_node, mem_append, mem_cons] at hnew
  have howns : Owns h'.node (.node c l' r) := by
    refine ⟨hne, ?_, hrep.owns, hr.congr fun b hb => ?_⟩
    · rw [hrep.node _ hcl (hnew (.inr (.inl rfl)))]
      simp [Heap.put, hnode]
    · exact hrep.node_of_ne rfl (fun hl => hdisj b hl hb) (hnew (.inr (.inr hb)))
        (fun hc => hcr (hc ▸ hb))
  refine ⟨?_, fun b hb hn => ?_, howns, fun b hb => ⟨fun hsome => ?_, howns.isSome⟩⟩
  · rw [hput]
    exact hrep.root
  · simp only [addrs_node, mem_append, mem_cons, not_or] at hb
    rw [hput]
    exact hrep.node_of_ne rfl hb.1 hn hb.2.1
  · simp only [addrs_node, mem_append, mem_cons] at hb ⊢
    rcases hb with (hb | hb) | hb
    · exact .inl ((hrep.live b (.inl hb)).1 hsome)
    · exact .inr hb
    · exact .inl ((hrep.live b (.inr hb)).1 hsome)

theorem Replaces.right (hh : Holds h p (.node c l r) new)
    (hrep : Replaces h h' (.right c.1) r new r') :
    Replaces h h' p (.node c l r) new (.node c l r') := by
  obtain ⟨hne, hnode, hl, -⟩ := hh.owns
  obtain ⟨-, -, hcl, hcr, hdisj⟩ := hh.parts
  have hput : h.put p (ptr (.node c l r')) = h := Heap.put_of_load hh.load
  have hnew : ∀ {b}, b ∈ addrs (.node c l r) → b ∉ new := hh.not_mem_new
  simp only [addrs_node, mem_append, mem_cons] at hnew
  have howns : Owns h'.node (.node c l r') := by
    refine ⟨hne, ?_, hl.congr fun b hb => ?_, hrep.owns⟩
    · rw [hrep.node _ hcr (hnew (.inr (.inl rfl)))]
      simp [Heap.put, hnode]
    · exact hrep.node_of_ne rfl (hdisj b hb) (hnew (.inl hb)) (fun hc => hcl (hc ▸ hb))
  refine ⟨?_, fun b hb hn => ?_, howns, fun b hb => ⟨fun hsome => ?_, howns.isSome⟩⟩
  · rw [hput]
    exact hrep.root
  · simp only [addrs_node, mem_append, mem_cons, not_or] at hb
    rw [hput]
    exact hrep.node_of_ne rfl hb.2.2 hn hb.2.1
  · simp only [addrs_node, mem_append, mem_cons] at hb ⊢
    rcases hb with (hb | rfl | hb) | hb
    · exact .inl hb
    · exact .inr (.inl rfl)
    · exact .inr (.inr ((hrep.live b (.inl hb)).1 hsome))
    · exact .inr (.inr ((hrep.live b (.inr hb)).1 hsome))

/-- A comparison function, and the order of the keys that it decides. -/
structure Comparator (K : Type) (ι : Type*) [LinearOrder ι] where
  compar : K → K → ℤ
  value : K → ι
  neg_iff : ∀ a b, compar a b < 0 ↔ value a < value b
  pos_iff : ∀ a b, 0 < compar a b ↔ value b < value a

theorem Comparator.eq_zero_iff {ι : Type*} [LinearOrder ι] (cmp : Comparator K ι) (a b : K) :
    cmp.compar a b = 0 ↔ cmp.value a = cmp.value b := by
  have hneg := cmp.neg_iff a b
  have hpos := cmp.pos_iff a b
  constructor
  · intro heq
    exact le_antisymm (not_lt.1 (mt hpos.2 (by omega))) (not_lt.1 (mt hneg.2 (by omega)))
  · intro heq
    rw [heq] at hneg hpos
    have := mt hneg.1 (lt_irrefl _)
    have := mt hpos.1 (lt_irrefl _)
    omega

section Operations

variable {ι : Type*} [LinearOrder ι] (cmp : Comparator K ι) (key : K) (malloc : Heap K → ℕ)

/-- The value of the key in a cell. -/
def Comparator.cell (c : ℕ × K) : ι := cmp.value c.2

theorem Comparator.cell_apply (c : ℕ × K) : cmp.cell c = cmp.value c.2 := rfl

/-- **`tsearch` inserts the key**, and returns a place where an equal one stands. -/
theorem tsearch_replaces (fuel : ℕ) (hh : Holds h p t [malloc h]) (hfuel : t.height < fuel) :
    ∃ r h', tsearch cmp.compar key malloc fuel p h = some (r, h') ∧
      Replaces h h' p t [malloc h] (insertNode cmp.cell (malloc h, key) t) ∧
      h'.freed = h.freed ∧ r ≠ 0 ∧ ∃ v, h'.node r = some v ∧ cmp.value v.key = cmp.value key := by
  induction t generalizing fuel p with
  | nil =>
    obtain _ | fuel := fuel
    · omega
    obtain ⟨hne, hnone⟩ := hh.fresh _ (mem_singleton_self _)
    have hload : h.load p = some 0 := hh.load
    have howner : p.owner ≠ some (malloc h) := by
      intro heq
      cases p with
      | root => cases heq
      | left n | right n =>
        cases heq
        simp [Heap.load, hnone] at hload
    refine ⟨malloc h, (h.put p (malloc h)).setNode (malloc h) (some ⟨key, 0, 0⟩), ?_, ?_, ?_, hne, ?_⟩
    · simp [tsearch, hload, Heap.store_eq hload, hne]
    · refine ⟨rfl, fun b _ hb => ?_, ⟨hne, ?_, trivial, trivial⟩, fun b hb => ?_⟩
      · exact update_of_ne (by simpa using hb) _ _
      · simp
      · obtain rfl : b = malloc h := by simpa using hb
        simp [insertNode]
    · exact Heap.put_freed
    · exact ⟨_, update_self .., rfl⟩
  | node c l r ihl ihr =>
    obtain _ | fuel := fuel
    · omega
    obtain ⟨hne, hnode, -⟩ := hh.owns
    obtain ⟨hl, hr, -⟩ := hh.parts
    have hload : h.load p = some c.1 := hh.load
    simp only [height] at hfuel
    simp only [insertNode, cmp.cell_apply, tsearch, hload, bind_eq_bind, bind_some, hne,
      if_false, hnode, cmp.neg_iff, cmp.pos_iff]
    by_cases hlt : cmp.value key < cmp.value c.2
    · simp only [hlt, ↓reduceIte]
      obtain ⟨r', h', hrun, hrep, hrest⟩ := ihl fuel hl (by omega)
      exact ⟨r', h', hrun, hrep.left hh, hrest⟩
    by_cases hgt : cmp.value c.2 < cmp.value key
    · simp only [hlt, hgt, ↓reduceIte]
      obtain ⟨r', h', hrun, hrep, hrest⟩ := ihr fuel hr (by omega)
      exact ⟨r', h', hrun, hrep.right hh, hrest⟩
    · simp only [hlt, hgt, ↓reduceIte]
      exact ⟨c.1, h, rfl, .refl hh, rfl, hne, _, hnode, le_antisymm (not_lt.1 hlt) (not_lt.1 hgt)⟩

theorem tfind_eq (fuel : ℕ) (hh : Holds h p t []) (hfuel : t.height < fuel) :
    tfind cmp.compar key fuel p h =
      some (((lookup cmp.cell (cmp.value key) t).map Prod.fst).getD 0) := by
  induction t generalizing fuel p with
  | nil =>
    obtain _ | fuel := fuel
    · omega
    have hload : h.load p = some 0 := hh.load
    simp [tfind, hload, lookup]
  | node c l r ihl ihr =>
    obtain _ | fuel := fuel
    · omega
    obtain ⟨hne, hnode, -⟩ := hh.owns
    obtain ⟨hl, hr, -⟩ := hh.parts
    have hload : h.load p = some c.1 := hh.load
    simp only [height] at hfuel
    simp only [lookup, cmp.cell_apply, tfind, hload, bind_eq_bind, bind_some, hne,
      if_false, hnode, cmp.neg_iff, cmp.pos_iff]
    by_cases hlt : cmp.value key < cmp.value c.2
    · simp only [hlt, ↓reduceIte]
      exact ihl fuel hl (by omega)
    by_cases hgt : cmp.value c.2 < cmp.value key
    · simp only [hlt, hgt, ↓reduceIte]
      exact ihr fuel hr (by omega)
    · simp only [hlt, hgt, ↓reduceIte]
      rfl

end Operations

/-! ## Deletion -/

/-- The place of `a` takes the key of `m`. -/
def graft (a m : ℕ × K) : ℕ × K := (a.1, m.2)

theorem Replaces.drop {s : BinaryTree (ℕ × K)} (hh : Holds h p (.node c l r) [])
    (hs : Owns h.node s) (hc : c.1 ∉ addrs s)
    (hmem : ∀ b, b ∈ addrs (.node c l r) ↔ b = c.1 ∨ b ∈ addrs s) :
    Replaces h ((h.put p (ptr s)).remove c.1) p (.node c l r) [] s := by
  have hnode : ∀ b, b ≠ c.1 → Function.update (h.put p (ptr s)).node c.1 none b =
      (h.put p (ptr s)).node b := fun b hb => update_of_ne hb _ _
  have howns : Owns (Function.update (h.put p (ptr s)).node c.1 none) s := by
    refine hs.congr fun b hb => ?_
    rw [hnode b (fun heq => hc (heq ▸ hb)), Heap.put_node]
    exact fun howner => hh.owner b howner ((hmem b).2 (.inr hb))
  refine ⟨rfl, fun b hb _ => ?_, howns, fun b hb => ⟨fun hsome => ?_, howns.isSome⟩⟩
  · exact hnode b fun heq => hb ((hmem b).2 (.inl heq))
  · have hb : b ∈ addrs (.node c l r) := by simpa using hb
    rcases (hmem b).1 hb with rfl | hb
    · simp [Heap.remove] at hsome
    · exact hb

theorem Holds.setKey (hh : Holds h p t new) (hv : h.node n = some v)
    (hn : n ∉ addrs t) (key : K) :
    Holds (h.setNode n (some { v with key := key })) p t new where
  load := by
    rw [← hh.load]
    cases p with
    | root => rfl
    | left m | right m =>
      rcases eq_or_ne m n with rfl | hne
      · simp [Heap.load, hv]
      · simp [Heap.load, hne]
  owns := hh.owns.congr fun b hb => update_of_ne (fun heq : b = n => hn (heq ▸ hb)) _ _
  nodup := hh.nodup
  owner := hh.owner
  fresh a ha := by
    obtain ⟨hne, hnone⟩ := hh.fresh a ha
    refine ⟨hne, (update_of_ne ?_ _ _).trans hnone⟩
    rintro rfl
    rw [hv] at hnone
    cases hnone

/-- **The second loop and what follows it** take out the first node of the tree `.node c l r` behind
`minp`, and its key moves to the node `n` outside. By induction on the left part. -/
theorem descendMin_unlinkMin (fuel : ℕ) (hh : Holds h p (.node c l r) [])
    (hv : h.node n = some v) (hn : n ∉ addrs (.node c l r)) (hfuel : l.height < fuel) :
    ∃ h', ((descendMin fuel p c.1 h).bind fun q => unlinkMin n q.1 q.2 h) = some h' ∧
      Replaces (h.setNode n (some { v with key := (leftmost c l).2 })) h' p (.node c l r) []
        (dropLeftmost c l r) ∧
      h'.freed = (leftmost c l).1 :: h.freed := by
  induction l generalizing c r p fuel with
  | nil =>
    obtain _ | fuel := fuel
    · omega
    obtain ⟨hne, hnode, -, hr⟩ := hh.owns
    obtain ⟨-, -, -, hcr, -⟩ := hh.parts
    have hcn : c.1 ≠ n := fun heq => hn (by simp [heq])
    have hh₁ := hh.setKey hv hn c.2
    have howner : p.owner ≠ some c.1 := fun heq => hh.owner c.1 heq (by simp)
    set h₁ := h.setNode n (some { v with key := c.2 })
    have hnode₁ : h₁.node c.1 = some ⟨c.2, 0, ptr r⟩ := (update_of_ne hcn _ _).trans hnode
    refine ⟨(h₁.put p (ptr r)).remove c.1, ?_, .drop hh₁ hh₁.owns.2.2.2 hcr (by simp), ?_⟩
    rotate_left
    · rw [Heap.remove, Heap.put_freed]
      rfl
    simp only [descendMin, hnode, unlinkMin, hv, bind_eq_bind, bind_some, ptr_nil,
      if_true, Option.pure_def]
    rw [hnode₁, bind_some, Heap.free_eq hnode₁, bind_some,
      Heap.store_eq ((Heap.load_remove howner).trans hh₁.load), Heap.put_remove howner]
  | node b l' r' ihl _ =>
    obtain _ | fuel := fuel
    · omega
    obtain ⟨-, hnode, ⟨hb, -⟩, -⟩ := hh.owns
    obtain ⟨hl, -⟩ := hh.parts
    have hstep : descendMin (fuel + 1) p c.1 h = descendMin fuel (.left c.1) b.1 h := by
      simp [descendMin, hnode, hb]
    simp only [height] at hfuel
    have hnl : n ∉ addrs (.node b l' r') := fun hmem => hn (by rw [addrs_node]; exact mem_append_left _ hmem)
    obtain ⟨h', hrun, hrep, hfreed⟩ := ihl fuel hl hnl (by omega)
    rw [hstep]
    exact ⟨h', hrun, hrep.left (hh.setKey hv hn _), hfreed⟩

theorem Holds.setRoot (hh : Holds h p (.node c l r) new) (key : K) :
    Holds (h.setNode c.1 (some ⟨key, ptr l, ptr r⟩)) p (.node (c.1, key) l r) new := by
  obtain ⟨hne, hnode, hl, hr⟩ := hh.owns
  obtain ⟨-, -, hcl, hcr, -⟩ := hh.parts
  have haddrs : addrs (.node (c.1, key) l r) = addrs (.node c l r) := by simp
  have howner : p.owner ≠ some c.1 := fun heq => hh.owner c.1 heq (by simp)
  have hother : ∀ b, b ≠ c.1 → (h.setNode c.1 (some ⟨key, ptr l, ptr r⟩)).node b = h.node b :=
    fun b hb => update_of_ne hb _ _
  refine ⟨(Heap.load_setNode _ howner).trans hh.load, ⟨hne, update_self .., ?_, ?_⟩, ?_, ?_,
    fun a ha => ⟨(hh.fresh a ha).1, ?_⟩⟩
  · exact hl.congr fun b hb => hother b fun heq => hcl (heq ▸ hb)
  · exact hr.congr fun b hb => hother b fun heq => hcr (heq ▸ hb)
  · rw [haddrs]
    exact hh.nodup
  · rw [haddrs]
    exact hh.owner
  · exact (hother a fun heq => hh.not_mem_new (by simp) (heq ▸ ha)).trans (hh.fresh a ha).2

theorem Replaces.of_setNode {v : Option (Node K)} {s t' : BinaryTree (ℕ × K)}
    (hrep : Replaces (h.setNode n v) h' p s new t') (hn : n ∈ addrs t) (hs : addrs s = addrs t)
    (howner : p.owner ≠ some n) : Replaces h h' p t new t' := by
  have hput : (h.setNode n v).put p (ptr t') = (h.put p (ptr t')).setNode n v :=
    Heap.put_setNode v howner
  refine ⟨?_, fun b hb hnew => ?_, hrep.owns, fun b hb => hrep.live b (by rwa [hs])⟩
  · rw [hrep.root, hput]
    rfl
  · rw [hrep.node b (by rwa [hs]) hnew, hput]
    exact update_of_ne (fun heq => hb (by rwa [heq])) _ _

/-- **What follows the first loop of `tdelete`** takes out the root of the tree behind `p`. -/
theorem unlink_replaces (fuel parent : ℕ) (hh : Holds h p (.node c l r) [])
    (hfuel : r.height < fuel) :
    ∃ ret h', unlink fuel p parent h = some (ret, h') ∧ ret ≠ 0 ∧
      Replaces h h' p (.node c l r) [] (eraseRoot graft c l r) ∧
      h'.freed = (erasedRoot c l r).1 :: h.freed := by
  obtain ⟨hne, hnode, hl, hr⟩ := hh.owns
  obtain ⟨-, hright, hcl, hcr, -⟩ := hh.parts
  have hload : h.load p = some c.1 := hh.load
  have howner : p.owner ≠ some c.1 := fun heq => hh.owner c.1 heq (by simp)
  have hret : (if parent ≠ 0 then parent else c.1) ≠ 0 := by split_ifs with h0 <;> assumption
  have hfree : ∀ x, (h.put p x).free c.1 = some ((h.put p x).remove c.1) := fun x =>
    Heap.free_eq ((Heap.put_node howner).trans hnode)
  cases l with
  | nil =>
    refine ⟨_, (h.put p (ptr r)).remove c.1, ?_, hret, .drop hh hr hcr (by simp), ?_⟩
    · simp only [unlink, hload, hne, hnode, Heap.store_eq hload, hfree, bind_eq_bind,
        bind_some, if_false, ptr_nil, if_true, Option.pure_def]
    · rw [Heap.remove, Heap.put_freed]
      rfl
  | node b l' r' =>
    have hb : ptr (.node b l' r') ≠ 0 := hl.1
    cases r with
    | nil =>
      refine ⟨_, (h.put p b.1).remove c.1, ?_, hret, .drop hh hl hcl fun x => ?_, ?_⟩
      · simp only [unlink, hload, hne, hnode, Heap.store_eq hload, hfree, bind_eq_bind,
          bind_some, if_false, ptr_nil, if_true, Option.pure_def, hb]
        rfl
      · rw [addrs_node c, addrs_nil, mem_append, mem_singleton, or_comm]
      · rw [Heap.remove, Heap.put_freed]
        rfl
    | node d l'' r'' =>
      have hd : ptr (.node d l'' r'') ≠ 0 := hr.1
      simp only [height] at hfuel
      obtain ⟨h', hrun, hrep, hfreed⟩ := descendMin_unlinkMin fuel hright hnode hcr (by omega)
      refine ⟨_, h', ?_, hret, ?_, hfreed⟩
      · simp only [unlink, hload, hne, hnode, bind_eq_bind, bind_some, if_false, hb, hd,
          Option.pure_def]
        rw [← bind_assoc, ptr_node, hrun, bind_some]
      · exact (hrep.right (hh.setRoot _)).of_setNode (by simp) (by simp) howner

section Delete

variable {ι : Type*} [LinearOrder ι] (cmp : Comparator K ι) (key : K)

/-- **`tdelete` takes out the key**, and frees the node that goes; it returns `NULL` if the key is not
there. `parent` is what the first loop has seen so far. -/
theorem descend_unlink (fuel n parent : ℕ) (hh : Holds h p t []) (hfuel : t.height < fuel)
    (hn : t.height < n) :
    ∃ ret h', ((descend cmp.compar key fuel p parent h).bind fun q => unlink n q.1 q.2 h) =
        some (ret, h') ∧
      Replaces h h' p t [] (eraseKey graft cmp.cell (cmp.value key) t) ∧
      (ret = 0 ↔ lookup cmp.cell (cmp.value key) t = none) ∧
      (lookup cmp.cell (cmp.value key) t = none → h' = h) ∧
      h'.freed = ((erased cmp.cell (cmp.value key) t).map Prod.fst).toList ++ h.freed := by
  induction t generalizing fuel p parent with
  | nil =>
    obtain _ | fuel := fuel
    · omega
    have hload : h.load p = some 0 := hh.load
    exact ⟨0, h, by simp [descend, unlink, hload], .refl hh, by simp [lookup], fun _ => rfl, rfl⟩
  | node c l r ihl ihr =>
    obtain _ | fuel := fuel
    · omega
    obtain ⟨hne, hnode, -⟩ := hh.owns
    obtain ⟨hl, hr, -⟩ := hh.parts
    have hload : h.load p = some c.1 := hh.load
    simp only [height] at hfuel hn
    simp only [lookup, eraseKey, erased, cmp.cell_apply, descend, hload, bind_eq_bind,
      bind_some, hne, if_false, hnode, cmp.neg_iff, cmp.eq_zero_iff]
    by_cases hlt : cmp.value key < cmp.value c.2
    · simp only [hlt, hlt.ne, ↓reduceIte]
      obtain ⟨ret, h', hrun, hrep, hrest⟩ := ihl fuel c.1 hl (by omega) (by omega)
      exact ⟨ret, h', hrun, hrep.left hh, hrest⟩
    by_cases hgt : cmp.value c.2 < cmp.value key
    · simp only [hlt, hgt, hgt.ne', ↓reduceIte]
      obtain ⟨ret, h', hrun, hrep, hrest⟩ := ihr fuel c.1 hr (by omega) (by omega)
      exact ⟨ret, h', hrun, hrep.right hh, hrest⟩
    · have heq : cmp.value key = cmp.value c.2 := le_antisymm (not_lt.1 hgt) (not_lt.1 hlt)
      simp only [heq, lt_self_iff_false, ↓reduceIte, Option.pure_def, bind_some]
      obtain ⟨ret, h', hrun, hret, hrep, hfreed⟩ := unlink_replaces n parent hh (by omega)
      exact ⟨ret, h', hrun, hrep, by simpa using hret, fun hnone => absurd hnone (some_ne_none _), hfreed⟩

end Delete

end Vlibc.Search
