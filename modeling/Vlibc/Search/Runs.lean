import Mathlib.Data.Finset.Sort
import Mathlib.Order.Lattice.Nat
import Vlibc.Search.Refinement

/-!
# Runs of the tree functions

Any sequence of `tsearch`, `tfind` and `tdelete`, from an empty root, is a sequence of insertions,
queries and removals on a set of keys (`keySet`): the tree in memory is ordered and has the keys of
the set (`IsSearchTree`), and every call answers for the set (`Op.Outcome`). Calls with as much fuel
as there are keys return.
-/

namespace Vlibc.Search

open BinaryTree List Option

variable {K : Type} {ι : Type*} [LinearOrder ι]

/-- The calls on a tree. -/
inductive Op (K : Type)
  | tsearch (key : K)
  | tfind (key : K)
  | tdelete (key : K)

/-- A `malloc` that always finds memory for a node: what it returns is not `NULL` and not in use. -/
structure Allocator (K : Type) where
  malloc : Heap K → ℕ
  grants : ∀ h : Heap K, {b | (h.node b).isSome}.Finite → malloc h ≠ 0 ∧ h.node (malloc h) = none

namespace Op

/-- What a call returns, and the memory after it. -/
def exec (compar : K → K → ℤ) (malloc : Heap K → ℕ) (fuel : ℕ) : Op K → Heap K → Option (ℕ × Heap K)
  | tsearch key, h => Search.tsearch compar key malloc fuel .root h
  | tfind key, h => (Search.tfind compar key fuel .root h).map fun r => (r, h)
  | tdelete key, h => Search.tdelete compar key fuel h

/-- What a call does to the set of keys. -/
def apply (cmp : Comparator K ι) : Op K → Finset ι → Finset ι
  | tsearch key, s => insert (cmp.value key) s
  | tfind _, s => s
  | tdelete key, s => s.erase (cmp.value key)

/-- What a call returns and frees, with the keys `s` in the tree: `tsearch` and `tfind` return a place
where a key equal to the argument stands, `tfind` only if there is one; `tdelete` returns `NULL` only
if there is none, and otherwise frees one node. -/
def Outcome (cmp : Comparator K ι) : Op K → Finset ι → Heap K → ℕ → Heap K → Prop
  | tsearch key, _, h, r, h' =>
    r ≠ 0 ∧ (∃ v, h'.node r = some v ∧ cmp.value v.key = cmp.value key) ∧ h'.freed = h.freed
  | tfind key, s, h, r, h' =>
    h' = h ∧ (r ≠ 0 ↔ cmp.value key ∈ s) ∧
      (r ≠ 0 → ∃ v, h.node r = some v ∧ cmp.value v.key = cmp.value key)
  | tdelete key, s, h, r, h' =>
    (r = 0 ↔ cmp.value key ∉ s) ∧ (cmp.value key ∉ s → h' = h) ∧
      (cmp.value key ∈ s → ∃ b, h'.freed = b :: h.freed ∧ (h.node b).isSome ∧ h'.node b = none)

end Op

/-- The memory after a sequence of calls. -/
def run (compar : K → K → ℤ) (malloc : Heap K → ℕ) (fuel : ℕ) (ops : List (Op K)) (h : Heap K) :
    Option (Heap K) :=
  ops.foldlM (fun h op => (op.exec compar malloc fuel h).map Prod.snd) h

/-- The set of keys after a sequence of calls. -/
def keySet (cmp : Comparator K ι) (ops : List (Op K)) : Finset ι :=
  ops.foldl (fun s op => op.apply cmp s) ∅

/-- The nodes in memory are those of the tree. -/
structure Shape (h : Heap K) (t : BinaryTree (ℕ × K)) : Prop where
  holds : Holds h .root t []
  live : ∀ b, (h.node b).isSome ↔ b ∈ addrs t

/-- The tree in memory is ordered and its keys are `s`. -/
structure Models (cmp : Comparator K ι) (h : Heap K) (s : Finset ι) (t : BinaryTree (ℕ × K)) :
    Prop where
  shape : Shape h t
  ordered : Ordered cmp.cell t
  keys : ∀ y, y ∈ s ↔ y ∈ (inorder t).map cmp.cell

/-- The memory is a binary search tree whose keys, which are distinct, are `s`. -/
def IsSearchTree (cmp : Comparator K ι) (h : Heap K) (s : Finset ι) : Prop := ∃ t, Models cmp h s t

variable {h h' : Heap K} {t t' : BinaryTree (ℕ × K)} {s : Finset ι} {cmp : Comparator K ι}

theorem Shape.finite (hs : Shape h t) : {b | (h.node b).isSome}.Finite := by
  have heq : {b | (h.node b).isSome} = {b | b ∈ addrs t} := Set.ext hs.live
  rw [heq]
  exact finite_toSet _

theorem Replaces.shape {new : List ℕ} (hs : Shape h t) (hrep : Replaces h h' .root t new t')
    (hnodup : (addrs t').Nodup) (hmem : ∀ b ∈ addrs t', b ∈ addrs t ∨ b ∈ new) : Shape h' t' where
  holds := ⟨congrArg some hrep.root, hrep.owns, hnodup, fun _ h => (nomatch h),
    fun _ h => (nomatch h)⟩
  live b := by
    by_cases hb : b ∈ addrs t ∨ b ∈ new
    · exact hrep.live b hb
    · refine iff_of_false ?_ fun hb' => hb (hmem b hb')
      rw [not_or] at hb
      rw [hrep.node b hb.1 hb.2]
      exact fun hsome => hb.1 ((hs.live b).1 hsome)

namespace Models

theorem empty (cmp : Comparator K ι) : Models cmp Heap.empty ∅ .nil where
  shape := ⟨⟨rfl, trivial, nodup_nil, fun _ h => (nomatch h), fun _ h => (nomatch h)⟩,
    fun b => by simp [Heap.empty]⟩
  ordered := ordered_nil _
  keys y := by simp

theorem map_inorder (hm : Models cmp h s t) : (inorder t).map cmp.cell = s.sort := by
  have hnodup : ((inorder t).map cmp.cell).Nodup := hm.ordered.imp fun h => h.ne
  have hs : s = ((inorder t).map cmp.cell).toFinset := by
    ext y
    rw [hm.keys, List.mem_toFinset]
  rw [hs, (toFinset_sort (· ≤ ·) hnodup).2 (hm.ordered.imp fun h => h.le)]

theorem height_le_card (hm : Models cmp h s t) : t.height ≤ s.card := by
  rw [← Finset.length_sort (r := (· ≤ ·)), ← hm.map_inorder, length_map, length_inorder]
  exact height_le_numNodes t

theorem isSome_lookup_iff (hm : Models cmp h s t) (y : ι) :
    (lookup cmp.cell y t).isSome ↔ y ∈ s := by
  rw [lookup_isSome_iff _ hm.ordered, hm.keys, List.mem_map]

theorem lookup_eq_none_iff (hm : Models cmp h s t) (y : ι) :
    lookup cmp.cell y t = none ↔ y ∉ s := by
  rw [← hm.isSome_lookup_iff, not_isSome_iff_eq_none]

/-! ## One call -/

section Step

variable {fuel : ℕ} (key : K)

theorem tsearch_step (alloc : Allocator K) (hm : Models cmp h s t) (hfuel : t.height < fuel) :
    ∃ r h', (Op.tsearch key).exec cmp.compar alloc.malloc fuel h = some (r, h') ∧
      IsSearchTree cmp h' ((Op.tsearch key).apply cmp s) ∧
      (Op.tsearch key).Outcome cmp s h r h' := by
  have hs := hm.shape
  obtain ⟨hne, hnone⟩ := alloc.grants h hs.finite
  have hholds : Holds h .root t [alloc.malloc h] :=
    ⟨hs.holds.load, hs.holds.owns, hs.holds.nodup, hs.holds.owner, by simpa using ⟨hne, hnone⟩⟩
  have hfresh : alloc.malloc h ∉ addrs t := fun hmem => by
    simpa [hnone] using (hs.live _).2 hmem
  obtain ⟨r, h', hrun, hrep, hfreed, hr, hv⟩ := tsearch_replaces cmp key alloc.malloc fuel hholds hfuel
  refine ⟨r, h', hrun, ⟨insertNode cmp.cell (alloc.malloc h, key) t, ?_,
    ordered_insertNode _ hm.ordered, fun y => ?_⟩, hr, hv, hfreed⟩
  · cases hlook : lookup cmp.cell (cmp.cell (alloc.malloc h, key)) t with
    | none =>
      have hperm : (addrs (insertNode cmp.cell (alloc.malloc h, key) t)).Perm
          (alloc.malloc h :: addrs t) :=
        (perm_inorder_insertNode cmp.cell hlook).map Prod.fst
      refine hrep.shape hs (hperm.nodup_iff.2 (nodup_cons.2 ⟨hfresh, hs.holds.nodup⟩))
        fun b hb => ?_
      rcases mem_cons.1 (hperm.mem_iff.1 hb) with rfl | hb
      · exact .inr (mem_singleton_self _)
      · exact .inl hb
    | some c =>
      have hsame : insertNode cmp.cell (alloc.malloc h, key) t = t :=
        insertNode_of_isSome cmp.cell (by rw [hlook]; rfl)
      rw [hsame] at hrep ⊢
      exact hrep.shape hs hs.holds.nodup fun b hb => .inl hb
  · rw [mem_map_insertNode cmp.cell hm.ordered, ← hm.keys, Op.apply, Finset.mem_insert]
    rfl

theorem tfind_step (malloc : Heap K → ℕ) (hm : Models cmp h s t) (hfuel : t.height < fuel) :
    ∃ r h', (Op.tfind key).exec cmp.compar malloc fuel h = some (r, h') ∧
      IsSearchTree cmp h' ((Op.tfind key).apply cmp s) ∧
      (Op.tfind key).Outcome cmp s h r h' := by
  have hrun := tfind_eq cmp key fuel hm.shape.holds hfuel
  refine ⟨((lookup cmp.cell (cmp.value key) t).map Prod.fst).getD 0, h, ?_, ⟨t, hm⟩, rfl, ?_⟩
  · rw [Op.exec, hrun]
    rfl
  · rw [← hm.isSome_lookup_iff]
    cases hlook : lookup cmp.cell (cmp.value key) t with
    | none => simp
    | some c =>
      obtain ⟨hmem, hkey⟩ := lookup_some _ hlook
      obtain ⟨hne, v, hv, hvkey⟩ := hm.shape.holds.owns.exists_node hmem
      refine ⟨by simpa using hne, fun _ => ⟨v, hv, ?_⟩⟩
      rw [hvkey]
      exact hkey

theorem tdelete_step (malloc : Heap K → ℕ) (hm : Models cmp h s t) (hfuel : t.height < fuel) :
    ∃ r h', (Op.tdelete key).exec cmp.compar malloc fuel h = some (r, h') ∧
      IsSearchTree cmp h' ((Op.tdelete key).apply cmp s) ∧
      (Op.tdelete key).Outcome cmp s h r h' := by
  have hs := hm.shape
  obtain ⟨r, h', hrun, hrep, hret, hsame, hfreed⟩ :=
    descend_unlink cmp key fuel fuel 0 hs.holds hfuel hfuel
  have hexec : (Op.tdelete key).exec cmp.compar malloc fuel h = some (r, h') := by
    rw [Op.exec, tdelete]
    split_ifs with hroot
    · cases t with
      | nil => rw [hret.2 rfl, hsame rfl]
      | node c l r => exact absurd ((some.inj hs.holds.load).symm.trans hroot) hs.holds.owns.1
    · exact hrun
  refine ⟨r, h', hexec, ⟨eraseKey graft cmp.cell (cmp.value key) t, ?_,
    ordered_eraseKey graft cmp.cell (fun _ _ => rfl) hm.ordered, fun y => ?_⟩, ?_, ?_, fun hmem => ?_⟩
  · cases herased : erased cmp.cell (cmp.value key) t with
    | none =>
      have hnone : lookup cmp.cell (cmp.value key) t = none := by
        rw [← not_isSome_iff_eq_none, ← erased_isSome, herased]
        simp
      rw [hsame hnone, eraseKey_of_none graft cmp.cell hnone]
      exact hs
    | some x =>
      have hperm := perm_inorder_eraseKey graft cmp.cell Prod.fst (fun _ _ => rfl) herased
      refine hrep.shape hs (nodup_cons.1 (hperm.nodup_iff.1 hs.holds.nodup)).2 fun b hb => ?_
      exact .inl (hperm.mem_iff.2 (.tail _ hb))
  · rw [mem_map_eraseKey graft cmp.cell (fun _ _ => rfl) hm.ordered, ← hm.keys, Op.apply,
      Finset.mem_erase, and_comm]
  · rw [hret, hm.lookup_eq_none_iff]
  · rw [← hm.lookup_eq_none_iff]
    exact hsame
  · rw [← hm.isSome_lookup_iff, ← erased_isSome] at hmem
    obtain ⟨x, herased⟩ := isSome_iff_exists.1 hmem
    have hperm := perm_inorder_eraseKey graft cmp.cell Prod.fst (fun _ _ => rfl) herased
    have hx : x.1 ∈ addrs t := hperm.mem_iff.2 mem_cons_self
    have hx' := (nodup_cons.1 (hperm.nodup_iff.1 hs.holds.nodup)).1
    refine ⟨x.1, by rw [hfreed, herased]; rfl, (hs.live _).2 hx, ?_⟩
    exact not_isSome_iff_eq_none.1 (mt (hrep.live x.1 (.inl hx)).1 hx')

/-- **One call refines its operation on the set of keys.** -/
theorem step (alloc : Allocator K) (op : Op K) (hm : Models cmp h s t) (hfuel : s.card < fuel) :
    ∃ r h', op.exec cmp.compar alloc.malloc fuel h = some (r, h') ∧
      IsSearchTree cmp h' (op.apply cmp s) ∧ op.Outcome cmp s h r h' := by
  have hheight : t.height < fuel := hm.height_le_card.trans_lt hfuel
  cases op with
  | tsearch key => exact hm.tsearch_step key alloc hheight
  | tfind key => exact hm.tfind_step key alloc.malloc hheight
  | tdelete key => exact hm.tdelete_step key alloc.malloc hheight

end Step

end Models

/-! ## Sequences of calls -/

theorem Op.card_apply_le (cmp : Comparator K ι) (op : Op K) (s : Finset ι) :
    (op.apply cmp s).card ≤ s.card + 1 := by
  cases op with
  | tsearch key => exact Finset.card_insert_le _ _
  | tfind key => exact Nat.le_succ _
  | tdelete key => exact (Finset.card_erase_le).trans (Nat.le_succ _)

/-- **A sequence of calls** from a memory that is a search tree. By induction on the calls; each
adds at most one key, so the fuel lasts. -/
theorem IsSearchTree.run (alloc : Allocator K) {fuel : ℕ} (ops : List (Op K))
    (hm : IsSearchTree cmp h s) (hfuel : s.card + ops.length ≤ fuel) :
    ∃ h', run cmp.compar alloc.malloc fuel ops h = some h' ∧
      IsSearchTree cmp h' (ops.foldl (fun s op => op.apply cmp s) s) := by
  induction ops generalizing h s with
  | nil => exact ⟨h, rfl, hm⟩
  | cons op ops ih =>
    obtain ⟨t, ht⟩ := hm
    rw [length_cons] at hfuel
    obtain ⟨r, h₁, hexec, hm₁, -⟩ := ht.step alloc op (show s.card < fuel by omega)
    have hcard := op.card_apply_le cmp s
    obtain ⟨h', hrun, hm'⟩ := ih hm₁ (by omega)
    refine ⟨h', ?_, hm'⟩
    rw [Search.run, foldlM_cons, hexec]
    exact hrun

theorem card_keySet_le (cmp : Comparator K ι) (ops : List (Op K)) :
    (keySet cmp ops).card ≤ ops.length := by
  induction ops using List.reverseRecOn with
  | nil => rfl
  | append_singleton ops op ih =>
    rw [keySet, foldl_append, length_append]
    exact (op.card_apply_le cmp _).trans (Nat.succ_le_succ ih)

/-- **The tree functions are operations on a set of keys.** After any sequence of calls from an empty
root the memory is a search tree of the keys that the calls leave, and any next call answers and acts
as it should. -/
theorem tree_refines (cmp : Comparator K ι) (alloc : Allocator K) (ops : List (Op K)) (op : Op K)
    {fuel : ℕ} (hfuel : ops.length < fuel) :
    ∃ h r h', run cmp.compar alloc.malloc fuel ops .empty = some h ∧
      IsSearchTree cmp h (keySet cmp ops) ∧
      op.exec cmp.compar alloc.malloc fuel h = some (r, h') ∧
      IsSearchTree cmp h' (op.apply cmp (keySet cmp ops)) ∧
      op.Outcome cmp (keySet cmp ops) h r h' := by
  obtain ⟨h, hrun, hm⟩ := IsSearchTree.run alloc ops ⟨.nil, .empty cmp⟩ (by simpa using hfuel.le)
  obtain ⟨t, ht⟩ := hm
  obtain ⟨r, h', hexec, hm', hout⟩ :=
    ht.step alloc op ((card_keySet_le cmp ops).trans_lt hfuel)
  exact ⟨h, r, h', hrun, ⟨t, ht⟩, hexec, hm', hout⟩

/-- The difference of two numbers compares them. -/
def difference : Comparator ℤ ℤ where
  compar a b := a - b
  value := id
  neg_iff a b := by
    change a - b < 0 ↔ a < b
    omega
  pos_iff a b := by
    change 0 < a - b ↔ b < a
    omega

/-- An allocator that takes the lowest address that is free. -/
noncomputable def lowestFree (K : Type) : Allocator K where
  malloc h := sInf {b | b ≠ 0 ∧ h.node b = none}
  grants h hfinite := by
    have hne : {b | b ≠ 0 ∧ h.node b = none}.Nonempty := by
      obtain ⟨b, hb⟩ := (hfinite.insert 0).infinite_compl.nonempty
      simp only [Set.mem_compl_iff, Set.mem_insert_iff, Set.mem_ofPred_eq, not_or,
        Option.not_isSome_iff_eq_none] at hb
      exact ⟨b, hb⟩
    exact Nat.sInf_mem hne

/-- Of the keys 2 and 1 the first is taken out. -/
theorem tree_refines_two_keys :
    ∃ h r h', run difference.compar (lowestFree ℤ).malloc 3 [.tsearch 2, .tsearch 1] .empty = some h ∧
      (Op.tdelete 2).exec difference.compar (lowestFree ℤ).malloc 3 h = some (r, h') ∧ r ≠ 0 ∧
      IsSearchTree difference h' {1} := by
  obtain ⟨h, r, h', hrun, -, hexec, hm, hret, -⟩ := tree_refines difference (lowestFree ℤ)
    [.tsearch 2, .tsearch 1] (.tdelete 2) (show 2 < 3 by decide)
  exact ⟨h, r, h', hrun, hexec, mt hret.1 (by decide), hm⟩

end Vlibc.Search
