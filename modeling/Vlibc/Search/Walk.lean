import Vlibc.Search.Runs

/-!
# The order of `twalk`

The calls that `twalk` makes are a function of the tree (`walk_eq`). The nodes of the calls with
`postorder` or `leaf` are the tree from left to right, so their keys are sorted; the calls of a node
with children stand around those of its two parts (`VisitedThrice`).
-/

namespace Vlibc.Search

open BinaryTree List Option

variable {K : Type} {ι : Type*} [LinearOrder ι]

/-- `d` links lead from the node `a` to the node `b`. -/
inductive Reaches (h : Heap K) : (a d b : ℕ) → Prop
  | refl {a : ℕ} {v : Node K} (hv : h.node a = some v) : Reaches h a 0 a
  | left {a d b : ℕ} {v : Node K} (hv : h.node a = some v) (hb : Reaches h v.left d b) :
    Reaches h a (d + 1) b
  | right {a d b : ℕ} {v : Node K} (hv : h.node a = some v) (hb : Reaches h v.right d b) :
    Reaches h a (d + 1) b

/-- The node `b` is in the part below the link `a`. -/
def Below (h : Heap K) (a b : ℕ) : Prop := ∃ d, Reaches h a d b

/-- The calls with node `n`, which lies at depth `level`, are three, one before all calls with nodes
below its left link, one behind them and before all with nodes below its right link, and one behind
these. -/
def VisitedThrice (h : Heap K) (calls : List Call) (n : ℕ) (v : Node K) (level : ℕ) : Prop :=
  ∃ before left right after,
    calls = before ++ ⟨n, .preorder, level⟩ :: left ++ ⟨n, .postorder, level⟩ :: right ++
      ⟨n, .endorder, level⟩ :: after ∧
    (∀ x ∈ before ++ left ++ right ++ after, x.node ≠ n) ∧
    (∀ x ∈ before ++ right ++ after, ¬ Below h v.left x.node) ∧
    ∀ x ∈ before ++ left ++ after, ¬ Below h v.right x.node

variable {h : Heap K} {t : BinaryTree (ℕ × K)} {a b d level : ℕ}

theorem not_reaches_null (hnull : h.node 0 = none) : ¬ Reaches h 0 d b := by
  intro hb
  cases hb with
  | refl hv | left hv | right hv => rw [hnull] at hv; cases hv

theorem reaches_node_iff {c : ℕ × K} {l r : BinaryTree (ℕ × K)} (ht : Owns h.node (.node c l r)) :
    Reaches h c.1 d b ↔ (d = 0 ∧ b = c.1) ∨
      ∃ e, d = e + 1 ∧ (Reaches h (ptr l) e b ∨ Reaches h (ptr r) e b) := by
  obtain ⟨-, hnode, -⟩ := ht
  constructor
  · intro hb
    cases hb with
    | refl hv => exact .inl ⟨rfl, rfl⟩
    | left hv hb =>
      obtain rfl := some.inj (hnode.symm.trans hv)
      exact .inr ⟨_, rfl, .inl hb⟩
    | right hv hb =>
      obtain rfl := some.inj (hnode.symm.trans hv)
      exact .inr ⟨_, rfl, .inr hb⟩
  · rintro (⟨rfl, rfl⟩ | ⟨e, rfl, hb | hb⟩)
    · exact .refl hnode
    · exact .left hnode hb
    · exact .right hnode hb

theorem below_ptr_iff (hnull : h.node 0 = none) (ht : Owns h.node t) :
    Below h (ptr t) b ↔ b ∈ addrs t := by
  induction t with
  | nil => exact iff_of_false (fun ⟨_, hb⟩ => not_reaches_null hnull hb) not_mem_nil
  | node c l r ihl ihr =>
    obtain ⟨-, -, hl, hr⟩ := id ht
    simp only [Below, ptr_node, reaches_node_iff ht, addrs_node, mem_append, mem_cons,
      ← ihl hl, ← ihr hr]
    constructor
    · rintro ⟨_, ⟨-, rfl⟩ | ⟨e, -, hb | hb⟩⟩
      · exact .inr (.inl rfl)
      · exact .inl ⟨e, hb⟩
      · exact .inr (.inr ⟨e, hb⟩)
    · rintro (⟨e, hb⟩ | rfl | ⟨e, hb⟩)
      · exact ⟨e + 1, .inr ⟨e, rfl, .inl hb⟩⟩
      · exact ⟨0, .inl ⟨rfl, rfl⟩⟩
      · exact ⟨e + 1, .inr ⟨e, rfl, .inr hb⟩⟩

theorem Below.trans {n : ℕ} (hb : Below h a b) (hn : Below h b n) : Below h a n := by
  obtain ⟨d, hb⟩ := hb
  induction hb with
  | refl => exact hn
  | left hv _ ih =>
    obtain ⟨e, he⟩ := ih hn
    exact ⟨e + 1, .left hv he⟩
  | right hv _ ih =>
    obtain ⟨e, he⟩ := ih hn
    exact ⟨e + 1, .right hv he⟩

/-! ## The calls -/

/-- The calls for a tree whose root is at depth `level`. -/
def calls (level : ℕ) : BinaryTree (ℕ × K) → List Call
  | .nil => []
  | .node c l r =>
    if ptr l = 0 ∧ ptr r = 0 then [⟨c.1, .leaf, level⟩]
    else ⟨c.1, .preorder, level⟩ :: calls (level + 1) l ++
      ⟨c.1, .postorder, level⟩ :: calls (level + 1) r ++ [⟨c.1, .endorder, level⟩]

theorem calls_eq_nil (ht : Owns h.node t) (hnull : ptr t = 0) : calls level t = [] := by
  cases t with
  | nil => rfl
  | node c l r => exact absurd hnull ht.1

theorem walk_eq (fuel : ℕ) (ht : Owns h.node t) (hfuel : t.height < fuel) :
    walk fuel (ptr t) level h = some (calls level t) := by
  induction t generalizing fuel level with
  | nil =>
    obtain _ | fuel := fuel
    · omega
    rfl
  | node c l r ihl ihr =>
    obtain _ | fuel := fuel
    · omega
    obtain ⟨hne, hnode, hl, hr⟩ := ht
    simp only [height] at hfuel
    have hleft : walk fuel (ptr l) (level + 1) h = _ := ihl fuel hl (by omega)
    have hright : walk fuel (ptr r) (level + 1) h = _ := ihr fuel hr (by omega)
    -- a link that is `NULL` is not followed, and there are no calls for an empty tree
    by_cases hl0 : ptr l = 0 <;> by_cases hr0 : ptr r = 0
    · simp [walk, calls, hne, hnode, hl0, hr0]
    · simp [walk, calls, hne, hnode, hl0, hr0, hright, calls_eq_nil hl hl0]
    · simp [walk, calls, hne, hnode, hl0, hr0, hleft, calls_eq_nil hr hr0]
    · simp [walk, calls, hne, hnode, hl0, hr0, hleft, hright]

/-- A call that comes between the two parts of a node, or is the only one. -/
def Call.isMiddle (x : Call) : Bool := x.visit = .postorder ∨ x.visit = .leaf

/-- **The calls between the parts go through the tree from left to right.** -/
theorem map_filter_calls (level : ℕ) (ht : Owns h.node t) :
    ((calls level t).filter Call.isMiddle).map Call.node = addrs t := by
  induction t generalizing level with
  | nil => rfl
  | node c l r ihl ihr =>
    obtain ⟨-, -, hl, hr⟩ := ht
    rw [calls, addrs_node]
    split_ifs with hleaf
    · cases l with
      | nil =>
        cases r with
        | nil => rfl
        | node d _ _ => exact absurd hleaf.2 hr.1
      | node d _ _ => exact absurd hleaf.1 hl.1
    · have hpre : (⟨c.1, .preorder, level⟩ : Call).isMiddle = false := rfl
      have hpost : (⟨c.1, .postorder, level⟩ : Call).isMiddle = true := rfl
      have hend : (⟨c.1, .endorder, level⟩ : Call).isMiddle = false := rfl
      simp [hpre, hpost, hend, ihl _ hl, ihr _ hr]

/-- **The level of a call is the depth of its node.** -/
theorem reaches_of_mem_calls (ht : Owns h.node t) {x : Call} (hx : x ∈ calls level t) :
    ∃ d, x.level = level + d ∧ Reaches h (ptr t) d x.node := by
  induction t generalizing level with
  | nil => cases hx
  | node c l r ihl ihr =>
    obtain ⟨-, hnode, hl, hr⟩ := id ht
    have hroot : ∀ visit, ∃ d, (⟨c.1, visit, level⟩ : Call).level = level + d ∧
        Reaches h (ptr (.node c l r)) d c.1 := fun _ => ⟨0, rfl, .refl hnode⟩
    rw [calls] at hx
    split_ifs at hx
    · obtain rfl := mem_singleton.1 hx
      exact hroot _
    · simp only [cons_append, mem_cons, mem_append, not_mem_nil, or_false] at hx
      rcases hx with rfl | (hx | rfl | hx) | rfl
      · exact hroot _
      · obtain ⟨d, hlevel, hd⟩ := ihl hl hx
        exact ⟨d + 1, by omega, .left hnode hd⟩
      · exact hroot _
      · obtain ⟨d, hlevel, hd⟩ := ihr hr hx
        exact ⟨d + 1, by omega, .right hnode hd⟩
      · exact hroot _

theorem mem_addrs_of_mem_calls (hnull : h.node 0 = none) (ht : Owns h.node t) {x : Call}
    (hx : x ∈ calls level t) : x.node ∈ addrs t := by
  obtain ⟨d, -, hd⟩ := reaches_of_mem_calls ht hx
  exact (below_ptr_iff hnull ht).1 ⟨d, hd⟩

/-- What the calls say of the node `b` at depth `level`: one call if it has no children, and
otherwise three. -/
def Visited (h : Heap K) (calls : List Call) (b : ℕ) (v : Node K) (level : ℕ) : Prop :=
  if v.left = 0 ∧ v.right = 0 then calls.filter (·.node = b) = [⟨b, .leaf, level⟩]
  else VisitedThrice h calls b v level

theorem Visited.extend {v : Node K} {mid : List Call} (hmid : Visited h mid b v level)
    (hv : h.node b = some v) (before after : List Call) (hout : ∀ x ∈ before ++ after, ¬ Below h b x.node) :
    Visited h (before ++ mid ++ after) b v level := by
  have hne : ∀ x ∈ before ++ after, x.node ≠ b := fun x hx heq =>
    hout x hx (by rw [heq]; exact ⟨0, .refl hv⟩)
  have hleft : ∀ x ∈ before ++ after, ¬ Below h v.left x.node := fun x hx ⟨d, hd⟩ =>
    hout x hx ⟨d + 1, .left hv hd⟩
  have hright : ∀ x ∈ before ++ after, ¬ Below h v.right x.node := fun x hx ⟨d, hd⟩ =>
    hout x hx ⟨d + 1, .right hv hd⟩
  rw [forall_mem_append] at hne hleft hright
  unfold Visited at hmid ⊢
  split_ifs at hmid ⊢ with hleaf
  · have hnil : ∀ {xs : List Call}, (∀ x ∈ xs, x.node ≠ b) → xs.filter (·.node = b) = [] :=
      fun hxs => filter_eq_nil_iff.2 fun x hx => by simpa using hxs x hx
    rw [filter_append, filter_append, hnil hne.1, hmid, hnil hne.2]
    rfl
  · obtain ⟨before', left, right, after', rfl, hne', hleft', hright'⟩ := hmid
    simp only [forall_mem_append] at hne' hleft' hright'
    refine ⟨before ++ before', left, right, after' ++ after, by simp, ?_, ?_, ?_⟩
    all_goals
      simp only [forall_mem_append]
      tauto

/-- **The calls of one node.** By induction on the tree: the calls of a part are a stretch of the
calls of the whole, and what stands around it is not below the node. -/
theorem visited_calls (level : ℕ) (hnull : h.node 0 = none) (hnodup : (addrs t).Nodup)
    (ht : Owns h.node t) {v : Node K} (hb : Reaches h (ptr t) d b) (hv : h.node b = some v) :
    Visited h (calls level t) b v (level + d) := by
  induction t generalizing level d with
  | nil => exact absurd hb (not_reaches_null hnull)
  | node c l r ihl ihr =>
    obtain ⟨-, hnode, hl, hr⟩ := id ht
    obtain ⟨hnl, hnr, hcl, hcr, hdisj⟩ := nodup_addrs_node hnodup
    have hmeml : ∀ x ∈ calls (level + 1) l, x.node ∈ addrs l := fun x =>
      mem_addrs_of_mem_calls hnull hl
    have hmemr : ∀ x ∈ calls (level + 1) r, x.node ∈ addrs r := fun x =>
      mem_addrs_of_mem_calls hnull hr
    obtain ⟨rfl, rfl⟩ | ⟨e, rfl, hb | hb⟩ := (reaches_node_iff ht).1 hb
    · obtain rfl := some.inj (hnode.symm.trans hv)
      unfold Visited
      rw [calls]
      split_ifs with hleaf
      · simp
      · refine ⟨[], calls (level + 1) l, calls (level + 1) r, [], by simp, ?_, ?_, ?_⟩
        · simp only [nil_append, append_nil, forall_mem_append]
          exact ⟨fun x hx heq => hcl (heq ▸ hmeml x hx), fun x hx heq => hcr (heq ▸ hmemr x hx)⟩
        · simp only [nil_append, append_nil, below_ptr_iff hnull hl]
          exact fun x hx hxl => hdisj _ hxl (hmemr x hx)
        · simp only [nil_append, append_nil, below_ptr_iff hnull hr]
          exact fun x hx hxr => hdisj _ (hmeml x hx) hxr
    · have hinner : ¬ (ptr l = 0 ∧ ptr r = 0) := fun hz => by
        rw [hz.1] at hb
        exact not_reaches_null hnull hb
      have hbelow : ∀ {n}, Below h b n → n ∈ addrs l := fun hn =>
        (below_ptr_iff hnull hl).1 (Below.trans ⟨e, hb⟩ hn)
      have hvis := (ihl (level + 1) hnl hl hb).extend hv [⟨c.1, .preorder, level⟩]
        (⟨c.1, .postorder, level⟩ :: calls (level + 1) r ++ [⟨c.1, .endorder, level⟩]) (by
          intro x hx hbx
          simp only [cons_append, nil_append, mem_cons, mem_append, not_mem_nil, or_false] at hx
          rcases hx with rfl | rfl | hx | rfl
          · exact hcl (hbelow hbx)
          · exact hcl (hbelow hbx)
          · exact hdisj _ (hbelow hbx) (hmemr x hx)
          · exact hcl (hbelow hbx))
      rw [calls, if_neg hinner, add_comm e 1, ← add_assoc]
      simpa using hvis
    · have hinner : ¬ (ptr l = 0 ∧ ptr r = 0) := fun hz => by
        rw [hz.2] at hb
        exact not_reaches_null hnull hb
      have hbelow : ∀ {n}, Below h b n → n ∈ addrs r := fun hn =>
        (below_ptr_iff hnull hr).1 (Below.trans ⟨e, hb⟩ hn)
      have hvis := (ihr (level + 1) hnr hr hb).extend hv
        (⟨c.1, .preorder, level⟩ :: calls (level + 1) l ++ [⟨c.1, .postorder, level⟩])
        [⟨c.1, .endorder, level⟩] (by
          intro x hx hbx
          simp only [cons_append, mem_cons, mem_append, not_mem_nil, or_false,
            append_assoc, nil_append] at hx
          rcases hx with rfl | hx | rfl | rfl
          · exact hcr (hbelow hbx)
          · exact hdisj _ (hmeml x hx) (hbelow hbx)
          · exact hcr (hbelow hbx)
          · exact hcr (hbelow hbx))
      rw [calls, if_neg hinner, add_comm e 1, ← add_assoc]
      simpa using hvis

/-! ## Every tree that calls leave -/

/-- The key in a node. -/
def keyAt (cmp : Comparator K ι) (h : Heap K) (n : ℕ) : Option ι :=
  (h.node n).map fun v => cmp.value v.key

theorem map_keyAt (cmp : Comparator K ι) (ht : Owns h.node t) :
    (addrs t).map (keyAt cmp h) = ((inorder t).map cmp.cell).map some := by
  rw [addrs, List.map_map, List.map_map]
  refine map_congr_left fun c hc => ?_
  obtain ⟨-, v, hv, hkey⟩ := ht.exists_node hc
  simp [keyAt, hv, hkey, cmp.cell_apply]

theorem Shape.node_zero (hs : Shape h t) : h.node 0 = none := by
  rw [← not_isSome_iff_eq_none, hs.live]
  intro hmem
  obtain ⟨c, hc, hzero⟩ := List.mem_map.1 hmem
  exact (hs.holds.owns.exists_node hc).1 hzero

/-- **`twalk` visits in sorted order.** In any tree that a sequence of calls leaves, the keys of the
calls with `postorder` or `leaf` are the keys of the tree in their order; the level of a call is the
depth of its node; and a node with children is visited before, between and behind its parts. -/
theorem twalk_sorted (cmp : Comparator K ι) (alloc : Allocator K) (ops : List (Op K)) {fuel : ℕ}
    (hfuel : ops.length < fuel) :
    ∃ h calls, run cmp.compar alloc.malloc fuel ops .empty = some h ∧
      IsSearchTree cmp h (keySet cmp ops) ∧ twalk fuel h = some calls ∧
      (calls.filter fun x => x.visit = .postorder ∨ x.visit = .leaf).map
        (fun x => keyAt cmp h x.node) = (keySet cmp ops).sort.map some ∧
      (∀ x ∈ calls, Reaches h h.root x.level x.node) ∧
      ∀ n v d, Reaches h h.root d n → h.node n = some v → Visited h calls n v d := by
  obtain ⟨h, hrun, hm⟩ := IsSearchTree.run alloc ops ⟨.nil, .empty cmp⟩ (by simpa using hfuel.le)
  obtain ⟨t, ht⟩ := hm
  have howns := ht.shape.holds.owns
  have hroot : h.root = ptr t := some.inj ht.shape.holds.load
  have hheight : t.height < fuel :=
    ht.height_le_card.trans_lt ((card_keySet_le cmp ops).trans_lt hfuel)
  refine ⟨h, calls 0 t, hrun, ⟨t, ht⟩, ?_, ?_, fun x hx => ?_, fun n v d hn hv => ?_⟩
  · rw [twalk, hroot, walk_eq fuel howns hheight]
  · have hmap := congrArg (List.map (keyAt cmp h)) (map_filter_calls 0 howns)
    rw [List.map_map, map_keyAt cmp howns, ht.map_inorder] at hmap
    exact hmap
  · obtain ⟨d, hlevel, hd⟩ := reaches_of_mem_calls howns hx
    rw [hroot, hlevel, zero_add]
    exact hd
  · rw [hroot] at hn
    have hvis := visited_calls 0 ht.shape.node_zero ht.shape.holds.nodup howns hn hv
    rwa [zero_add] at hvis

theorem twalk_sorted_two_keys :
    ∃ h calls, run difference.compar (lowestFree ℤ).malloc 3 [.tsearch 2, .tsearch 1] .empty = some h ∧
      twalk 3 h = some calls ∧
      (calls.filter fun x => x.visit = .postorder ∨ x.visit = .leaf).map
        (fun x => keyAt difference h x.node) = [some 1, some 2] := by
  obtain ⟨h, calls, hrun, -, hwalk, hkeys, -⟩ := twalk_sorted difference (lowestFree ℤ)
    [.tsearch 2, .tsearch 1] (show 2 < 3 by decide)
  have hset : keySet difference [.tsearch 2, .tsearch 1] = insert 1 {2} := by decide
  have hsort : (insert 1 {2} : Finset ℤ).sort = [1, 2] := by
    rw [Finset.sort_insert (r := (· ≤ ·)) (by decide) (by decide), Finset.sort_singleton]
  rw [hset, hsort] at hkeys
  exact ⟨h, calls, hrun, hwalk, hkeys⟩

end Vlibc.Search
