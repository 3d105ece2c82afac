import Mathlib.Data.List.Sort
import Mathlib.Data.Tree.Basic

/-!
# Search trees

Binary trees whose values have keys in a linear order, with the left keys below the root's and the
right keys above it. In a tree that is not balanced an insertion adds a leaf, and an erasure takes
out a node with at most one child: where the key to be erased has two children, its place takes the
next value and that value's node goes (`eraseKey`). What an operation does is said by the in-order
list of the values.
-/

namespace Vlibc

open BinaryTree List

variable {α β ι : Type*}

/-- The values of a tree from left to right. -/
def inorder : BinaryTree α → List α
  | .nil => []
  | .node a l r => inorder l ++ a :: inorder r

@[simp] theorem inorder_nil : inorder (.nil : BinaryTree α) = [] := rfl

@[simp] theorem inorder_node (a : α) (l r : BinaryTree α) :
    inorder (.node a l r) = inorder l ++ a :: inorder r := rfl

theorem length_inorder (t : BinaryTree α) : (inorder t).length = t.numNodes := by
  induction t with
  | nil => rfl
  | node a l r ihl ihr =>
    simp only [inorder_node, length_append, length_cons, ihl, ihr, numNodes]
    omega

section Order

variable [LinearOrder ι] (key : α → ι) {a x : α} {l r t : BinaryTree α} {y : ι}

/-- The keys increase strictly from left to right. -/
def Ordered (t : BinaryTree α) : Prop := ((inorder t).map key).Pairwise (· < ·)

@[simp] theorem ordered_nil : Ordered key (.nil : BinaryTree α) := Pairwise.nil

theorem ordered_node : Ordered key (.node a l r) ↔
    Ordered key l ∧ Ordered key r ∧ (∀ x ∈ inorder l, key x < key a) ∧
      ∀ x ∈ inorder r, key a < key x := by
  simp only [Ordered, inorder_node, map_append, map_cons, pairwise_append, pairwise_cons, mem_cons,
    mem_map, forall_exists_index, and_imp, forall_apply_eq_imp_iff₂]
  constructor
  · rintro ⟨hl, ⟨har, hr⟩, hlr⟩
    exact ⟨hl, hr, fun x hx => hlr x hx _ (.inl rfl), har⟩
  · rintro ⟨hl, hr, hla, har⟩
    refine ⟨hl, ⟨har, hr⟩, fun x hx z hz => ?_⟩
    rcases hz with rfl | ⟨z, hz, rfl⟩
    · exact hla x hx
    · exact (hla x hx).trans (har z hz)

/-- The value whose key is `y`, found by going left or right at each node. -/
def lookup (y : ι) : BinaryTree α → Option α
  | .nil => none
  | .node a l r => if y < key a then lookup y l else if key a < y then lookup y r else some a

theorem lookup_some (h : lookup key y t = some x) : x ∈ inorder t ∧ key x = y := by
  induction t with
  | nil => cases h
  | node a l r ihl ihr =>
    rw [lookup] at h
    split_ifs at h with hlt hgt
    · exact ⟨mem_append_left _ (ihl h).1, (ihl h).2⟩
    · exact ⟨mem_append_right _ (.tail _ (ihr h).1), (ihr h).2⟩
    · cases h
      exact ⟨by simp, le_antisymm (not_lt.1 hlt) (not_lt.1 hgt)⟩

theorem lookup_isSome_iff (ht : Ordered key t) :
    (lookup key y t).isSome ↔ ∃ x ∈ inorder t, key x = y := by
  constructor
  · intro h
    obtain ⟨x, hx⟩ := Option.isSome_iff_exists.1 h
    exact ⟨x, lookup_some key hx⟩
  · rintro ⟨x, hx, rfl⟩
    induction t with
    | nil => cases hx
    | node a l r ihl ihr =>
      obtain ⟨hl, hr, hla, har⟩ := (ordered_node key).1 ht
      rw [lookup]
      rcases mem_append.1 hx with hx | hx
      · rw [if_pos (hla x hx)]
        exact ihl hl hx
      · rcases mem_cons.1 hx with rfl | hx
        · simp
        · rw [if_neg (har x hx).not_gt, if_pos (har x hx)]
          exact ihr hr hx

/-! ## Insertion -/

/-- `x` is added as a leaf, unless its key is there already. -/
def insertNode (x : α) : BinaryTree α → BinaryTree α
  | .nil => .node x .nil .nil
  | .node a l r =>
    if key x < key a then .node a (insertNode x l) r
    else if key a < key x then .node a l (insertNode x r)
    else .node a l r

theorem insertNode_of_isSome (h : (lookup key (key x) t).isSome) : insertNode key x t = t := by
  induction t with
  | nil => cases h
  | node a l r ihl ihr =>
    rw [lookup] at h
    rw [insertNode]
    split_ifs at h ⊢ with hlt hgt
    · rw [ihl h]
    · rw [ihr h]
    · rfl

theorem perm_inorder_insertNode (h : lookup key (key x) t = none) :
    (inorder (insertNode key x t)).Perm (x :: inorder t) := by
  induction t with
  | nil => rfl
  | node a l r ihl ihr =>
    rw [lookup] at h
    rw [insertNode]
    split_ifs at h ⊢ with hlt hgt
    · exact (ihl h).append_right (a :: inorder r)
    · exact (((ihr h).cons a).append_left (inorder l)).trans
        ((Perm.append_left _ (.swap x a _)).trans perm_middle)

theorem mem_inorder_insertNode {z : α} (hz : z ∈ inorder (insertNode key x t)) :
    z = x ∨ z ∈ inorder t := by
  cases h : lookup key (key x) t with
  | none => exact mem_cons.1 ((perm_inorder_insertNode key h).mem_iff.1 hz)
  | some a =>
    rw [insertNode_of_isSome key (by rw [h]; rfl)] at hz
    exact .inr hz

theorem ordered_insertNode (ht : Ordered key t) : Ordered key (insertNode key x t) := by
  induction t with
  | nil => exact pairwise_singleton _ _
  | node a l r ihl ihr =>
    obtain ⟨hl, hr, hla, har⟩ := (ordered_node key).1 ht
    rw [insertNode]
    split_ifs with hlt hgt
    · refine (ordered_node key).2 ⟨ihl hl, hr, fun z hz => ?_, har⟩
      rcases mem_inorder_insertNode key hz with rfl | hz
      · exact hlt
      · exact hla z hz
    · refine (ordered_node key).2 ⟨hl, ihr hr, hla, fun z hz => ?_⟩
      rcases mem_inorder_insertNode key hz with rfl | hz
      · exact hgt
      · exact har z hz
    · exact ht

theorem mem_map_insertNode (ht : Ordered key t) :
    y ∈ (inorder (insertNode key x t)).map key ↔ y = key x ∨ y ∈ (inorder t).map key := by
  cases h : lookup key (key x) t with
  | none => simp [(perm_inorder_insertNode key h).map key |>.mem_iff]
  | some a =>
    have hsome : (lookup key (key x) t).isSome := by rw [h]; rfl
    rw [insertNode_of_isSome key hsome]
    refine ⟨.inr, ?_⟩
    rintro (rfl | hy)
    · exact mem_map.2 ((lookup_isSome_iff key ht).1 hsome)
    · exact hy

end Order

/-! ## Erasure -/

/-- The first value of the tree with root `a` and left part `l`. -/
def leftmost (a : α) : BinaryTree α → α
  | .nil => a
  | .node b l _ => leftmost b l

/-- The tree with root `a` and parts `l` and `r` without its first value. -/
def dropLeftmost (a : α) : (l r : BinaryTree α) → BinaryTree α
  | .nil, r => r
  | .node b l' r', r => .node a (dropLeftmost b l' r') r

theorem inorder_dropLeftmost (a : α) (l r : BinaryTree α) :
    leftmost a l :: inorder (dropLeftmost a l r) = inorder (.node a l r) := by
  induction l generalizing a r with
  | nil => rfl
  | node b l' r' ihl _ =>
    calc leftmost b l' :: (inorder (dropLeftmost b l' r') ++ a :: inorder r)
        = (leftmost b l' :: inorder (dropLeftmost b l' r')) ++ a :: inorder r := rfl
      _ = inorder (.node a (.node b l' r') r) := by rw [ihl]; rfl

section Erase

variable (graft : α → α → α)

/-- A tree without its root `a`: the one part that is not empty, or, if there are two, the place of
`a` with the first value of the right part. -/
def eraseRoot (a : α) : (l r : BinaryTree α) → BinaryTree α
  | .nil, r => r
  | .node b l' r', .nil => .node b l' r'
  | .node b l' r', .node c l'' r'' =>
    .node (graft a (leftmost c l'')) (.node b l' r') (dropLeftmost c l'' r'')

/-- The value whose place goes. -/
def erasedRoot (a : α) : (l r : BinaryTree α) → α
  | .nil, _ => a
  | .node _ _ _, .nil => a
  | .node _ _ _, .node c l'' _ => leftmost c l''

/-- **The places after the erasure of a root**: all but one. -/
theorem perm_inorder_eraseRoot (place : α → β) (hplace : ∀ a b, place (graft a b) = place a) (a : α)
    (l r : BinaryTree α) :
    ((inorder (.node a l r)).map place).Perm
      (place (erasedRoot a l r) :: (inorder (eraseRoot graft a l r)).map place) := by
  cases l with
  | nil => rfl
  | node b l' r' =>
    cases r with
    | nil =>
      rw [inorder_node a, map_append]
      exact perm_append_singleton _ _
    | node c l'' r'' =>
      rw [inorder_node, ← inorder_dropLeftmost c l'' r'']
      simp only [eraseRoot, erasedRoot, inorder_node (graft _ _), map_append, map_cons, hplace]
      exact (Perm.append_left _ (.swap _ _ _)).trans perm_middle

theorem map_inorder_eraseRoot {key : α → ι} (hkey : ∀ a b, key (graft a b) = key b) (a : α)
    (l r : BinaryTree α) :
    (inorder (eraseRoot graft a l r)).map key = (inorder l).map key ++ (inorder r).map key := by
  cases l with
  | nil => rfl
  | node b l' r' =>
    cases r with
    | nil => simp [eraseRoot]
    | node c l'' r'' =>
      rw [eraseRoot, inorder_node (graft _ _), ← inorder_dropLeftmost c l'' r'', map_append,
        map_cons, map_cons, hkey]

variable [LinearOrder ι] (key : α → ι) {t : BinaryTree α} {y : ι} {x : α}

/-- The tree without a key. -/
def eraseKey (y : ι) : BinaryTree α → BinaryTree α
  | .nil => .nil
  | .node a l r =>
    if y < key a then .node a (eraseKey y l) r
    else if key a < y then .node a l (eraseKey y r)
    else eraseRoot graft a l r

theorem eraseKey_of_none (h : lookup key y t = none) : eraseKey graft key y t = t := by
  induction t with
  | nil => rfl
  | node a l r ihl ihr =>
    rw [lookup] at h
    rw [eraseKey]
    split_ifs at h ⊢ with hlt hgt
    · rw [ihl h]
    · rw [ihr h]

/-- The value whose place goes with the key `y`. -/
def erased (y : ι) : BinaryTree α → Option α
  | .nil => none
  | .node a l r =>
    if y < key a then erased y l
    else if key a < y then erased y r
    else some (erasedRoot a l r)

theorem erased_isSome : (erased key y t).isSome = (lookup key y t).isSome := by
  induction t with
  | nil => rfl
  | node a l r ihl ihr =>
    rw [erased, lookup]
    split_ifs
    · exact ihl
    · exact ihr
    · rfl

theorem perm_inorder_eraseKey (place : α → β) (hplace : ∀ a b, place (graft a b) = place a)
    (h : erased key y t = some x) :
    ((inorder t).map place).Perm (place x :: (inorder (eraseKey graft key y t)).map place) := by
  induction t with
  | nil => cases h
  | node a l r ihl ihr =>
    rw [erased] at h
    rw [eraseKey]
    split_ifs at h ⊢ with hlt hgt
    · simpa using (ihl h).append_right (place a :: (inorder r).map place)
    · have hr := (((ihr h).cons (place a)).append_left ((inorder l).map place)).trans
        ((Perm.append_left _ (.swap _ _ _)).trans perm_middle)
      simpa using hr
    · cases h
      exact perm_inorder_eraseRoot graft place hplace a l r

theorem filter_ne_of_forall_ne {l : List ι} (h : ∀ z ∈ l, z ≠ y) : l.filter (· ≠ y) = l :=
  filter_eq_self.2 fun z hz => decide_eq_true (h z hz)

theorem map_inorder_eraseKey (hkey : ∀ a b, key (graft a b) = key b) (ht : Ordered key t) :
    (inorder (eraseKey graft key y t)).map key = ((inorder t).map key).filter (· ≠ y) := by
  induction t with
  | nil => rfl
  | node a l r ihl ihr =>
    obtain ⟨hl, hr, hla, har⟩ := (ordered_node key).1 ht
    have hleft : key a ≤ y → ((inorder l).map key).filter (· ≠ y) = (inorder l).map key := by
      intro hle
      refine filter_ne_of_forall_ne ?_
      simp only [mem_map, forall_exists_index, and_imp, forall_apply_eq_imp_iff₂]
      exact fun x hx => ((hla x hx).trans_le hle).ne
    have hright : y ≤ key a → ((inorder r).map key).filter (· ≠ y) = (inorder r).map key := by
      intro hle
      refine filter_ne_of_forall_ne ?_
      simp only [mem_map, forall_exists_index, and_imp, forall_apply_eq_imp_iff₂]
      exact fun x hx => (hle.trans_lt (har x hx)).ne'
    rw [eraseKey, inorder_node, map_append, map_cons, filter_append]
    split_ifs with hlt hgt
    · rw [filter_cons_of_pos (by simpa using hlt.ne'), hright hlt.le, ← ihl hl]
      simp
    · rw [filter_cons_of_pos (by simpa using hgt.ne), hleft hgt.le, ← ihr hr]
      simp
    · have heq : key a = y := le_antisymm (not_lt.1 hlt) (not_lt.1 hgt)
      rw [filter_cons_of_neg (by simpa using heq), hleft heq.le, hright heq.ge,
        map_inorder_eraseRoot graft hkey]

theorem ordered_eraseKey (hkey : ∀ a b, key (graft a b) = key b) (ht : Ordered key t) :
    Ordered key (eraseKey graft key y t) := by
  rw [Ordered, map_inorder_eraseKey graft key hkey ht]
  exact ht.filter _

theorem mem_map_eraseKey (hkey : ∀ a b, key (graft a b) = key b) (ht : Ordered key t) {z : ι} :
    z ∈ (inorder (eraseKey graft key y t)).map key ↔ z ∈ (inorder t).map key ∧ z ≠ y := by
  rw [map_inorder_eraseKey graft key hkey ht, mem_filter, decide_eq_true_iff]

end Erase

end Vlibc
