import Mathlib.Data.Int.Notation
import Mathlib.Data.Nat.Notation
import Mathlib.Logic.Function.Basic

/-!
# `tsearch`, `tfind`, `tdelete` and `twalk`

The functions of `search_tree.c` on memory. A node is in memory from the `malloc` that made it to
the `free` that ends it; reading or writing a node that is not there is undefined, which is `none`.
A `struct node **` is the place of a link: the variable behind `rootp`, or a field of a node. A
pointer to the key of a node is the address of the node. Nothing bounds how many links the functions
follow; `fuel` does here.
-/

namespace Vlibc.Search

/-- `struct node`. -/
structure Node (K : Type) where
  key : K
  left : ℕ
  right : ℕ

/-- A `struct node **`. -/
inductive Slot
  | root
  | left (n : ℕ)
  | right (n : ℕ)
  deriving DecidableEq

/-- The variable behind `rootp`, the nodes, and the nodes that were freed, the last one first. -/
structure Heap (K : Type) where
  root : ℕ
  node : ℕ → Option (Node K)
  freed : List ℕ

variable {K : Type}

namespace Heap

/-- No nodes. -/
def empty : Heap K := ⟨0, fun _ => none, []⟩

/-- A node is written, or freed. -/
def setNode (h : Heap K) (n : ℕ) (v : Option (Node K)) : Heap K :=
  { h with node := Function.update h.node n v }

/-- `*p`. -/
def load (h : Heap K) : Slot → Option ℕ
  | .root => some h.root
  | .left n => (h.node n).map (·.left)
  | .right n => (h.node n).map (·.right)

/-- The memory in which `x` stands at `p`. -/
def put (h : Heap K) : Slot → ℕ → Heap K
  | .root, x => { h with root := x }
  | .left n, x => h.setNode n ((h.node n).map fun v => { v with left := x })
  | .right n, x => h.setNode n ((h.node n).map fun v => { v with right := x })

/-- `*p = x`. -/
def store (h : Heap K) (p : Slot) (x : ℕ) : Option (Heap K) := (h.load p).map fun _ => h.put p x

/-- The memory without the node `n`. -/
def remove (h : Heap K) (n : ℕ) : Heap K := { h.setNode n none with freed := n :: h.freed }

/-- `free(n)`. -/
def free (h : Heap K) (n : ℕ) : Option (Heap K) := (h.node n).map fun _ => h.remove n

end Heap

section

variable (compar : K → K → ℤ) (key : K)

/-- `tsearch`. What `malloc` answers depends on the memory. -/
def tsearch (malloc : Heap K → ℕ) : (fuel : ℕ) → (p : Slot) → Heap K → Option (ℕ × Heap K)
  | 0, _, _ => none
  | fuel + 1, p, h => do
    let n ← h.load p
    if n = 0 then
      let a := malloc h
      let h ← h.store p a
      if a = 0 then return (0, h)
      return (a, h.setNode a (some ⟨key, 0, 0⟩))
    else
      let v ← h.node n
      let r := compar key v.key
      if r < 0 then tsearch malloc fuel (.left n) h
      else if 0 < r then tsearch malloc fuel (.right n) h
      else return (n, h)

/-- `tfind`. -/
def tfind : (fuel : ℕ) → (p : Slot) → Heap K → Option ℕ
  | 0, _, _ => none
  | fuel + 1, p, h => do
    let n ← h.load p
    if n = 0 then return 0
    else
      let v ← h.node n
      let r := compar key v.key
      if r < 0 then tfind fuel (.left n) h
      else if 0 < r then tfind fuel (.right n) h
      else return n

/-- The loop of `tdelete` that looks for the key: `p` and `parent` at its end. -/
def descend : (fuel : ℕ) → (p : Slot) → (parent : ℕ) → Heap K → Option (Slot × ℕ)
  | 0, _, _, _ => none
  | fuel + 1, p, parent, h => do
    let n ← h.load p
    if n = 0 then return (p, parent)
    else
      let v ← h.node n
      let r := compar key v.key
      if r = 0 then return (p, parent)
      else descend fuel (if r < 0 then .left n else .right n) n h

end

/-- The loop of `tdelete` that looks for the next key: `minp` and `min` at its end. -/
def descendMin : (fuel : ℕ) → (minp : Slot) → (min : ℕ) → Heap K → Option (Slot × ℕ)
  | 0, _, _, _ => none
  | fuel + 1, minp, min, h => do
    let v ← h.node min
    if v.left = 0 then return (minp, min)
    else descendMin fuel (.left min) v.left h

/-- The end of `tdelete` for a node `t` with two children: the key of `min` moves to `t`, and the
node `min` is taken out. -/
def unlinkMin (t : ℕ) (minp : Slot) (min : ℕ) (h : Heap K) : Option (Heap K) := do
  let m ← h.node min
  let v ← h.node t
  let h := h.setNode t (some { v with key := m.key })
  let m ← h.node min
  let child := m.right
  let h ← h.free min
  h.store minp child

/-- What `tdelete` does behind its first loop. -/
def unlink (fuel : ℕ) (p : Slot) (parent : ℕ) (h : Heap K) : Option (ℕ × Heap K) := do
  let t ← h.load p
  if t = 0 then return (0, h)
  else
    let ret := if parent ≠ 0 then parent else t
    let v ← h.node t
    if v.left = 0 then
      let h ← h.store p v.right
      let h ← h.free t
      return (ret, h)
    else if v.right = 0 then
      let h ← h.store p v.left
      let h ← h.free t
      return (ret, h)
    else
      let r ← descendMin fuel (.right t) v.right h
      let h ← unlinkMin t r.1 r.2 h
      return (ret, h)

/-- `tdelete`, with a `rootp` that is not `NULL`. -/
def tdelete (compar : K → K → ℤ) (key : K) (fuel : ℕ) (h : Heap K) : Option (ℕ × Heap K) :=
  if h.root = 0 then some (0, h)
  else do
    let r ← descend compar key fuel .root 0 h
    unlink fuel r.1 r.2 h

/-- `VISIT`. -/
inductive Visit
  | preorder
  | postorder
  | endorder
  | leaf
  deriving DecidableEq

/-- A call of `action`: the node whose key is passed, the visit and the level. -/
structure Call where
  node : ℕ
  visit : Visit
  level : ℕ
  deriving DecidableEq

/-- `walk`: the calls of `action` in their order. -/
def walk : (fuel : ℕ) → (n level : ℕ) → Heap K → Option (List Call)
  | 0, _, _, _ => none
  | fuel + 1, n, level, h =>
    if n = 0 then some []
    else do
      let v ← h.node n
      if v.left = 0 ∧ v.right = 0 then return [⟨n, .leaf, level⟩]
      else
        let left ← if v.left ≠ 0 then walk fuel v.left (level + 1) h else some []
        let right ← if v.right ≠ 0 then walk fuel v.right (level + 1) h else some []
        return ⟨n, .preorder, level⟩ :: left ++ ⟨n, .postorder, level⟩ :: right ++
          [⟨n, .endorder, level⟩]

/-- `twalk`. -/
def twalk (fuel : ℕ) (h : Heap K) : Option (List Call) := walk fuel h.root 0 h

end Vlibc.Search
