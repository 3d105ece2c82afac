import Vlibc.Foundations.Heap
import Vlibc.Strings

/-!
# The file actions of `posix_spawn`

The functions of `process.c` that build the list of file actions, where any request for memory may be
refused.
-/

namespace Vlibc.Spawn

open List Multiset

/-- The fields of a `struct posix_spawn_file_action` that are set, by its type. A path is a `π`. -/
inductive Action (π : Type)
  | opens (fd : ℤ) (path : π) (oflag : ℤ) (mode : ℕ)
  | close (fd : ℤ)
  | dup2 (fd newfd : ℤ)
  | chdir (path : π)
  | fchdir (fd : ℤ)

/-- The path of an action. -/
def Action.path {π : Type} : Action π → Option π
  | opens _ p _ _ | chdir p => some p
  | close _ | dup2 .. | fchdir _ => none

/-- The action with another path. -/
def Action.map {π ρ : Type} (f : π → ρ) : Action π → Action ρ
  | opens fd p oflag mode => opens fd (f p) oflag mode
  | close fd => close fd
  | dup2 fd newfd => dup2 fd newfd
  | chdir p => chdir (f p)
  | fchdir fd => fchdir fd

/-- A cell of memory: a byte, an action or what nobody has written. -/
inductive Cell
  | junk
  | byte (c : UInt8)
  | action (a : Action ℕ)

/-- A program on such cells. -/
abbrev Run := Prog Cell Unit

/-- Blocks, with their cells. -/
abbrev Blocks := Multiset (ℕ × List Cell)

/-- `posix_spawn_file_actions_t` -/
structure FileActions where
  actions : Option ℕ
  count : ℕ

/-- What the functions return. -/
inductive Ret
  | ok
  | einval
  | enomem
  deriving DecidableEq

/-- The cells of a string. -/
def cstring (s : CStr) : List Cell := s.bytes.map .byte ++ [.byte 0]

/-- `free`. -/
def free : Option ℕ → Run Unit
  | none => return
  | some p => release p

section Functions

variable (grants : ℕ → Bool)

/-- `realloc`, for a size other than 0: there is always a new block, and the old one is freed. -/
def realloc (old : Option ℕ) (size : ℕ) : Run (Option ℕ) := do
  match old with
  | none => request grants () (List.replicate size .junk)
  | some old =>
    let cells ← cellsAt old
    let new ← request grants () (cells.take size ++ List.replicate (size - cells.length) .junk)
    if new.isSome then release old
    return new

/-- `strdup`, if there is memory. -/
def strdup (s : CStr) : Run (Option ℕ) := request grants () (cstring s)

/-- `posix_spawn_file_actions_init`. -/
def init : FileActions := ⟨none, 0⟩

/-- `file_actions_add`. The new slot is the last one of `tmp`. -/
def fileActionsAdd (acts : FileActions) : Run (Option ℕ) := realloc grants acts.actions (acts.count + 1)

/-- What is done in `addopen` and `addchdir` if there is no memory for the path. -/
def giveUp (acts : FileActions) : Run FileActions := do
  let count := acts.count - 1
  if count = 0 then
    free acts.actions
    return ⟨none, count⟩
  else
    let tmp ← realloc grants acts.actions count
    return ⟨tmp.or acts.actions, count⟩

/-- `addopen`, `addclose`, `adddup2`, `addchdir` and `addfchdir`, by the action that is to be added. A
path may be `NULL`. The fields are set once there is a copy of it. -/
def add (acts : FileActions) (a : Action (Option CStr)) : Run (Ret × FileActions) := do
  if a.path = some none then return (.einval, acts)
  else
    match ← fileActionsAdd grants acts with
    | none => return (.enomem, acts)
    | some tmp =>
      let acts' : FileActions := ⟨some tmp, acts.count + 1⟩
      match a.path.join with
      | none =>
        writeAt tmp acts.count [.action (a.map fun _ => 0)]
        return (.ok, acts')
      | some path =>
        match ← strdup grants path with
        | none => return (.enomem, ← giveUp grants acts')
        | some p =>
          writeAt tmp acts.count [.action (a.map fun _ => p)]
          return (.ok, acts')

/-- A sequence of calls, and what they return. -/
def addAll (acts : FileActions) : List (Action (Option CStr)) → Run (List Ret × FileActions)
  | [] => return ([], acts)
  | a :: calls => do
    let (r, acts) ← add grants acts a
    let (rs, acts) ← addAll acts calls
    return (r :: rs, acts)

end Functions

/-- The entry `i` of the array of actions. -/
def loadAction (actions : Option ℕ) (i : ℕ) : Run (Action ℕ) := do
  match actions with
  | none => throw .dead
  | some p =>
    match (← cellsAt p)[i]? with
    | some (.action a) => return a
    | _ => throw .outside

/-- The loop of `destroy`, from the `i`-th action on, with `n` left. -/
def destroyLoop (actions : Option ℕ) : ℕ → ℕ → Run Unit
  | _, 0 => return
  | i, n + 1 => do
    free (← loadAction actions i).path
    destroyLoop actions (i + 1) n

/-- `posix_spawn_file_actions_destroy`: the paths of the actions are freed, and then the array. -/
def destroy (acts : FileActions) : Run FileActions := do
  destroyLoop acts.actions 0 acts.count
  free acts.actions
  return ⟨none, 0⟩

/-! ### What the list holds -/

/-- Actions, with the addresses of their paths. -/
abbrev Stored := List (Action (ℕ × CStr))

/-- The cells of the array. -/
def slots (as : Stored) : List Cell := as.map fun a => .action (a.map Prod.fst)

/-- The blocks of the paths. -/
def paths (as : Stored) : Blocks :=
  ((as.filterMap Action.path).map fun p => (p.1, cstring p.2) : List _)

/-- The list has these actions, and the blocks in use are its own and `bs`. The array may be longer
than the list, if it could not be shrunk. -/
inductive Holds (bs : Blocks) (h : Heap Cell) : FileActions → Stored → Prop
  | empty (ho : h.Owns bs) : Holds bs h ⟨none, 0⟩ []
  | array {p : ℕ} {as : Stored} {rest : List Cell}
    (ho : h.Owns ((p, slots as ++ rest) ::ₘ (paths as + bs))) : Holds bs h ⟨some p, as.length⟩ as

variable {grants : ℕ → Bool} {m : Memory Cell Unit} {bs : Blocks} {p : ℕ} {c : Cell}
  {cells : List Cell} {acts : FileActions} {as : Stored}

theorem Action.path_map {π ρ : Type} (f : π → ρ) (a : Action π) :
    (a.map f).path = a.path.map f := by
  cases a <;> rfl

theorem Action.map_map {π ρ σ : Type} (g : ρ → σ) (f : π → ρ) (a : Action π) :
    (a.map f).map g = a.map (g ∘ f) := by
  cases a <;> rfl

theorem Action.map_eq_self {π : Type} {f : π → π} {a : Action π} (h : ∀ x ∈ a.path, f x = x) :
    a.map f = a := by
  cases a with
  | opens _ x | chdir x => rw [map, h x rfl]
  | _ => rfl

@[simp] theorem length_slots (as : Stored) : (slots as).length = as.length :=
  length_map _

theorem paths_concat (as : Stored) (a : Action (ℕ × CStr)) :
    paths (as ++ [a]) = paths [a] + paths as := by
  rw [paths, filterMap_append, map_append, ← coe_add, add_comm]
  rfl

theorem Holds.count_eq {h : Heap Cell} (hh : Holds bs h acts as) : acts.count = as.length := by
  cases hh <;> rfl

theorem realloc_ends (ho : m.heap.Owns ((p, cells) ::ₘ bs)) (size : ℕ) :
    Ends (realloc grants (some p) size) m (Answered grants () m fun new h =>
      h.Owns ((new, cells.take size ++ List.replicate (size - cells.length) .junk) ::ₘ bs)) := by
  refine (cellsAt_ends ho (Multiset.mem_cons_self _ _)).bind ?_
  rintro _ _ ⟨rfl, rfl⟩
  refine (request_ends ho grants () _).bind ?_
  rintro _ m₁ (⟨hg, hasked, hheap⟩ | ⟨new, hg, hasked, ho₁⟩)
  · exact .pure (.refused hg hasked hheap)
  · rw [cons_swap] at ho₁
    refine (release_ends ho₁).bind ?_
    rintro _ m₂ ⟨hasked₂, ho₂⟩
    exact .pure (.granted new hg (hasked₂.trans hasked) ho₂)

theorem fileActionsAdd_ends (hh : Holds bs m.heap acts as) :
    Ends (fileActionsAdd grants acts) m (Answered grants () m fun p h =>
      ∃ c, h.Owns ((p, slots as ++ [c]) ::ₘ (paths as + bs))) := by
  cases hh with
  | empty ho =>
    refine (request_ends ho grants () _).imp fun _ _ h => h.imp fun p _ ho => ⟨.junk, ?_⟩
    simpa [slots, paths] using ho
  | @array p as rest ho =>
    refine (realloc_ends ho (as.length + 1)).imp fun _ _ h => h.imp fun p _ ho => ?_
    cases rest with
    | nil => exact ⟨.junk, by simpa [take_of_length_le] using ho⟩
    | cons c rest => exact ⟨c, by simpa [take_append, take_of_length_le] using ho⟩

theorem store_ends {b : Action (Option CStr)} {q : ℕ × CStr} (hq : ∀ s ∈ b.path, some q.2 = s)
    (ho : m.heap.Owns ((p, slots as ++ [c]) ::ₘ (paths (as ++ [b.map fun _ => q]) + bs))) :
    Ends (writeAt p as.length [.action (b.map fun _ => q.1)]) m fun _ m' =>
      ∃ a, a.map (some ·.2) = b ∧ Holds bs m'.heap ⟨some p, as.length + 1⟩ (as ++ [a]) := by
  refine (writeAt_ends ho _ _ (by simp)).imp fun _ m' h => ⟨b.map fun _ => q, ?_, ?_⟩
  · exact (Action.map_map ..).trans (Action.map_eq_self hq)
  · have hcells : slots (as ++ [b.map fun _ => q]) ++ [] = (slots as ++ [c]).take as.length ++
        [.action (b.map fun _ => q.1)] ++ (slots as ++ [c]).drop (as.length + 1) := by
      simp [slots, Action.map_map, Function.comp_def]
    have hh := h.2
    rw [length_singleton, ← hcells] at hh
    simpa using Holds.array hh

theorem giveUp_ends (ho : m.heap.Owns ((p, slots as ++ [c]) ::ₘ (paths as + bs))) :
    Ends (giveUp grants ⟨some p, as.length + 1⟩) m fun acts m' => Holds bs m'.heap acts as := by
  rw [giveUp]
  cases has : as with
  | nil =>
    subst has
    refine (release_ends ho).bind fun _ m' h => .pure (.empty ?_)
    simpa [paths] using h.2
  | cons a as' =>
    rw [← has, if_neg (by simp [has])]
    refine (realloc_ends ho as.length).bind ?_
    rintro _ m₁ (⟨-, -, hheap⟩ | ⟨new, -, -, ho₁⟩)
    · exact .pure (.array (by rw [hheap]; exact ho))
    · exact .pure (@Holds.array bs _ _ as [] (by simpa using ho₁))

/-- **One call** adds its action and returns 0, or leaves the list as it is. -/
theorem add_ends (hh : Holds bs m.heap acts as) (b : Action (Option CStr)) :
    Ends (add grants acts b) m fun x m' => x.1 ≠ .ok ∧ Holds bs m'.heap x.2 as ∨
      x.1 = .ok ∧ ∃ a, a.map (some ·.2) = b ∧ Holds bs m'.heap x.2 (as ++ [a]) := by
  obtain ⟨actions, count⟩ := acts
  obtain rfl : count = as.length := hh.count_eq
  rw [add]
  split
  · exact .pure (.inl ⟨Ret.noConfusion, hh⟩)
  refine (fileActionsAdd_ends hh).bind ?_
  rintro _ m₁ (⟨-, -, hheap⟩ | ⟨p, -, -, c, ho⟩)
  · exact .pure (.inl ⟨Ret.noConfusion, hheap ▸ hh⟩)
  rcases hb : b.path with - | - | s
  · have hpaths : paths (as ++ [b.map fun _ => (0, str "")]) = paths as := by
      simp [paths, Action.path_map, hb]
    rw [← hpaths] at ho
    exact (store_ends (by simp [hb]) ho).bind fun _ _ h => .pure (.inr ⟨rfl, h⟩)
  · contradiction
  · refine (request_ends ho grants () _).bind ?_
    rintro _ m₂ (⟨-, -, hheap⟩ | ⟨q, -, -, ho₂⟩)
    · rw [← hheap] at ho
      exact (giveUp_ends ho).bind fun _ _ h => .pure (.inl ⟨Ret.noConfusion, h⟩)
    have hpaths : paths (as ++ [b.map fun _ => (q, s)]) = (q, cstring s) ::ₘ paths as := by
      rw [paths_concat]
      simp [paths, Action.path_map, hb]
    rw [cons_swap, ← cons_add, ← hpaths] at ho₂
    exact (store_ends (by simp [hb]) ho₂).bind fun _ _ h => .pure (.inr ⟨rfl, h⟩)

theorem addAll_ends (hh : Holds bs m.heap acts as) (calls : List (Action (Option CStr))) :
    Ends (addAll grants acts calls) m fun x m' => x.1.length = calls.length ∧ ∃ as',
      Holds bs m'.heap x.2 (as ++ as') ∧
        as'.map (Action.map (some ·.2)) = ((calls.zip x.1).filter (·.2 = .ok)).map Prod.fst := by
  induction calls generalizing m acts as with
  | nil => exact .pure ⟨rfl, [], by rwa [append_nil], rfl⟩
  | cons b calls ih =>
    refine (add_ends hh b).bind ?_
    rintro ⟨r, acts₁⟩ m₁ (⟨hr, hh₁⟩ | ⟨rfl, a, ha, hh₁⟩)
    · refine (ih hh₁).bind ?_
      rintro ⟨rs, acts₂⟩ m₂ ⟨hlen, as', hh₂, has'⟩
      refine .pure ⟨congrArg (· + 1) hlen, as', hh₂, ?_⟩
      simpa [show r ≠ .ok from hr] using has'
    · refine (ih hh₁).bind ?_
      rintro ⟨rs, acts₂⟩ m₂ ⟨hlen, as', hh₂, has'⟩
      refine .pure ⟨congrArg (· + 1) hlen, a :: as', by simpa using hh₂, ?_⟩
      simpa [ha] using has'

theorem destroyLoop_ends (as todo : Stored)
    (ho : m.heap.Owns ((p, slots (as ++ todo) ++ cells) ::ₘ (paths todo + bs))) :
    Ends (destroyLoop (some p) as.length todo.length) m fun _ m' =>
      m'.heap.Owns ((p, slots (as ++ todo) ++ cells) ::ₘ bs) := by
  induction todo generalizing as m with
  | nil => exact .pure (by simpa [paths] using ho)
  | cons a todo ih =>
    have hget : (slots (as ++ a :: todo) ++ cells)[as.length]? = some (.action (a.map Prod.fst)) := by
      simp [slots]
    have hload : Ends (loadAction (some p) as.length) m fun x m' => x = a.map Prod.fst ∧ m' = m := by
      refine (cellsAt_ends ho (Multiset.mem_cons_self _ _)).bind ?_
      rintro _ _ ⟨rfl, rfl⟩
      rw [hget]
      exact .pure ⟨rfl, rfl⟩
    have hfree : Ends (free (a.map Prod.fst).path) m fun _ m' =>
        m'.heap.Owns ((p, slots (as ++ a :: todo) ++ cells) ::ₘ (paths todo + bs)) := by
      cases a with
      | opens _ q | chdir q =>
        have ho : m.heap.Owns ((p, _) ::ₘ ((q.1, cstring q.2) ::ₘ paths todo + bs)) := ho
        rw [cons_add, cons_swap] at ho
        exact (release_ends ho).imp fun _ _ h => h.2
      | _ => exact .pure ho
    refine hload.bind ?_
    rintro _ _ ⟨rfl, rfl⟩
    refine hfree.bind fun _ m₁ ho₁ => ?_
    have hsplit : as ++ a :: todo = as ++ [a] ++ todo := by simp
    rw [hsplit] at ho₁ ⊢
    have hrest := ih (as ++ [a]) ho₁
    rwa [length_append] at hrest

theorem destroy_ends (hh : Holds bs m.heap acts as) :
    Ends (destroy acts) m fun _ m' => m'.heap.Owns bs := by
  cases hh with
  | empty ho => exact .pure ho
  | array ho =>
    refine (destroyLoop_ends [] as ho).bind fun _ m₁ ho₁ => ?_
    exact (release_ends ho₁).bind fun _ _ h => .pure h.2

/-- **The list has the actions of the calls that returned 0**, in their order, with copies of their
paths, whatever requests for memory are refused; and `destroy` frees what they have allocated, and
nothing else. -/
theorem file_actions_survive (grants : ℕ → Bool) (m : Memory Cell Unit)
    (calls : List (Action (Option CStr))) :
    Ends (addAll grants init calls) m fun x m' => x.1.length = calls.length ∧ ∃ as,
      Holds m.heap.blocks m'.heap x.2 as ∧
      as.map (Action.map (some ·.2)) = ((calls.zip x.1).filter (·.2 = .ok)).map Prod.fst ∧
      Ends (destroy x.2) m' fun _ m'' => m''.heap.Owns m.heap.blocks := by
  refine (addAll_ends (.empty rfl) calls).imp ?_
  rintro x m' ⟨hlen, as, hh, has⟩
  exact ⟨hlen, as, hh, has, destroy_ends hh⟩

end Vlibc.Spawn
