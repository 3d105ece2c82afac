import Vlibc.Memory.Malloc
import Vlibc.Strings

/-!
# `getenv`, `setenv`, `putenv`, `unsetenv` and `clearenv`

The functions of `env.c`. The array `environ` is the list of its cells, the `NULL` that ends it
among them; a loop that does not find the `NULL` leaves the array, which is a `Fault`, as is reading
a string that is not in memory and freeing anything but a string of this file. The arrays themselves
have no addresses here: they are only ever freed by the call that replaces them.

What `malloc` returns is given to each call (`Alloc`), so that any allocation may fail. `Origin`
says for each string who has to release it; no function looks at it except `free`.
-/

namespace Vlibc.Env

/-- Behaviour that is not defined. -/
inductive Fault
  | dangling (a : ℕ)
  | badFree (a : ℕ)
  | overrun
  deriving DecidableEq

/-- Where a string comes from: it is the caller's, or it was allocated in this file, or it was
handed over by `putenv`. -/
inductive Origin
  | caller
  | library
  | handed
  deriving DecidableEq

/-- A string in memory. -/
structure Cell where
  text : CStr
  origin : Origin
  deriving DecidableEq

/-- The strings in memory by address, and the variables of the file. `flags` is empty for `NULL`. -/
structure State where
  heap : ℕ → Option Cell
  environ : Option (List ℕ)
  owned : Bool
  flags : List Bool

/-- What a call returns, and what it stores in `errno`. -/
structure Reply where
  ret : ℤ
  errno : Option ℕ
  deriving DecidableEq

/-- What the calls of `malloc` in one call return: for the string `entry`, for the two arrays, and
for the copy of each string of `environ`. -/
structure Alloc where
  entry : Option ℕ
  newenv : Bool
  newflags : Bool
  dup : ℕ → Option ℕ

namespace State

/-- The string at an address. -/
def read (st : State) (a : ℕ) : Except Fault CStr :=
  match st.heap a with
  | none => .error (.dangling a)
  | some c => .ok c.text

/-- A new string of this file. -/
def store (st : State) (a : ℕ) (s : CStr) : State :=
  { st with heap := Function.update st.heap a (some ⟨s, .library⟩) }

/-- `free` of a string. -/
def free (st : State) (a : ℕ) : Except Fault State :=
  match st.heap a with
  | some ⟨_, .library⟩ => .ok { st with heap := Function.update st.heap a none }
  | _ => .error (.badFree a)

/-- From now on the string at `a` is one that was handed over. -/
def handOver (st : State) (a : ℕ) : State :=
  { st with heap := Function.update st.heap a ((st.heap a).map fun c => { c with origin := .handed }) }

end State

/-! ## The functions -/

/-- `=`. -/
def equals : UInt8 := '='.toUInt8

/-- The condition in the loops of `getenv` and `find_env_index`. -/
def names (e name : CStr) (len : ℕ) : Bool :=
  vstrncmp e name len = 0 ∧ e.bytes.getD len 0 = equals

/-- The loop of `find_env_index`, from the cell `i` on. -/
def findFrom (st : State) (name : CStr) (len : ℕ) : List ℕ → ℕ → Except Fault (Option ℕ)
  | [], _ => .error .overrun
  | a :: cells, i =>
    if a = 0 then .ok none
    else do
      let e ← st.read a
      if names e name len then .ok (some i) else findFrom st name len cells (i + 1)

/-- `find_env_index`, with `none` for `-1`. -/
def findEnvIndex (st : State) (name : CStr) (len : ℕ) : Except Fault (Option ℕ) :=
  match st.environ with
  | none => .ok none
  | some cells => findFrom st name len cells 0

/-- The loop of `getenv`. -/
def getenvFrom (st : State) (name : CStr) (len : ℕ) : List ℕ → Except Fault (Option CStr)
  | [] => .error .overrun
  | a :: cells =>
    if a = 0 then .ok none
    else do
      let e ← st.read a
      if names e name len then .ok (some (e.drop (len + 1)))
      else getenvFrom st name len cells

/-- `getenv`; `none` for the name is `NULL`. -/
def getenv (st : State) (name : Option CStr) : Except Fault (Option CStr) :=
  match st.environ, name with
  | some cells, some name => getenvFrom st name (vstrlen name) cells
  | _, _ => .ok none

/-- The strings that are counted: those before the `NULL`. -/
def entriesOf : List ℕ → Except Fault (List ℕ)
  | [] => .error .overrun
  | a :: cells => if a = 0 then .ok [] else (entriesOf cells).map (a :: ·)

/-- A loop that frees strings one after the other. -/
def freeAll (st : State) (l : List ℕ) : Except Fault State := l.foldlM State.free st

/-- The loop that copies the strings of `environ`, from the string `i` on; `newenv` is what stands in
the new array. A string that is flagged is shared, every other one is duplicated; when that fails the
strings in the new array are freed, shared or not. -/
def copyFrom (mem : Alloc) : State → List ℕ → ℕ → List ℕ → Except Fault (State × Option (List ℕ))
  | st, [], _, newenv => .ok (st, some newenv)
  | st, a :: oldenv, i, newenv =>
    if st.owned && st.flags.getD i false then copyFrom mem st oldenv (i + 1) (newenv ++ [a])
    else do
      let s ← st.read a
      match mem.dup i with
      | none => return (← freeAll st newenv, none)
      | some q => copyFrom mem (st.store q s) oldenv (i + 1) (newenv ++ [q])

/-- The end of `setenv` and `putenv`: a new array, with the string at `p` behind the others. The
result says whether the memory sufficed. -/
def grow (st : State) (mem : Alloc) (p : ℕ) (flag : Bool) : Except Fault (State × Bool) := do
  let oldenv ← entriesOf (st.environ.getD [0])
  if !mem.newenv || !mem.newflags then return (st, false)
  match ← copyFrom mem st oldenv 0 [] with
  | (st, none) => return (st, false)
  | (st, some newenv) =>
    return ({ st with
      environ := some (newenv ++ [p, 0])
      owned := true
      flags := List.replicate newenv.length true ++ [flag] }, true)

/-- `name=value`. -/
def assignment (name value : CStr) : CStr :=
  ⟨name.bytes ++ equals :: value.bytes, by
    simpa [name.noNul, value.noNul] using (show (0 : UInt8) ≠ equals by decide)⟩

/-- The cell `i` of `environ` becomes `p`. -/
def State.setCell (st : State) (i p : ℕ) : State :=
  { st with environ := st.environ.map fun cells => cells.set i p }

/-- The cell `i` of `environ`. -/
def State.cell (st : State) (i : ℕ) : ℕ := (st.environ.getD []).getD i 0

/-- `setenv`. An entry that is replaced is freed if the array is owned, whatever its flag says; a
new name goes behind a copy of the array. -/
def setenv (st : State) (mem : Alloc) (name value : Option CStr) (overwrite : Bool) :
    Except Fault (Reply × State) :=
  match name with
  | none => .ok (⟨-1, some EINVAL⟩, st)
  | some name =>
    if (strchr name equals).isSome then .ok (⟨-1, some EINVAL⟩, st)
    else do
      let value := value.getD (str "")
      let idx ← findEnvIndex st name (vstrlen name)
      if idx.isSome && !overwrite then return (⟨0, none⟩, st)
      match mem.entry with
      | none => return (⟨-1, some ENOMEM⟩, st)
      | some entry =>
        let st := st.store entry (assignment name value)
        match idx with
        | some i =>
          let st ← if st.owned then st.free (st.cell i) else pure st
          return (⟨0, none⟩, st.setCell i entry)
        | none =>
          match ← grow st mem entry true with
          | (st, true) => return (⟨0, none⟩, st)
          | (st, false) => return (⟨-1, some ENOMEM⟩, ← st.free entry)

/-- `putenv`, with the address of the caller's string. The string itself goes into `environ`. -/
def putenv (st : State) (mem : Alloc) (str : ℕ) : Except Fault (Reply × State) :=
  if str = 0 then .ok (⟨-1, some EINVAL⟩, st)
  else do
    let text ← st.read str
    match strchr text equals with
    | none | some 0 => return (⟨-1, some EINVAL⟩, st)
    | some nlen =>
      match ← findEnvIndex st text nlen with
      | some i => return (⟨0, none⟩, (st.setCell i str).handOver str)
      | none =>
        match ← grow st mem str false with
        | (st, true) => return (⟨0, none⟩, st.handOver str)
        | (st, false) => return (⟨-1, some ENOMEM⟩, st)

/-- The loop of `unsetenv`, from the cell of the string that goes. -/
def shift : List ℕ → Except Fault (List ℕ)
  | [] => .error .overrun
  | a :: cells =>
    if a = 0 then .ok (a :: cells)
    else
      match cells with
      | [] => .error .overrun
      | b :: _ => (shift cells).map (b :: ·)

/-- `unsetenv`: the first entry with the name is freed if it is flagged, and those behind it move
up. -/
def unsetenv (st : State) (name : Option CStr) : Except Fault (Reply × State) :=
  match st.environ, name with
  | some cells, some name =>
    if (strchr name equals).isSome then .ok (⟨-1, none⟩, st)
    else do
      match ← findEnvIndex st name (vstrlen name) with
      | none => return (⟨0, none⟩, st)
      | some i =>
        let st ← if st.owned && st.flags.getD i false then st.free (st.cell i) else pure st
        let shifted ← shift (cells.drop i)
        return (⟨0, none⟩, { st with
          environ := some (cells.take i ++ shifted)
          flags := if st.owned then st.flags.eraseIdx i else st.flags })
  | _, _ => .ok (⟨-1, none⟩, st)

/-- The loop of `clearenv` over an array that is not owned. -/
def nullify : List ℕ → Except Fault (List ℕ)
  | [] => .error .overrun
  | a :: cells => if a = 0 then .ok (a :: cells) else (nullify cells).map (0 :: ·)

/-- The strings of an array that are flagged, one flag after the other. -/
def flagged (entries : List ℕ) (flags : List Bool) : List ℕ :=
  ((entries.zip flags).filter Prod.snd).map Prod.fst

/-- `clearenv`. An array that is not owned is filled with `NULL`; an owned one is replaced, and its
flagged strings are freed. -/
def clearenv (st : State) (mem : Alloc) : Except Fault (Reply × State) :=
  match st.environ with
  | none => .ok (⟨0, none⟩, st)
  | some cells =>
    if !st.owned then do
      return (⟨0, some 0⟩, { st with environ := some (← nullify cells) })
    else if !mem.newenv || !mem.newflags then .ok (⟨-1, some ENOMEM⟩, st)
    else do
      let oldenv ← entriesOf cells
      let st ← freeAll st (flagged oldenv st.flags)
      return (⟨0, none⟩, { st with environ := some [0], owned := true, flags := [] })

/-- `env_init`. -/
def envInit (st : State) (envp : Option (List ℕ)) : State :=
  { st with environ := envp, owned := false, flags := [] }

/-- A call that may change the environment. -/
inductive Call
  | setenv (name value : Option CStr) (overwrite : Bool)
  | putenv (str : ℕ)
  | unsetenv (name : Option CStr)
  | clearenv

/-- What a call does. -/
def Call.exec (st : State) (mem : Alloc) : Call → Except Fault (Reply × State)
  | setenv name value overwrite => Env.setenv st mem name value overwrite
  | putenv str => Env.putenv st mem str
  | unsetenv name => Env.unsetenv st name
  | clearenv => Env.clearenv st mem

/-- `malloc` returns addresses that are not in use, and no address twice in one call. -/
structure Alloc.Fresh (mem : Alloc) (st : State) : Prop where
  entry : ∀ p, mem.entry = some p → p ≠ 0 ∧ st.heap p = none
  dup : ∀ i q, mem.dup i = some q → q ≠ 0 ∧ st.heap q = none ∧ mem.entry ≠ some q
  inj : ∀ i j q, mem.dup i = some q → mem.dup j = some q → i = j

/-- Every allocation succeeds. -/
structure Alloc.Grants (mem : Alloc) : Prop where
  entry : mem.entry.isSome
  newenv : mem.newenv
  newflags : mem.newflags
  dup : ∀ i, (mem.dup i).isSome

/-- A sequence of calls that all return, each with what `malloc` returns in it. -/
inductive Run (st₀ : State) : List (Call × Alloc) → State → Prop
  | start : Run st₀ [] st₀
  | step {steps : List (Call × Alloc)} {st st' : State} {c : Call} {mem : Alloc} {r : Reply} :
    Run st₀ steps st → mem.Fresh st → c.exec st mem = .ok (r, st') → Run st₀ (steps ++ [(c, mem)]) st'

/-- The state after `env_init`: `environ` is `NULL` or an array that a `NULL` ends and whose strings
are in memory, and nothing was allocated here yet. -/
structure Initial (st : State) : Prop where
  notOwned : st.owned = false
  noFlags : st.flags = []
  array : ∀ cells, st.environ = some cells →
    ∃ entries rest, cells = entries ++ 0 :: rest ∧ ∀ a ∈ entries, a ≠ 0 ∧ (st.heap a).isSome
  callers : ∀ a c, st.heap a = some c → c.origin = .caller

end Vlibc.Env
