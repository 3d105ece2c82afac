import Vlibc.Glob.Fnmatch
import Vlibc.Stdlib.Qsort

/-!
# `glob`

The functions of `glob.c`. What `opendir` and `readdir` find is given by a function from paths to
lists of names (`Directories`); whether an allocation succeeds, and what lies behind the terminator
of a pattern while `fnmatch` reads it, are arbitrary (`World`).
-/

namespace Vlibc.Glob

open Fnmatch (fnmatch FNM_NOESCAPE)
open Stdlib (qsort)

def GLOB_NOSORT : ℕ := 0x01

def GLOB_NOESCAPE : ℕ := 0x02

def GLOB_NOMATCH : ℕ := 1

def GLOB_NOSPACE : ℕ := 2

def GLOB_ABORTED : ℕ := 3

/-- The separator of a path. -/
def slash : UInt8 := '/'.toUInt8

/-- The names that `readdir` returns for a path, one after the other, if `opendir` opens it. No name
is returned twice, and names are not empty and have no slash in them. -/
structure Directories where
  names : CStr → Option (List CStr)
  nodup : ∀ dir l, names dir = some l → l.Nodup
  ne_nil : ∀ dir l, names dir = some l → ∀ c ∈ l, c.bytes ≠ []
  noSlash : ∀ dir l, names dir = some l → ∀ c ∈ l, slash ∉ c.bytes

/-- What a call depends on: the directories; whether the `n`-th allocation succeeds; and what lies
behind the terminator of the pattern when `fnmatch` is called for a name in a directory. -/
structure World extends Directories where
  mem : ℕ → Bool
  behind : CStr → CStr → List UInt8

/-- The `glob_t`, of which `gl_pathc` is the length of the list, and the number of allocations. -/
structure GlobT where
  pathv : List CStr
  allocs : ℕ

/-- A path and a name, with a slash between them if there is none. -/
def joined (base name : CStr) : CStr :=
  if base.bytes ≠ [] ∧ base.bytes.getLast? ≠ some slash then
    (base.append (str "/")).append name
  else base.append name

/-- `join_path`, which may find no memory. -/
def joinPath (w : World) (g : GlobT) (base name : CStr) : Option CStr × GlobT :=
  (if w.mem g.allocs then some (joined base name) else none, { g with allocs := g.allocs + 1 })

/-- `add_match`: whether it succeeds. The array is enlarged, and then the string is copied. -/
def addMatch (w : World) (g : GlobT) (path : CStr) : Bool × GlobT :=
  if !w.mem g.allocs then (false, { g with allocs := g.allocs + 1 })
  else if !w.mem (g.allocs + 1) then (false, { g with allocs := g.allocs + 2 })
  else (true, ⟨g.pathv ++ [path], g.allocs + 2⟩)

/-- `cmp_str`. -/
def cmpStr (a b : CStr) : ℤ := strcmp a b

/-- The flags that `fnmatch` is given. -/
def fnmFlags (flags : ℕ) : ℕ := if flags &&& GLOB_NOESCAPE ≠ 0 then FNM_NOESCAPE else 0

/-- The directory that is opened: the empty path is the current one. -/
def opened (dir : CStr) : CStr := if dir.bytes = [] then str "." else dir

section Dirs

variable (w : World) (flags : ℕ) (expand : CStr → CStr → GlobT → ℕ × GlobT)
  (dir pattern : CStr) (rest : Option CStr)

/-- What `handle_dir` does with a name that matches. -/
def handleEntry (g : GlobT) (name : CStr) : ℕ × GlobT :=
  match joinPath w g dir name with
  | (none, g) => (GLOB_NOSPACE, g)
  | (some next, g) =>
    match rest with
    | some rest => expand next rest g
    | none =>
      let (ok, g) := addMatch w g next
      (if ok then 0 else GLOB_NOSPACE, g)

/-- The loop of `handle_dir` over the names that `readdir` returns. -/
def entryLoop : List CStr → GlobT → ℕ × GlobT
  | [], g => (0, g)
  | name :: names, g =>
    if strcmp name (str ".") = 0 ∨ strcmp name (str "..") = 0 then entryLoop names g
    else if fnmatch pattern (w.behind (opened dir) name) name (fnmFlags flags) = 0 then
      let (ret, g) := handleEntry w expand dir rest g name
      if ret ≠ 0 then (ret, g) else entryLoop names g
    else entryLoop names g

/-- `handle_dir`, which calls `expand` for the rest of the pattern. -/
def handleDir (g : GlobT) : ℕ × GlobT :=
  match w.names (opened dir) with
  | none => (0, g)
  | some names => entryLoop w flags expand dir pattern rest names g

end Dirs

/-- `expand`, for a pattern of less than `fuel` components. -/
def expand (w : World) (flags : ℕ) : ℕ → CStr → CStr → GlobT → ℕ × GlobT
  | 0, _, _, g => (0, g)
  | fuel + 1, base, pattern, g =>
    let pattern := pattern.drop (pattern.bytes.takeWhile (· = slash)).length
    match strchr pattern slash with
    | none => handleDir w flags (expand w flags fuel) base pattern none g
    | some len =>
      let rest := pattern.drop (len + 1)
      handleDir w flags (expand w flags fuel) base (pattern.take len)
        (if rest.bytes = [] then none else some rest) g

/-- `glob`: what it returns, and the paths. -/
def glob (w : World) (pattern : Option CStr) (flags : ℕ) : ℕ × List CStr :=
  match pattern with
  | none => (GLOB_ABORTED, [])
  | some pattern =>
    let (ret, g) :=
      if pattern.bytes.head? = some slash then
        expand w flags (pattern.bytes.length + 1) (str "/") (pattern.drop 1) ⟨[], 0⟩
      else expand w flags (pattern.bytes.length + 1) (str "") pattern ⟨[], 0⟩
    let ret := if ret = 0 ∧ g.pathv = [] then GLOB_NOMATCH else ret
    (ret, if ret = 0 ∧ flags &&& GLOB_NOSORT = 0 then qsort cmpStr g.pathv else g.pathv)

end Vlibc.Glob
