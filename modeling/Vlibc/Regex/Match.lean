import Vlibc.Regex.Compile

/-!
# Matching a compiled regular expression

`regexec` of `regex.c`. The matcher of one alternative (`matchpattern`) goes through the tokens; at
a quantifier it calls itself for the tokens behind it, once for every number of characters that the
quantifier may take (`matchstar`, `matchplus`, `matchquestion`). The length of the match is a
counter that all these calls share, and so are the captures. An `int` that overflows is a fault: the
index of the search, and the end of the match that is computed from it. The counter alone is exact.
-/

namespace Vlibc.Regex

open Ctype
open Printf (INT_MAX)

/-- `match_posix_class`. -/
def matchPosixClass (c : UInt8) (name : List UInt8) : Bool :=
  if name = bytes "alnum" then isalnum c
  else if name = bytes "alpha" then isalpha c
  else if name = bytes "digit" then isdigit c
  else if name = bytes "lower" then islower c
  else if name = bytes "upper" then isupper c
  else if name = bytes "space" then isspace c
  else if name = bytes "xdigit" then isxdigit c
  else if name = bytes "print" then isprint c
  else if name = bytes "graph" then isgraph c
  else if name = bytes "cntrl" then iscntrl c
  else if name = bytes "punct" then ispunct c
  else if name = bytes "blank" then c = ' '.toUInt8 ∨ c = '\t'.toUInt8
  else false

/-- `matchdigit`. -/
def matchdigit (c : UInt8) : Bool := isdigit c

/-- `matchalpha`: letters, digits and `_`. -/
def matchalpha (c : UInt8) : Bool := isalnum c ∨ c = '_'.toUInt8

/-- `matchspace`. -/
def matchspace (c : UInt8) : Bool := isspace c

/-- The value of a `char`, which is signed. -/
def charValue (c : UInt8) : ℤ := c.toBitVec.toInt

/-- `matchrange` at a text that is not empty. -/
def matchrange (c x : UInt8) (s : List UInt8) : Bool :=
  c ≠ '-'.toUInt8 ∧ s.head? = some '-'.toUInt8 ∧
    s.tail.head?.any fun y => charValue x ≤ charValue c ∧ charValue c ≤ charValue y

/-- `matchdot`. -/
def matchdot (c : UInt8) : Bool := c ≠ '\n'.toUInt8 ∧ c ≠ '\r'.toUInt8

/-- `ismeta`. -/
def ismeta (c : UInt8) : Bool :=
  c = 's'.toUInt8 ∨ c = 'S'.toUInt8 ∨ c = 'w'.toUInt8 ∨ c = 'W'.toUInt8 ∨ c = 'd'.toUInt8 ∨
    c = 'D'.toUInt8

/-- `matchmeta` at a text that begins with `x`. -/
def matchmeta (c x : UInt8) : Bool :=
  if x = 'd'.toUInt8 then matchdigit c
  else if x = 'D'.toUInt8 then !matchdigit c
  else if x = 'w'.toUInt8 then matchalpha c
  else if x = 'W'.toUInt8 then !matchalpha c
  else if x = 's'.toUInt8 then matchspace c
  else if x = 'S'.toUInt8 then !matchspace c
  else c = x

/-- `strstr(s, ":]")`: the text before it. -/
def findNameEnd : List UInt8 → Option (List UInt8)
  | [] => none
  | x :: s =>
    if x = ':'.toUInt8 ∧ s.head? = some ']'.toUInt8 then some []
    else (findNameEnd s).map (x :: ·)

/-- The name, if the text begins with `[:` and there is a `:]` behind it. -/
def className (x : UInt8) (s : List UInt8) : Option (List UInt8) :=
  if x = '['.toUInt8 ∧ s.head? = some ':'.toUInt8 then findNameEnd s.tail else none

/-- `matchclass` at a text, with the byte before it. The loop passes over the next `skip` bytes: the
second byte of an escape, and behind a class name also the byte that follows it, since `continue`
goes to the increment in the condition. -/
def matchclass (c : UInt8) : (skip : ℕ) → (before : UInt8) → List UInt8 → Bool
  | 0, _, [] => c = 0
  | _ + 1, _, [] => false
  | skip + 1, _, x :: s => matchclass c skip x s
  | 0, before, x :: s =>
    match className x s with
    | some name =>
      if matchPosixClass c name then true else matchclass c (name.length + 4) x s
    | none =>
      if matchrange c x s then true
      else if x = '\\'.toUInt8 then
        if s.head?.any fun y => matchmeta c y || (c = y && !ismeta c) then true
        else matchclass c 1 x s
      else if c = x then
        if c = '-'.toUInt8 then before = 0 ∨ s = [] else true
      else matchclass c 0 x s

/-- `matchone` for the tokens it knows. -/
def Single.matchone (t : Single) (c : UInt8) : Bool :=
  match t with
  | dot => matchdot c
  | charClass before ccl => matchclass c 0 before ccl
  | invCharClass before ccl => !matchclass c 0 before ccl
  | digit => matchdigit c
  | notDigit => !matchdigit c
  | alpha => matchalpha c
  | notAlpha => !matchalpha c
  | space => matchspace c
  | notSpace => !matchspace c
  | char ch => ch = c

/-! ## `matchpattern` -/

/-- A difference of pointers that is stored in an `int`. -/
def toInt (x : ℤ) : ℤ := (BitVec.ofInt 32 x).toInt

/-- `regmatch_t`. -/
structure Regmatch where
  so : ℤ
  eo : ℤ
  deriving DecidableEq

/-- What the calls share: `*matchlen` and `caps`. -/
structure Shared where
  ml : ℤ
  caps : Option (List Regmatch)
  deriving DecidableEq

/-- What a matcher returns, and what it leaves in the shared variables. -/
abbrev Result := Except Fault (Bool × Shared)

/-- A matcher at a place of the subject, which is given as the bytes from there on and as an
offset. -/
abbrev Matcher := List UInt8 → ℕ → Shared → Result

namespace Shared

variable (st : Shared)

/-- A change of `caps[g]`. -/
def modifyCap (g : ℕ) (f : Regmatch → Regmatch) : Except Fault Shared :=
  match st.caps with
  | none => .ok st
  | some caps =>
    if g < caps.length then .ok { st with caps := some (caps.modify g f) } else .error (.capture g)

/-- `caps[g]`. -/
def cap (g : ℕ) : Except Fault (Option Regmatch) :=
  match st.caps with
  | none => .ok none
  | some caps => if g < caps.length then .ok caps[g]? else .error (.capture g)

end Shared

/-- The loop over the ends of a run, from `tries + low - 1` characters down to `low`. -/
def backtrack (k : Matcher) (text : List UInt8) (pos low : ℕ) : (tries : ℕ) → Shared → Result
  | 0, st => .ok (false, st)
  | tries + 1, st => do
    let r ← k (text.drop (tries + low)) (pos + (tries + low)) st
    if r.1 then return r
    else backtrack k text pos low tries { r.2 with ml := r.2.ml - 1 }

section Quantifiers

variable (p : UInt8 → Bool) (k : Matcher) (text : List UInt8) (pos : ℕ) (st : Shared)

/-- `matchstar`: the longest run first, and then fewer characters. -/
def matchstar : Result := do
  let n := (text.takeWhile p).length
  let r ← backtrack k text pos 0 (n + 1) { st with ml := st.ml + n }
  if r.1 then return r else return (false, { r.2 with ml := st.ml })

/-- `matchplus`. The counter keeps what the run has added to it when every end fails. -/
def matchplus : Result :=
  let n := (text.takeWhile p).length
  backtrack k text pos 1 n { st with ml := st.ml + n }

/-- `matchquestion`: without the character first. -/
def matchquestion : Result := do
  let r ← k text pos st
  if r.1 then return r
  else if text.head?.any p then
    let r ← k text.tail (pos + 1) r.2
    if r.1 then return (true, { r.2 with ml := r.2.ml + 1 }) else return r
  else return r

/-- The function of a quantifier. -/
def Quant.matcher : Quant → Result
  | question => matchquestion p k text pos st
  | star => matchstar p k text pos st
  | plus => matchplus p k text pos st

end Quantifiers

/-- `matchone`. A quantifier that stands where a character is expected is compared by its byte. -/
def Token.matchone (t : Token) (c : UInt8) : Bool :=
  match t with
  | single t => t.matchone c
  | quant _ ch => ch = c
  | _ => false

/-- `matchpattern`; `pre` is `*matchlen` at its call. -/
def matchpattern (string : List UInt8) : List Token → (pre : ℤ) → Matcher
  | [], _, _, _, st => .ok (true, st)
  | t :: ts, pre, text, pos, st =>
    match t with
    | .capOpen g => do
      let st ← st.modifyCap g fun m => { m with so := toInt pos }
      matchpattern string ts pre text pos st
    | .capClose g => do
      let st ← st.modifyCap g fun m => { m with eo := toInt pos }
      matchpattern string ts pre text pos st
    | .backref g => do
      match ← st.cap g with
      | none => return (false, { st with ml := pre })
      | some m =>
        if m.so < 0 ∨ m.eo < 0 then return (false, { st with ml := pre })
        else
          let blen := m.eo - m.so
          -- a negative length is a huge one for `strncmp`
          let n := if blen < 0 then string.length else blen.toNat
          if (string.drop m.so.toNat).take n ≠ text.take n then return (false, { st with ml := pre })
          else
            let pos := (pos + blen).toNat
            matchpattern string ts pre (string.drop pos) pos { st with ml := st.ml + blen }
    | .begin =>
      if pos ≠ 0 then .ok (false, { st with ml := pre }) else matchpattern string ts pre text pos st
    | .end_ =>
      if text ≠ [] then .ok (false, { st with ml := pre }) else matchpattern string ts pre text pos st
    | .indeterminate => .error .indeterminate
    | .single _ | .quant _ _ =>
      match ts with
      | .quant q _ :: ts =>
        q.matcher t.matchone (fun text pos st => matchpattern string ts st.ml text pos st) text pos st
      | .indeterminate :: _ => .error .indeterminate
      | ts =>
        if text.head?.any t.matchone then
          matchpattern string ts pre text.tail (pos + 1) { st with ml := st.ml + 1 }
        else .ok (false, { st with ml := pre })

/-- `memset(caps, -1, …)`. -/
def clearCaps (nsub : ℕ) : Option (List Regmatch) :=
  if nsub = 0 then none else some (List.replicate (nsub + 1) ⟨-1, -1⟩)

/-- The search for an alternative that does not begin with `^`: the index and the length at the
first place where it matches, and the captures. -/
def search (string : List UInt8) (nsub : ℕ) (pat : List Token) : (t : List UInt8) → (idx : ℕ) →
    Except Fault (Option (ℕ × ℤ) × Option (List Regmatch))
  | t, idx => do
    let r ← matchpattern string pat 0 t idx ⟨0, clearCaps nsub⟩
    if r.1 then return (some (idx, r.2.ml), r.2.caps)
    else
      match t with
      | [] => return (none, r.2.caps)
      | _ :: t => if (idx : ℤ) < INT_MAX then search string nsub pat t (idx + 1) else .error .overflow

/-- `pos`, `len` and `caps` of `regexec`. -/
structure Found where
  pos : ℤ
  len : ℤ
  caps : Option (List Regmatch)

/-- One pass of the loop over the alternatives. An alternative that begins with `^` is tried at the
start only, and goes on counting from what the ones before have left. -/
def tryAlt (string : List UInt8) (nsub : ℕ) (pat : List Token) (st : Found) : Except Fault Found := do
  match pat with
  | .indeterminate :: _ => throw .indeterminate
  | .begin :: pat =>
    let r ← matchpattern string pat st.len string 0 ⟨st.len, st.caps⟩
    return ⟨if r.1 then 0 else st.pos, r.2.ml, r.2.caps⟩
  | pat =>
    let r ← search string nsub pat string 0
    match r.1 with
    | some (idx, l) => return ⟨idx, l, r.2⟩
    | none => return { st with caps := r.2 }

theorem tryAlt_of_search {string : List UInt8} {nsub : ℕ} {pat : List Token}
    {r : Option (ℕ × ℤ) × Option (List Regmatch)} (hbegin : ¬ ∃ pat', pat = .begin :: pat')
    (hknown : ¬ ∃ pat', pat = .indeterminate :: pat')
    (h : search string nsub pat string 0 = .ok r) (st : Found) :
    tryAlt string nsub pat st =
      .ok (r.1.elim { st with caps := r.2 } fun m => ⟨m.1, m.2, r.2⟩) := by
  rw [tryAlt, h]
  · rcases r with ⟨_ | m, caps⟩ <;> rfl
  · exact fun pat' hpat => hknown ⟨pat', hpat⟩
  · exact fun pat' hpat => hbegin ⟨pat', hpat⟩

theorem tryAlt_of_error {string : List UInt8} {nsub : ℕ} {pat : List Token} {f : Fault}
    (hbegin : ¬ ∃ pat', pat = .begin :: pat') (hknown : ¬ ∃ pat', pat = .indeterminate :: pat')
    (h : search string nsub pat string 0 = .error f) (st : Found) :
    tryAlt string nsub pat st = .error f := by
  rw [tryAlt, h]
  · rfl
  · exact fun pat' hpat => hknown ⟨pat', hpat⟩
  · exact fun pat' hpat => hbegin ⟨pat', hpat⟩

/-- The loop over the alternatives, which ends at the first one that is found. -/
def tryAlts (string : List UInt8) (nsub : ℕ) : List (List Token) → Found → Except Fault Found
  | [], st => .ok st
  | pat :: alts, st =>
    if st.pos < 0 then do
      let st ← tryAlt string nsub pat st
      tryAlts string nsub alts st
    else .ok st

def REG_NOMATCH : ℤ := 1

/-- What `regexec` returns, and what it stores in `pmatch`, from index zero on. -/
structure Executed where
  ret : ℤ
  pmatch : List Regmatch
  deriving DecidableEq

/-- `regexec`. -/
def regexec (preg : Preg) (string : List UInt8) (nmatch : ℕ) : Except Fault Executed := do
  let st ← tryAlts string preg.nsub preg.alts ⟨-1, 0, clearCaps preg.nsub⟩
  if st.pos < 0 then return ⟨REG_NOMATCH, []⟩
  else if 0 < nmatch ∧ INT_MAX < st.pos + st.len then .error .overflow
  else
    let all := ⟨st.pos, st.pos + st.len⟩ :: (st.caps.getD []).drop 1
    return ⟨0, all.take nmatch⟩

end Vlibc.Regex
