import Vlibc.Ctype
import Vlibc.Printf.Format

/-!
# Compiling a regular expression

`regcomp` of `regex.c`. It rewrites the text of the pattern twice, first the repetitions `{m,n}`
into copies (`expandRanges`), then the alternatives of groups into a list of patterns without `|`
(`expandAlts`), and compiles each of these to a list of tokens (`compileSingle`).

A place in a string is the list of the bytes from there to the terminator. Memory is granted
whenever it is asked for, and `size_t` holds every size. What the source leaves undefined is a
`Fault`: reading behind the terminator, an `int` that overflows, and, in `Match.lean`, a token that
was never written and an index out of the captures. Bytes whose value is only unspecified are a
parameter (`Junk`).
-/

namespace Vlibc.Regex

open Ctype
open Printf (INT_MAX)

/-- Behaviour that is not defined. -/
inductive Fault
  | overread
  | overflow
  | indeterminate
  | capture (group : ℕ)
  deriving DecidableEq

/-- The bytes of a text. -/
def bytes (s : String) : List UInt8 := s.toList.map Char.toUInt8

/-- `QUESTION`, `STAR` and `PLUS`. -/
inductive Quant
  | question
  | star
  | plus
  deriving DecidableEq

/-- The tokens that `matchone` knows. A class has the byte that stands before its text. -/
inductive Single
  | dot
  | char (ch : UInt8)
  | charClass (before : UInt8) (ccl : List UInt8)
  | invCharClass (before : UInt8) (ccl : List UInt8)
  | digit
  | notDigit
  | alpha
  | notAlpha
  | space
  | notSpace
  deriving DecidableEq

/-- `struct token`. `UNUSED` is the end of the list. A quantifier has the byte that is in `u.ch`,
which is not written; `indeterminate` is a token whose type is not written. -/
inductive Token
  | begin
  | end_
  | quant (q : Quant) (ch : UInt8)
  | single (t : Single)
  | capOpen (group : ℕ)
  | capClose (group : ℕ)
  | backref (group : ℕ)
  | indeterminate
  deriving DecidableEq

/-- Bytes of the memory of one alternative that are not written: `ccl[0]`, and `u.ch` of the token
`j`. -/
structure Junk where
  ccl : UInt8
  ch : ℕ → UInt8

/-- Bytes that happen to be zero, in every alternative. -/
def zeroJunk : ℕ → Junk := fun _ => ⟨0, fun _ => 0⟩

/-! ## `compile_single` -/

/-- Where the scan of a bracket is: between its elements, behind a backslash, inside `[:`, or before
the `]` of `:]`. -/
inductive Mode
  | element
  | escaped
  | name
  | nameEnd
  deriving DecidableEq

/-- The scan of a bracket: what is copied to `ccl`, and the text behind the `]`. There is no such
text if the terminator ends the scan; inside `[:` the scan then goes on behind it. -/
def scanClass : Mode → List UInt8 → Except Fault (List UInt8 × Option (List UInt8))
  | .name, [] => .error .overread
  | _, [] => .ok ([], none)
  | mode, c :: s =>
    if mode = .element ∧ c = ']'.toUInt8 then .ok ([], some s)
    else do
      let next : Mode := match mode with
        | .element =>
          if c = '\\'.toUInt8 ∧ s ≠ [] then .escaped
          else if c = '['.toUInt8 ∧ s.head? = some ':'.toUInt8 then .name
          else .element
        | .name => if c = ':'.toUInt8 ∧ s.head? = some ']'.toUInt8 then .nameEnd else .name
        | .escaped => .element
        | .nameEnd => .element
      let r ← scanClass next s
      return (c :: r.1, r.2)

/-- The token of an escape. -/
def escapeToken (c : UInt8) : Token :=
  if '1'.toUInt8 ≤ c ∧ c ≤ '9'.toUInt8 then .backref (c - '0'.toUInt8).toNat
  else if c = 'd'.toUInt8 then .single .digit
  else if c = 'D'.toUInt8 then .single .notDigit
  else if c = 'w'.toUInt8 then .single .alpha
  else if c = 'W'.toUInt8 then .single .notAlpha
  else if c = 's'.toUInt8 then .single .space
  else if c = 'S'.toUInt8 then .single .notSpace
  else .single (.char c)

/-- What the loop of `compile_single` has besides the place in the pattern and the tokens. -/
structure Progress where
  cclIdx : ℕ
  stack : List ℕ
  groups : ℕ

/-- One pass of the loop at the character `c`: the token `j`, the place behind it, which may be
behind the terminator (`none`), and the progress. -/
def compileStep (junk : Junk) (j : ℕ) (st : Progress) (c : UInt8) (s : List UInt8) :
    Except Fault (Token × Option (List UInt8) × Progress) :=
  if c = '^'.toUInt8 then .ok (.begin, some s, st)
  else if c = '$'.toUInt8 then .ok (.end_, some s, st)
  else if c = '.'.toUInt8 then .ok (.single .dot, some s, st)
  else if c = '*'.toUInt8 then .ok (.quant .star (junk.ch j), some s, st)
  else if c = '+'.toUInt8 then .ok (.quant .plus (junk.ch j), some s, st)
  else if c = '?'.toUInt8 then .ok (.quant .question (junk.ch j), some s, st)
  else if c = '\\'.toUInt8 then
    match s with
    | [] => .ok (.indeterminate, some [], st)
    | d :: s => .ok (escapeToken d, some s, st)
  else if c = '('.toUInt8 then
    if st.groups < 9 then
      .ok (.capOpen (st.groups + 1), some s,
        { st with groups := st.groups + 1, stack := (st.groups + 1) :: st.stack })
    else .ok (.single (.char c), some s, st)
  else if c = ')'.toUInt8 then
    match st.stack with
    | id :: stack => .ok (.capClose id, some s, { st with stack := stack })
    | [] => .ok (.single (.char c), some s, st)
  else if c = '['.toUInt8 then do
    let before := if st.cclIdx = 1 then junk.ccl else 0
    let inv := s.head? = some '^'.toUInt8
    let r ← scanClass .element (if inv then s.tail else s)
    let token := if inv then .invCharClass before r.1 else .charClass before r.1
    return (.single token, r.2, { st with cclIdx := st.cclIdx + r.1.length + 1 })
  else .ok (.single (.char c), some s, st)

/-- The loop of `compile_single`, with room for `room` more tokens: the tokens and the number of
groups. -/
def compileLoop (junk : Junk) (len : ℕ) : (room j : ℕ) → Progress → Option (List UInt8) →
    Except Fault (List Token × ℕ)
  | _, _, _, none => .error .overread
  | _, _, st, some [] => .ok ([], st.groups)
  | 0, _, st, some (_ :: _) => .ok ([], st.groups)
  | room + 1, j, st, some (c :: s) => do
    let r ← compileStep junk j st c s
    let st := r.2.2
    if len * 2 ≤ st.cclIdx + 1 then return ([r.1], st.groups)
    else
      let rest ← compileLoop junk len room (j + 1) st r.2.1
      return (r.1 :: rest.1, rest.2)

/-- `compile_single`: the tokens of a pattern and the number of its groups. There is room for
`8 * len + 1` tokens. -/
def compileSingle (junk : Junk) (pattern : List UInt8) : Except Fault (List Token × ℕ) :=
  compileLoop junk pattern.length (8 * pattern.length - 1) 0 ⟨1, [], 0⟩ (some pattern)

/-! ## `expand_ranges` -/

/-- The end of a bracket as the expansions see it: its first `]` that no backslash stands before. -/
def bracketEnd : (escaped : Bool) → List UInt8 → List UInt8 × List UInt8
  | _, [] => ([], [])
  | true, c :: s => let r := bracketEnd false s; (c :: r.1, r.2)
  | false, c :: s =>
    if c = ']'.toUInt8 then ([c], s)
    else let r := bracketEnd (c = '\\'.toUInt8 ∧ s ≠ []) s; (c :: r.1, r.2)

/-- The end of a group: the `)` of the `(` that `depth` counts. -/
def groupEnd : (depth : ℕ) → (escaped : Bool) → List UInt8 → List UInt8 × List UInt8
  | 0, _, s => ([], s)
  | _ + 1, _, [] => ([], [])
  | depth + 1, true, c :: s => let r := groupEnd (depth + 1) false s; (c :: r.1, r.2)
  | depth + 1, false, c :: s =>
    let r :=
      if c = '\\'.toUInt8 ∧ s ≠ [] then groupEnd (depth + 1) true s
      else if c = '('.toUInt8 then groupEnd (depth + 2) false s
      else if c = ')'.toUInt8 then groupEnd depth false s
      else groupEnd (depth + 1) false s
    (c :: r.1, r.2)

/-- The item that a pattern begins with, and what follows it: an escape, a bracket, a group or a
character. -/
def nextItem : List UInt8 → List UInt8 × List UInt8
  | [] => ([], [])
  | c :: s =>
    if c = '\\'.toUInt8 ∧ s ≠ [] then (c :: s.take 1, s.tail)
    else if c = '['.toUInt8 then let r := bracketEnd false s; (c :: r.1, r.2)
    else if c = '('.toUInt8 then let r := groupEnd 1 false s; (c :: r.1, r.2)
    else ([c], s)

/-- The loops over the digits of a repetition. -/
def readInt (m : ℕ) : List UInt8 → Except Fault (ℕ × List UInt8)
  | [] => .ok (m, [])
  | c :: s =>
    if isdigit c then
      let m' := m * 10 + (c - '0'.toUInt8).toNat
      if (m' : ℤ) ≤ INT_MAX then readInt m' s else .error .overflow
    else .ok (m, c :: s)

/-- How often an item is repeated: `m` to `n` times, or `m` times and more. -/
structure Range where
  m : ℕ
  n : Option ℕ

/-- The range that a text begins with, if it does, and what follows it. -/
def parseRange (s : List UInt8) : Except Fault (Option Range × List UInt8) :=
  if s.head? = some '{'.toUInt8 ∧ s.tail.head?.any isdigit then do
    let r ← readInt 0 s.tail
    if r.2.head? = some ','.toUInt8 then
      if r.2.tail.head? = some '}'.toUInt8 then return (some ⟨r.1, none⟩, r.2.tail.tail)
      else
        let q ← readInt 0 r.2.tail
        if q.2.head? = some '}'.toUInt8 then return (some ⟨r.1, some q.1⟩, q.2.tail)
        else return (none, s)
    else if r.2.head? = some '}'.toUInt8 then return (some ⟨r.1, some r.1⟩, r.2.tail)
    else return (none, s)
  else .ok (none, s)

/-- What is written for an item with a range. -/
def copies (item : List UInt8) : Option Range → List UInt8
  | some ⟨m, none⟩ => (List.replicate (m + 1) item).flatten ++ ['*'.toUInt8]
  | some ⟨m, some n⟩ =>
    if m ≤ n then
      (List.replicate m item).flatten ++ (List.replicate (n - m) (item ++ ['?'.toUInt8])).flatten
    else item
  | none => item

def SIZE_MAX : ℕ := 2 ^ 64 - 1

/-- The capacity of the buffer after room was made for `need` bytes behind `o`. -/
def ensureCapacity (o need cap : ℕ) : Option ℕ :=
  if cap ≤ o + need + 1 then
    if SIZE_MAX / 2 < cap ∨ SIZE_MAX - cap - 1 < need then none
    else if SIZE_MAX / 2 < cap + need + 1 then none
    else some ((cap + need + 1) * 2)
  else some cap

/-- The loop of `expand_ranges`. Each pass takes an item, so that `fuel` is the length of the
pattern. -/
def expandLoop : (fuel : ℕ) → (pat out : List UInt8) → (cap : ℕ) →
    Except Fault (Option (List UInt8))
  | 0, _, out, _ => .ok (some out)
  | _ + 1, [], out, _ => .ok (some out)
  | fuel + 1, c :: s, out, cap => do
    let item := nextItem (c :: s)
    let r ← parseRange item.2
    -- `m + 1` is computed in `int`
    if r.1.any (fun range => range.n = none ∧ INT_MAX < range.m + 1) then throw .overflow
    else
      let piece := copies item.1 r.1
      match ensureCapacity out.length piece.length cap with
      | none => return none
      | some cap => expandLoop fuel r.2 (out ++ piece) cap

/-- `expand_ranges`. -/
def expandRanges (pat : List UInt8) : Except Fault (Option (List UInt8)) :=
  expandLoop pat.length pat [] (pat.length * 4 + 1)

/-- The first segment gets `c` at its front. -/
def consHead (c : UInt8) : List (List UInt8) → List (List UInt8)
  | [] => [[c]]
  | seg :: segs => (c :: seg) :: segs

/-- The segments between the `|` that stand outside brackets and groups. -/
def splitAlts : (escaped cls : Bool) → (level : ℕ) → List UInt8 → List (List UInt8)
  | _, _, _, [] => [[]]
  | true, cls, level, c :: s => consHead c (splitAlts false cls level s)
  | false, cls, level, c :: s =>
    if c = '\\'.toUInt8 ∧ s ≠ [] then consHead c (splitAlts true cls level s)
    else if cls then consHead c (splitAlts false (c ≠ ']'.toUInt8) level s)
    else if c = '['.toUInt8 then consHead c (splitAlts false true level s)
    else if c = '('.toUInt8 then consHead c (splitAlts false false (level + 1) s)
    else if c = ')'.toUInt8 ∧ 0 < level then consHead c (splitAlts false false (level - 1) s)
    else if c = '|'.toUInt8 ∧ level = 0 then [] :: splitAlts false false level s
    else consHead c (splitAlts false false level s)

/-- The loop over the items of a pattern without `|` outside: every alternative of a group gives a
copy of every text so far. -/
def expandGroups (expand : List UInt8 → List (List UInt8)) : (fuel : ℕ) → (pat : List UInt8) →
    (cur : List (List UInt8)) → List (List UInt8)
  | 0, _, cur => cur
  | _ + 1, [], cur => cur
  | fuel + 1, c :: s, cur =>
    let item := nextItem (c :: s)
    if c = '('.toUInt8 then
      -- the text between the parentheses, or one byte less of it if there is no second one
      let sub := expand (s.take (item.1.length - 2))
      expandGroups expand fuel item.2 (cur.flatMap fun k => sub.map fun m =>
        k ++ '('.toUInt8 :: m ++ [')'.toUInt8])
    else expandGroups expand fuel item.2 (cur.map (· ++ item.1))

/-- `expand_alts`. The recursion is on shorter texts, and `fuel` is a bound for its depth. -/
def expandAlts : (fuel : ℕ) → List UInt8 → List (List UInt8)
  | 0, _ => []
  | fuel + 1, pat =>
    let seg := splitAlts false false 0 pat
    if 1 < seg.length then seg.flatMap (expandAlts fuel)
    else expandGroups (expandAlts fuel) pat.length pat [[]]

/-- `regex_t`. -/
structure Preg where
  alts : List (List Token)
  nsub : ℕ
  deriving DecidableEq

/-- The loop over the alternatives, from the one with number `a` on; `groups` is that of the one
before. -/
def compileAlts (junk : ℕ → Junk) : (a groups : ℕ) → List (List UInt8) → Except Fault Preg
  | _, groups, [] => .ok ⟨[], groups⟩
  | a, _, alt :: alts => do
    let r ← compileSingle (junk a) alt
    let rest ← compileAlts junk (a + 1) r.2 alts
    return ⟨r.1 :: rest.alts, rest.nsub⟩

/-- `regcomp`. It fails (`none`) if the pattern would become too long. -/
def regcomp (junk : ℕ → Junk) (pattern : List UInt8) : Except Fault (Option Preg) := do
  match ← expandRanges pattern with
  | none => return none
  | some expanded =>
    let alts := expandAlts (expanded.length + 1) expanded
    if alts = [] then return none
    else
      let preg ← compileAlts junk 0 0 alts
      return some preg

end Vlibc.Regex
