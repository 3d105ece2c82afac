import Mathlib.Data.Nat.Notation

/-!
# Character classes

The classification macros of `ctype.h` and the table of `ctype.c` that they read. A character of
128 or more is in no class.
-/

namespace Vlibc.Ctype

def UPPER : UInt8 := 0x01

def LOWER : UInt8 := 0x02

def DIGIT : UInt8 := 0x04

def SPACE : UInt8 := 0x08

def XDIGIT : UInt8 := 0x10

def CNTRL : UInt8 := 0x20

def PUNCT : UInt8 := 0x40

def BLANK : UInt8 := 0x80

/-- `__ctype_table`, from zero on. -/
def table : List UInt8 :=
  .replicate 9 CNTRL ++ [CNTRL ||| SPACE ||| BLANK] ++ .replicate 4 (CNTRL ||| SPACE) ++
    .replicate 18 CNTRL ++
  [SPACE ||| BLANK] ++ .replicate 15 PUNCT ++
  .replicate 10 (DIGIT ||| XDIGIT) ++ .replicate 7 PUNCT ++
  .replicate 6 (UPPER ||| XDIGIT) ++ .replicate 20 UPPER ++ .replicate 6 PUNCT ++
  .replicate 6 (LOWER ||| XDIGIT) ++ .replicate 20 LOWER ++ .replicate 4 PUNCT ++ [CNTRL]

/-- `__ctype_isflag`. -/
def isflag (c flag : UInt8) : Bool := c < 128 ∧ table.getD c.toNat 0 &&& flag ≠ 0

def isalpha (c : UInt8) : Bool := isflag c (UPPER ||| LOWER)

def isdigit (c : UInt8) : Bool := isflag c DIGIT

def isalnum (c : UInt8) : Bool := isflag c (UPPER ||| LOWER ||| DIGIT)

def isspace (c : UInt8) : Bool := isflag c SPACE

def isupper (c : UInt8) : Bool := isflag c UPPER

def islower (c : UInt8) : Bool := isflag c LOWER

def isxdigit (c : UInt8) : Bool := isflag c XDIGIT

def iscntrl (c : UInt8) : Bool := isflag c CNTRL

def ispunct (c : UInt8) : Bool := isflag c PUNCT

def isgraph (c : UInt8) : Bool := isflag c (UPPER ||| LOWER ||| DIGIT ||| PUNCT)

def isprint (c : UInt8) : Bool := isflag c (UPPER ||| LOWER ||| DIGIT ||| PUNCT ||| SPACE)

def tolower (c : UInt8) : UInt8 := if isupper c then c + (97 - 65) else c

theorem forall_byte {p : UInt8 → Prop} [DecidablePred p]
    (h : ((List.range 256).all fun n => decide (p (.ofNat n))) = true) (c : UInt8) : p c := by
  simpa using List.all_eq_true.1 h c.toNat (List.mem_range.2 c.toNat_lt)

end Vlibc.Ctype
