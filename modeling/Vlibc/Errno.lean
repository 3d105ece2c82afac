import Mathlib.Data.Nat.Notation

/-!
# Error numbers

The values of `errno` that the modelled functions store or return.
-/

namespace Vlibc

def EPERM : ℕ := 1

def EINTR : ℕ := 4

def EIO : ℕ := 5

def E2BIG : ℕ := 7

def EAGAIN : ℕ := 11

def ENOMEM : ℕ := 12

def EBUSY : ℕ := 16

def EINVAL : ℕ := 22

def ENOSPC : ℕ := 28

def ERANGE : ℕ := 34

def EILSEQ : ℕ := 86

def EAFNOSUPPORT : ℕ := 97

def ETIMEDOUT : ℕ := 110

end Vlibc
