import Vlibc.Printf.Truncation
import Vlibc.Wprintf.Format

/-!
# Reads of the format

The loops of `vsnprintf_impl` and `vswprintf_impl` increment the pointer into the format behind
every conversion character. It leads out of exactly the formats that end inside a conversion
specification.
-/

namespace Vlibc.Printf

open Stdio Relation

theorem within_of_vsnprintf {f : List UInt8} {args : List Arg} {str : ℕ → UInt8} {size : ℕ}
    {r : (ℕ → UInt8) × ℤ} {m : ℕ → UInt8} (hf : 0 ∉ f) (hm : Lies m 0 (f ++ [0]))
    (h : vsnprintf str size (f ++ [0]) args = some r) :
    scanner.Within m f.length .text 0 := by
  have hpieces : (grammar.pieces f).isSome := by
    by_contra hnone
    rw [Option.not_isSome_iff_eq_none] at hnone
    simp [vsnprintf, format_eq, expansion_of_inside hf hnone] at h
  have hiff := scanner_follows.within_iff hf hm
  rw [zero_add] at hiff
  exact hiff.2 hpieces

theorem within_of_vswprintf {f : List UInt32} {args : List Wprintf.Arg} {str : ℕ → UInt32}
    {size : ℕ} {r : (ℕ → UInt32) × ℤ} {m : ℕ → UInt32} (hf : 0 ∉ f) (hm : Lies m 0 (f ++ [0]))
    (h : Wprintf.vswprintf str size (f ++ [0]) args = some r) :
    Wprintf.scanner.Within m f.length .text 0 := by
  have hpieces : (Wprintf.grammar.pieces f).isSome := by
    by_contra hnone
    rw [Option.not_isSome_iff_eq_none] at hnone
    exact absurd (h.symm.trans (Wprintf.vswprintf_of_inside str size hf hnone)) (by simp)
  have hiff := Wprintf.scanner_follows.within_iff hf hm
  rw [zero_add] at hiff
  exact hiff.2 hpieces

/-- **The formatters read nothing behind the terminator of their format if and only if the format
does not end inside a conversion specification.** A format lies in memory with its terminator, and
anything may lie behind it. -/
theorem format_reads_within_iff {f : List UInt8} {g : List UInt32} {m : ℕ → UInt8} {w : ℕ → UInt32}
    (hf : 0 ∉ f) (hm : Lies m 0 (f ++ [0])) (hg : 0 ∉ g) (hw : Lies w 0 (g ++ [0])) :
    (scanner.Within m f.length .text 0 ↔ (grammar.pieces f).isSome) ∧
      (Wprintf.scanner.Within w g.length .text 0 ↔ (Wprintf.grammar.pieces g).isSome) := by
  have hnarrow := scanner_follows.within_iff hf hm
  have hwide := Wprintf.scanner_follows.within_iff hg hw
  rw [zero_add] at hnarrow hwide
  exact ⟨hnarrow, hwide⟩

/-- The formats `%d`, with other characters behind them. -/
theorem format_reads_within_iff_complete :
    scanner.Within (fun i => [37, 100, 0].getD i 7) 2 .text 0 ∧
      Wprintf.scanner.Within (fun i => [37, 100, 0].getD i 7) 2 .text 0 := by
  have h := format_reads_within_iff (f := [37, 100]) (g := [37, 100])
    (m := fun i => [37, 100, 0].getD i 7) (w := fun i => [37, 100, 0].getD i 7) (by decide)
    ⟨rfl, rfl, rfl, trivial⟩ (by decide) ⟨rfl, rfl, rfl, trivial⟩
  exact ⟨h.1.2 (by decide +kernel), h.2.2 (by decide +kernel)⟩

/-- The format `%`: the terminator is at 1, and 2 is read, by both formatters. -/
theorem format_reads_past_terminator :
    Relation.ReflTransGen (scanner.Next fun i => [37, 0].getD i 7) (.text, 0) (.text, 2) ∧
      Relation.ReflTransGen (Wprintf.scanner.Next fun i => [37, 0].getD i 7) (.text, 0)
        (.text, 2) := by
  constructor
  · apply ReflTransGen.head (b := (.marked, 1)) ⟨true, rfl, rfl⟩
    apply ReflTransGen.head (b := (.flags, 1)) ⟨false, rfl, rfl⟩
    apply ReflTransGen.head (b := (.width, 1)) ⟨false, rfl, rfl⟩
    apply ReflTransGen.head (b := (.length, 1)) ⟨false, rfl, rfl⟩
    apply ReflTransGen.head (b := (.conv, 1)) ⟨false, rfl, rfl⟩
    exact .single ⟨true, rfl, rfl⟩
  · apply ReflTransGen.head (b := (.marked, 1)) ⟨true, rfl, rfl⟩
    apply ReflTransGen.head (b := (.width, 1)) ⟨false, rfl, rfl⟩
    apply ReflTransGen.head (b := (.conv, 1)) ⟨false, rfl, rfl⟩
    exact .single ⟨true, rfl, rfl⟩

end Vlibc.Printf
