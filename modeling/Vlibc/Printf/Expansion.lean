import Vlibc.Printf.Format

/-!
# The expansion of a format

The formatter never looks at what it has written: the characters it passes to `out_char` depend on
the format and the arguments only (`format_eq`). They are the `expansion` of the format.
-/

namespace Vlibc.Printf

open List

open Stdio (toInt)

variable {σ : Type*} {out : σ → UInt8 → σ} {o : σ} {d : Directive} {args : List Arg}
  {fmt p : List UInt8}

theorem toInt_of_lt {w : ℕ} (h : w < 2 ^ 31) : toInt w = w := by
  unfold toInt
  rw [Int.bmod_def]
  split <;> omega

/-- `out_char` onto a text that has room for everything. -/
def snoc (l : List UInt8) (c : UInt8) : List UInt8 := l ++ [c]

/-- The characters a format and its arguments expand to. -/
def expansion (fmt : List UInt8) (args : List Arg) : Option (List UInt8) :=
  format snoc [] fmt args

theorem outStr_append (a b : List UInt8) :
    outStr out o (a ++ b) = outStr out (outStr out o a) b :=
  foldl_append

theorem outStr_snoc (l xs : List UInt8) : outStr snoc l xs = l ++ xs := by
  induction xs generalizing l with
  | nil => simp [outStr]
  | cons x xs ih =>
    change outStr snoc (snoc l x) xs = l ++ x :: xs
    rw [ih, snoc, append_assoc]
    rfl

/-! ## Every part writes a text of its own -/

/-- A part of the formatter writes a text, the same whatever it writes to. -/
def Writes (F : (σ : Type) → (σ → UInt8 → σ) → σ → Option σ) : Prop :=
  ∃ r : Option (List UInt8), ∀ (σ : Type) (out : σ → UInt8 → σ) (o : σ),
    F σ out o = r.map (outStr out o)

theorem writes_str (xs : List UInt8) : Writes fun _ out o => some (outStr out o xs) :=
  ⟨some xs, fun _ _ _ => rfl⟩

variable {F : (σ : Type) → (σ → UInt8 → σ) → σ → Option σ}

theorem Writes.cons (h : Writes F)
    (xs : List UInt8) : Writes fun σ out o => F σ out (outStr out o xs) := by
  obtain ⟨r, hr⟩ := h
  refine ⟨r.map fun zs => xs ++ zs, fun σ out o => ?_⟩
  change F σ out (outStr out o xs) = _
  rw [hr, Option.map_map]
  congr 1
  funext zs
  exact (outStr_append xs zs).symm

/-- One part behind another. -/
theorem Writes.bind {G : (σ : Type) → (σ → UInt8 → σ) → σ → Option σ} (hF : Writes F)
    (hG : Writes G) : Writes fun σ out o => (F σ out o).bind (G σ out) := by
  obtain ⟨r, hr⟩ := hF
  cases r with
  | none => exact ⟨none, fun σ out o => by simp only [hr, Option.map_none, Option.bind_none]⟩
  | some xs =>
    obtain ⟨r', hr'⟩ := hG.cons xs
    refine ⟨r', fun σ out o => ?_⟩
    simp only [hr, Option.map_some, Option.bind_some]
    exact hr' σ out o

theorem Writes.withArgs (h : Writes F)
    (args : List Arg) :
    ∃ r : Option (List UInt8 × List Arg), ∀ (σ : Type) (out : σ → UInt8 → σ) (o : σ),
      (F σ out o).map (fun o => (o, args)) = r.map fun (xs, args) => (outStr out o xs, args) := by
  obtain ⟨r, hr⟩ := h
  refine ⟨r.map fun xs => (xs, args), fun σ out o => ?_⟩
  rw [hr, Option.map_map, Option.map_map]
  rfl

theorem putString_writes (d : Directive) (s : List UInt8) :
    Writes fun _ out o => putString out o d s := by
  unfold putString
  dsimp only
  generalize (if 0 ≤ d.precision ∧ d.precision.toNat < s.length then d.precision.toNat
    else s.length) = slen
  split
  · split
    · exact ⟨none, fun σ out o => rfl⟩
    · split
      · exact (writes_str _).cons (s.take slen)
      · exact (writes_str (s.take slen)).cons _
  · exact writes_str _

theorem putNumber_writes (d : Directive) (n : Number) :
    Writes fun _ out o => putNumber out o d n := by
  unfold putNumber
  dsimp only
  split
  · exact ⟨none, fun σ out o => rfl⟩
  · exact (((((((writes_str _).cons _).cons _).cons _).cons _).cons _).cons _)

theorem putOther_writes (spec : UInt8) :
    Writes fun _ out o => some (putOther out o spec) := by
  by_cases h : spec = 0
  · exact ⟨some ['%'.toUInt8], fun σ out o => by simp [putOther, h, outStr]⟩
  · exact ⟨some ['%'.toUInt8, spec], fun σ out o => by simp [putOther, h, outStr]⟩

theorem convert_writes (d : Directive) (args : List Arg) :
    ∃ r : Option (List UInt8 × List Arg), ∀ (σ : Type) (out : σ → UInt8 → σ) (o : σ),
      convert out o d args = r.map fun (xs, args) => (outStr out o xs, args) := by
  unfold convert
  split
  · split
    · exact ⟨none, fun σ out o => rfl⟩
    · next s args' _ =>
      exact ((putString_writes d s).bind (putNumber_writes d { buf := [] })).withArgs args'
  · split
    · exact ⟨none, fun σ out o => rfl⟩
    · exact (putOther_writes d.spec).withArgs args
    · next n args' _ => exact (putNumber_writes d n).withArgs args'

/-- By induction on the rounds of the loop. -/
theorem formatLoop_writes (fuel : ℕ) (p : List UInt8) (args : List Arg) :
    Writes fun _ out o => formatLoop out fuel o p args := by
  induction fuel generalizing p args with
  | zero => exact ⟨none, fun σ out o => rfl⟩
  | succ fuel ih =>
    cases p with
    | nil => exact ⟨none, fun σ out o => rfl⟩
    | cons c p =>
      unfold formatLoop
      split
      · exact ⟨some [], fun σ out o => rfl⟩
      split
      · exact (ih p args).cons [c]
      split
      · exact (ih p.tail args).cons ['%'.toUInt8]
      split
      · exact ⟨none, fun σ out o => rfl⟩
      next d p' _ =>
      obtain ⟨r, hr⟩ := convert_writes d args
      cases r with
      | none => exact ⟨none, fun σ out o => by simp [hr]⟩
      | some res =>
        obtain ⟨r', hr'⟩ := (ih p' res.2).cons res.1
        exact ⟨r', fun σ out o => by simpa [hr] using hr' σ out o⟩

/-- **The formatter writes the expansion**, whatever it writes to. -/
theorem format_eq {σ : Type} (out : σ → UInt8 → σ) (o : σ) (fmt : List UInt8)
    (args : List Arg) : format out o fmt args = (expansion fmt args).map (outStr out o) := by
  obtain ⟨r, hr⟩ := formatLoop_writes fmt.length fmt args
  have hexp : expansion fmt args = r := by
    have := hr (List UInt8) snoc []
    cases r with
    | none => exact this
    | some xs =>
      rw [Option.map_some, outStr_snoc, nil_append] at this
      exact this
  rw [hexp]
  exact hr σ out o

section memory

variable {o : Out} {xs : List UInt8} {i : ℕ}

theorem outStr_pos : (outStr Out.char o xs).pos = o.pos + xs.length := by
  induction xs generalizing o with
  | nil => rfl
  | cons x xs ih =>
    change (outStr Out.char (o.char x) xs).pos = _
    rw [ih, length_cons]
    change o.pos + 1 + xs.length = _
    omega

theorem outStr_size : (outStr Out.char o xs).size = o.size := by
  induction xs generalizing o with
  | nil => rfl
  | cons x xs ih => exact ih

theorem outStr_dst_of_or (hi : i < o.pos ∨ o.size ≤ i + 1) :
    (outStr Out.char o xs).dst i = o.dst i := by
  induction xs generalizing o with
  | nil => rfl
  | cons x xs ih =>
    change (outStr Out.char (o.char x) xs).dst i = o.dst i
    rw [ih (o := o.char x) (hi.imp_left Nat.lt_succ_of_lt)]
    unfold Out.char
    split
    · exact Function.update_of_ne (by omega) _ _
    · rfl

theorem outStr_dst {j : ℕ} (hj : j < xs.length) (hroom : o.pos + j + 1 < o.size) :
    (outStr Out.char o xs).dst (o.pos + j) = xs[j] := by
  induction xs generalizing o j with
  | nil => simp at hj
  | cons x xs ih =>
    change (outStr Out.char (o.char x) xs).dst (o.pos + j) = _
    cases j with
    | zero =>
      rw [outStr_dst_of_or (.inl (by simp [Out.char]))]
      simp [Out.char, show o.pos + 1 < o.size by omega]
    | succ j =>
      have h := ih (o := o.char x) (Nat.lt_of_succ_lt_succ hj)
        (by change o.pos + 1 + j + 1 < o.size; omega)
      rw [show o.pos + (j + 1) = (o.char x).pos + j by change _ = o.pos + 1 + j; omega, h]
      rfl

end memory

end Vlibc.Printf
