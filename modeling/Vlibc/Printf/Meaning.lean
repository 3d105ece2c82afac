import Vlibc.Printf.Expansion
import Vlibc.Printf.Syntax

/-!
# The meaning of formats

What the pieces of a format stand for, with numbers of any size: `fullExpansion`. Where its length
fits in `int`, the formatter writes the full expansion (`expansion_of_full`). On a format that ends
inside a conversion specification it reads behind the terminator (`expansion_of_inside`).
-/

namespace Vlibc.Printf

open List Option Number

open Stdio (toInt)

/-- The part of a string that the precision leaves. -/
def cut (precision : ℤ) (s : List UInt8) : List UInt8 :=
  if 0 ≤ precision then s.take precision.toNat else s

/-- A string, cut to the precision and padded to the width. -/
def stringText (d : Directive) (s : List UInt8) : List UInt8 :=
  let body := cut d.precision s
  let pad := d.width.toNat - body.length
  if d.flags.left then body ++ List.replicate pad ' '.toUInt8
  else List.replicate pad (if d.flags.zero then '0' else ' ').toUInt8 ++ body

/-- The sign and the prefix. -/
def Number.lead (n : Number) : List UInt8 := n.signChar.toList ++ n.pre

/-- The digits, with zeros before them up to the precision. -/
def Number.digits (n : Number) (precision : ℤ) : List UInt8 :=
  List.replicate (precision.toNat - n.buf.length) '0'.toUInt8 ++ n.buf

/-- A number, with its sign and prefix, padded to the width. -/
def numberText (d : Directive) (n : Number) : List UInt8 :=
  let digits := n.digits d.precision
  let pad := d.width.toNat - (n.lead.length + digits.length)
  if d.flags.left then n.lead ++ digits ++ List.replicate pad ' '.toUInt8
  else if d.flags.zero ∧ d.precision < 0 then n.lead ++ List.replicate pad '0'.toUInt8 ++ digits
  else List.replicate pad ' '.toUInt8 ++ n.lead ++ digits

/-- The text of a conversion, and the arguments it leaves. Behind a string comes the text of a number
without digits: the padding once more, and the zeros of the precision. -/
def Directive.text (d : Directive) (args : List Arg) : Option (List UInt8 × List Arg) :=
  if d.spec = 's'.toUInt8 then
    (vaStr args).map fun (s, args) => (stringText d s ++ numberText d { buf := [] }, args)
  else
    match d.number args with
    | none => none
    | some none => some (['%'.toUInt8, d.spec], args)
    | some (some (n, args)) => some (numberText d n, args)

/-- The text of a list of pieces. -/
def textOf : List (Piece UInt8 Spec) → List Arg → Option (List UInt8)
  | [], _ => some []
  | .char c :: ps, args => (textOf ps args).map (c :: ·)
  | .spec s c :: ps, args =>
    match (s.directive c).text args with
    | none => none
    | some (xs, args) => (textOf ps args).map (xs ++ ·)

/-- The full expansion of a format, which comes without its terminator: none if the format ends
inside a conversion specification or the arguments do not match it. -/
def fullExpansion (f : List UInt8) (args : List Arg) : Option (List UInt8) :=
  (grammar.pieces f).bind (textOf · args)

/-- The widths and precisions of a format are values of `int`. -/
def WidthsFit (f : List UInt8) : Prop :=
  ∀ ps ∈ grammar.pieces f, ∀ q ∈ ps, PieceFits q

instance (f : List UInt8) : Decidable (WidthsFit f) :=
  inferInstanceAs (Decidable (∀ ps ∈ grammar.pieces f, ∀ q ∈ ps, PieceFits q))

/-! ## The formatter writes the meaning -/

variable {d : Directive} {args args' : List Arg} {xs : List UInt8}

theorem length_numberText (d : Directive) (n : Number) :
    (numberText d n).length =
      max d.width.toNat (n.lead.length + max d.precision.toNat n.buf.length) := by
  unfold numberText digits
  split_ifs <;> simp only [length_append, length_replicate] <;> omega

theorem length_stringText (d : Directive) (s : List UInt8) :
    (stringText d s).length = max d.width.toNat (cut d.precision s).length := by
  unfold stringText
  split <;> simp only [length_append, length_replicate] <;> omega

theorem take_length_cut (precision : ℤ) (s : List UInt8) :
    s.take (cut precision s).length = cut precision s := by
  unfold cut
  split
  · rw [length_take, List.take_eq_take_iff]
    omega
  · exact take_length

theorem length_cut (precision : ℤ) (s : List UInt8) :
    (if 0 ≤ precision ∧ precision.toNat < s.length then precision.toNat else s.length) =
      (cut precision s).length := by
  unfold cut
  split_ifs with h1 h2 h2
  · rw [length_take]
    omega
  · exact absurd h1.1 h2
  · rw [length_take]
    omega
  · rfl

theorem outPad_snoc (o : List UInt8) (n : ℤ) (c : UInt8) :
    outPad snoc o n c = o ++ List.replicate n.toNat c :=
  outStr_snoc o _

theorem putString_eq (o s : List UInt8) (hlen : ((stringText d s).length : ℤ) ≤ INT_MAX) :
    putString snoc o d s = some (o ++ stringText d s) := by
  rw [length_stringText] at hlen
  unfold INT_MAX at hlen
  simp only [putString, length_cut, take_length_cut, stringText, outPad_snoc, outStr_snoc]
  rw [toInt_of_lt (by omega)]
  split
  · next hlt =>
    have hpad : (d.width - (cut d.precision s).length).toNat =
        d.width.toNat - (cut d.precision s).length := by omega
    rw [intValue, if_pos (by unfold INT_MAX; omega)]
    dsimp only
    split <;> simp only [hpad, append_assoc]
  · next hge =>
    have hpad : d.width.toNat - (cut d.precision s).length = 0 := by omega
    simp [hpad]

theorem toNat_pad (w : ℤ) (b : ℕ) :
    (if (b : ℤ) < w then w - b else 0).toNat = w.toNat - b := by
  split <;> omega

/-- The layout, with the paddings that the source computes. The length of the number without its
padding is an `int`. -/
theorem putNumber_eq (o : List UInt8) (d : Directive) (n : Number) :
    putNumber snoc o d n =
      if ((n.lead.length + max d.precision.toNat n.buf.length : ℕ) : ℤ) ≤ INT_MAX then
        some (o ++ numberText d n)
      else none := by
  have hlead : (n.pre.length : ℤ) + (if n.signChar.isSome then 1 else 0) = n.lead.length := by
    unfold lead
    cases n.signChar with
    | none | some c => simp
  have hnum : (if (n.buf.length : ℤ) < d.precision then d.precision else n.buf.length) =
      ((max d.precision.toNat n.buf.length : ℕ) : ℤ) := by
    split <;> omega
  have hzeros : (((max d.precision.toNat n.buf.length : ℕ) : ℤ) - n.buf.length).toNat =
      d.precision.toNat - n.buf.length := by omega
  have hdigits : (n.digits d.precision).length = max d.precision.toNat n.buf.length := by
    simp only [digits, length_append, length_replicate]
    omega
  simp only [putNumber, hlead, hnum, hzeros, outPad_snoc, outStr_snoc, ← Nat.cast_add]
  by_cases hle : ((n.lead.length + max d.precision.toNat n.buf.length : ℕ) : ℤ) ≤ INT_MAX
  swap
  · rw [intValue, if_neg hle, if_neg hle]
  rw [intValue, if_pos hle, if_pos hle, numberText, hdigits]
  generalize hbody : n.lead.length + max d.precision.toNat n.buf.length = body
  cases d.flags.left with
  | true => simp [toNat_pad, lead, digits]
  | false =>
    by_cases hz : d.flags.zero = true ∧ d.precision < 0
    · -- the zeros take the whole padding, and none is left for blanks
      have hrest : ¬ ((body : ℤ) + (if (body : ℤ) < d.width then d.width - body else 0)
          < d.width) := by
        split <;> omega
      simp [toNat_pad, lead, digits, hz, hrest, ← append_assoc]
    · have hnone : ¬ (d.flags.zero = true ∧ d.precision < 0 ∧ (body : ℤ) < d.width) :=
        fun h => hz ⟨h.1, h.2.1⟩
      simp [toNat_pad, lead, digits, hz, hnone]

theorem putNumber_of_length {n : Number} (o : List UInt8)
    (hlen : ((numberText d n).length : ℤ) ≤ INT_MAX) :
    putNumber snoc o d n = some (o ++ numberText d n) := by
  rw [length_numberText] at hlen
  rw [putNumber_eq, if_pos (by omega)]

theorem convert_eq (o : List UInt8) (h : d.text args = some (xs, args')) (hspec : d.spec ≠ 0)
    (hlen : (xs.length : ℤ) ≤ INT_MAX) : convert snoc o d args = some (o ++ xs, args') := by
  unfold Directive.text at h
  unfold convert
  split at h
  · next hs =>
    rw [if_pos hs]
    obtain ⟨⟨s, rest⟩, hva, heq⟩ := map_eq_some_iff.1 h
    cases heq
    rw [length_append] at hlen
    have hstring := putString_eq (d := d) o s (by omega)
    have hnumber := putNumber_of_length (d := d) (n := { buf := [] }) (o ++ stringText d s) (by omega)
    simp only [hva, hstring, bind_some, hnumber, map_some, append_assoc]
  · next hs =>
    rw [if_neg hs]
    rcases hnum : d.number args with _ | _ | ⟨n, rest⟩
    · simp [hnum] at h
    · simp only [hnum] at h ⊢
      cases h
      simp [putOther, hspec, snoc]
    · simp only [hnum] at h ⊢
      cases h
      simp only [putNumber_of_length o hlen, map_some]

theorem formatLoop_eq_interpret {σ : Type*} (out : σ → UInt8 → σ) (fuel : ℕ) (o : σ)
    (p : List UInt8) (args : List Arg) :
    formatLoop out fuel o p args =
      interpret grammar.mark 0 out scanDirective (convert out) fuel o p args := by
  induction fuel generalizing o p args with
  | zero => rfl
  | succ fuel ih =>
    cases p with
    | nil => rfl
    | cons c p =>
      simp only [formatLoop, interpret, ih]
      cases scanDirective p with
      | none => rfl
      | some r =>
        dsimp only
        cases convert out o r.1 args <;> rfl

/-- The directive of a specification, unless one of its numbers overflows. -/
def Spec.scanned (s : Spec) (c : UInt8) : Option Directive :=
  if s.Fits then some (s.directive c) else none

variable {ps : List (Piece UInt8 Spec)}

theorem format_eq_play {σ : Type*} {out : σ → UInt8 → σ} {f : List UInt8}
    (o : σ) (hz : 0 ∉ f) (hf : grammar.pieces f = some ps) :
    format out o (f ++ [0]) args =
      play out (fun o s c args => (s.scanned c).bind fun d => convert out o d args) ps o args := by
  rw [format, formatLoop_eq_interpret]
  apply interpret_of_pieces _ (by decide) hz hf (by simp)
  intro p s c rest hread
  have hspec : readSpec p = (s, c :: rest) := hread
  rw [scanDirective_eq, hspec, Spec.scanned]
  split <;> rfl

/-- By induction on the pieces: each writes its text. -/
theorem play_eq {text : List UInt8} (o : List UInt8)
    (hne : ∀ s c, .spec s c ∈ ps → c ≠ 0) (hfit : ∀ q ∈ ps, PieceFits q)
    (htext : textOf ps args = some text) (hlen : (text.length : ℤ) ≤ INT_MAX) :
    play snoc (fun o s c args => (s.scanned c).bind fun d => convert snoc o d args) ps o args =
      some (o ++ text) := by
  induction ps generalizing o args text with
  | nil =>
    cases htext
    rw [append_nil]
    rfl
  | cons q ps ih =>
    have hne' : ∀ s c, .spec s c ∈ ps → c ≠ 0 := fun s c h => hne s c (mem_cons_of_mem q h)
    have hfit' : ∀ r ∈ ps, PieceFits r := fun r h => hfit r (mem_cons_of_mem q h)
    cases q with
    | char c =>
      obtain ⟨rest, hrest, rfl⟩ := map_eq_some_iff.1 htext
      rw [length_cons] at hlen
      rw [play, ih (snoc o c) hne' hfit' hrest (by omega), snoc, append_assoc]
      rfl
    | spec s c =>
      have hscan : s.scanned c = some (s.directive c) :=
        if_pos (hfit (.spec s c) mem_cons_self)
      rcases hxs : (s.directive c).text args with _ | ⟨xs, args'⟩
      · simp [textOf, hxs] at htext
      · simp only [textOf, hxs] at htext
        obtain ⟨ys, hys, rfl⟩ := map_eq_some_iff.1 htext
        rw [length_append] at hlen
        rw [play, hscan, bind_some, convert_eq o hxs (hne s c mem_cons_self) (by omega), bind_some,
          ih (o ++ xs) hne' hfit' hys (by omega), append_assoc]

/-- **The formatter writes the full expansion**, if its length fits in `int`. -/
theorem expansion_of_full {f text : List UInt8} (hz : 0 ∉ f) (hfit : WidthsFit f)
    (htext : fullExpansion f args = some text) (hlen : (text.length : ℤ) ≤ INT_MAX) :
    expansion (f ++ [0]) args = some text := by
  obtain ⟨ps, hps, hps'⟩ := bind_eq_some_iff.1 htext
  have hne : ∀ s c, .spec s c ∈ ps → c ≠ 0 := by
    rintro s c hs rfl
    exact hz (Grammar.mem_of_spec_mem hps hs)
  rw [expansion, format_eq_play [] hz hps, play_eq [] hne (hfit ps hps) hps' hlen, nil_append]

/-- On a format that ends inside a conversion specification the formatter takes the terminator for
the conversion character and reads behind it, whatever the arguments. -/
theorem expansion_of_inside {f : List UInt8} (hz : 0 ∉ f) (hf : grammar.pieces f = none) :
    expansion (f ++ [0]) args = none := by
  rw [expansion, format, formatLoop_eq_interpret]
  apply interpret_of_inside _ (by decide) hz hf
  intro p d r h
  rw [scanDirective_eq] at h
  split at h
  · exact (Prod.mk.inj (some.inj h)).2.symm
  · cases h

end Vlibc.Printf
