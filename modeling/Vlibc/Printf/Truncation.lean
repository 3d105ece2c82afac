import Vlibc.Printf.Meaning

/-!
# Truncation

`vsnprintf` counts every character and stores those that fit, so the size of the buffer decides how
much of the text it holds and nothing else. `vasprintf` formats twice, the first time for the
length; its string is the whole text.
-/

namespace Vlibc.Printf

open List Function

open Stdio

/-- `vasprintf`, with what it stores in `*strp` if `strp` is not `NULL`. The first call of
`vsnprintf` stores nothing. -/
def vasprintf (k : Kernel UInt8) (y : Sys UInt8) (strp : Bool) (fmt : List UInt8)
    (args : List Arg) : Option (Sys UInt8 × Option (Region UInt8) × ℤ) :=
  match vsnprintf (fun _ => 0) 0 fmt args with
  | none => none
  | some (_, len) =>
    if len < 0 then some (y, none, -1)
    else
      match k.alloc y.tick with
      | none => some (y.next.fail ENOMEM, none, -1)
      | some (addr, fresh) =>
        match vsnprintf fresh (len.toNat + 1) fmt args with
        | none => none
        | some (buf, r) =>
          let freed := { y.next with freed := addr :: y.freed }
          if r < 0 then some (freed, none, -1)
          else if strp then
            some (y.next, some ⟨addr, (List.range (len.toNat + 1)).map buf⟩, r)
          else some (freed, none, r)

variable {args : List Arg} {f fmt text : List UInt8}

/-- The first bytes of a text, and a terminator, in a buffer of `size` bytes at `str`. -/
structure Truncated (str : ℕ → UInt8) (size : ℕ) (text : List UInt8) (buf : ℕ → UInt8) :
    Prop where
  stored : ∀ i (h : i < text.length), i < size - 1 → buf i = text[i]
  ended : 0 < size → buf (min text.length (size - 1)) = 0
  outside : ∀ i, size ≤ i → buf i = str i

theorem terminate_dst (o : Out) (hsize : 0 < o.size) :
    o.terminate.dst = Function.update o.dst (min o.pos (o.size - 1)) 0 := by
  unfold Out.terminate
  rw [if_pos hsize]
  dsimp only
  congr 1
  split <;> omega

theorem vsnprintf_truncated (str : ℕ → UInt8) (size : ℕ) (h : expansion fmt args = some text) :
    ∃ buf, vsnprintf str size fmt args = some (buf, toInt text.length) ∧
      Truncated str size text buf := by
  refine ⟨(outStr Out.char ⟨str, size, 0⟩ text).terminate.dst, ?_, ?_⟩
  · simp [vsnprintf, format_eq, h, outStr_pos]
  by_cases hsize : size = 0
  · -- nothing is stored, and no terminator
    subst hsize
    have hterm : (outStr Out.char ⟨str, 0, 0⟩ text).terminate.dst = str := by
      rw [Out.terminate, if_neg (by rw [outStr_size]; exact lt_irrefl 0)]
      funext i
      exact outStr_dst_of_or (.inr (Nat.zero_le _))
    exact ⟨fun i _ hi => by omega, fun h => by omega, fun i _ => by rw [hterm]⟩
  · rw [terminate_dst _ (by rw [outStr_size]; exact Nat.pos_of_ne_zero hsize)]
    simp only [outStr_pos, outStr_size, Nat.zero_add]
    refine ⟨fun i hi hroom => ?_, fun _ => update_self .., fun i hi => ?_⟩
    · rw [update_of_ne (by omega)]
      have := outStr_dst (o := ⟨str, size, 0⟩) (j := i) hi (by dsimp only; omega)
      simpa using this
    · rw [update_of_ne (by omega)]
      exact outStr_dst_of_or (.inr (by dsimp only; omega))

variable {str buf : ℕ → UInt8}

theorem Truncated.whole (h : Truncated str (text.length + 1) text buf) :
    (List.range (text.length + 1)).map buf = text ++ [0] := by
  apply ext_getElem (by simp)
  intro i hi hi'
  rw [getElem_map, getElem_range]
  by_cases hlt : i < text.length
  · rw [h.stored i hlt (by omega), getElem_append_left hlt]
  · have hend := h.ended (Nat.succ_pos _)
    rw [Nat.add_sub_cancel, min_self] at hend
    obtain rfl : i = text.length := by simp at hi; omega
    simp [hend]

/-- **Truncation is a prefix.** Whatever the size of the buffer, `vsnprintf` returns the length of
the full expansion, if that fits in `int`, and the buffer holds the first bytes of it with a
terminator, as many as there is room for; nothing is written at the size or beyond. The string of
`vasprintf` is the full expansion. -/
theorem vsnprintf_truncates (hz : 0 ∉ f) (hfit : WidthsFit f)
    (htext : fullExpansion f args = some text) (hlen : (text.length : ℤ) ≤ INT_MAX) :
    (∀ str size, ∃ buf, vsnprintf str size (f ++ [0]) args = some (buf, (text.length : ℤ)) ∧
      Truncated str size text buf) ∧
    ∀ k y addr fresh, k.alloc y.tick = some (addr, fresh) →
      vasprintf k y true (f ++ [0]) args =
        some (y.next, some ⟨addr, text ++ [0]⟩, (text.length : ℤ)) := by
  have hexp := expansion_of_full hz hfit htext hlen
  have hret : toInt text.length = text.length := toInt_of_lt (by unfold INT_MAX at hlen; omega)
  have hrun : ∀ str size, ∃ buf, vsnprintf str size (f ++ [0]) args =
      some (buf, (text.length : ℤ)) ∧ Truncated str size text buf :=
    fun str size => hret ▸ vsnprintf_truncated str size hexp
  refine ⟨hrun, fun k y addr fresh halloc => ?_⟩
  obtain ⟨buf₀, hbuf₀, -⟩ := hrun (fun _ => 0) 0
  obtain ⟨buf, hbuf, hwhole⟩ := hrun fresh (text.length + 1)
  have hneg : ¬ (text.length : ℤ) < 0 := by omega
  simp only [vasprintf, hbuf₀, if_neg hneg, halloc, Int.toNat_natCast, hbuf, hwhole.whole, if_true]

/-- `snprintf(buf, 3, "%5d", 7)` stores two blanks. -/
theorem vsnprintf_truncates_width :
    ∃ buf, vsnprintf (fun _ => 1) 3 ['%'.toUInt8, '5'.toUInt8, 'd'.toUInt8, 0] [.int 7] =
        some (buf, 5) ∧ Truncated (fun _ => 1) 3 [32, 32, 32, 32, 55] buf :=
  (vsnprintf_truncates (by decide) (by decide +kernel)
    (show fullExpansion ['%'.toUInt8, '5'.toUInt8, 'd'.toUInt8] [.int 7] =
      some [32, 32, 32, 32, 55] by decide +kernel) (by decide)).1 (fun _ => 1) 3

theorem Truncated.read_of_fits {size : ℕ} (h : Truncated str size text buf)
    (hfit : text.length < size ∨ text.length = size ∧ text.getLast? = some 0) :
    (List.range text.length).map buf = text := by
  apply ext_getElem (by simp)
  intro i hi hi'
  rw [getElem_map, getElem_range]
  by_cases hroom : i < size - 1
  · exact h.stored i hi' hroom
  · -- the last byte is a zero, and so is the terminator in its place
    obtain ⟨hsize, hlast⟩ := hfit.resolve_left (by omega)
    obtain rfl : i = size - 1 := by omega
    have hend := h.ended (by omega)
    rw [hsize, min_eq_right (Nat.sub_le size 1)] at hend
    rw [getLast?_eq_getElem?, hsize, getElem?_eq_getElem hi'] at hlast
    rw [hend, Option.some.inj hlast]

end Vlibc.Printf
