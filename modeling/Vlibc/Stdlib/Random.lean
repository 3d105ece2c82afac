import Mathlib.Data.Int.CardIntervalMod
import Vlibc.Foundations.Congruential

/-!
# Pseudo-random numbers

The generators of `rand48.c`, on the words that a program keeps itself and on those of the library,
and `arc4random_uniform` of `arc4random.c`.
-/

namespace Vlibc.Stdlib

open List Function Nat Congruential

/-! ### `rand48.c` -/

/-- `rand48_state`, `rand48_mult` and `rand48_add`. -/
structure Rand48 where
  state : UInt64 := 0x1234abcd330e
  mult : UInt64 := 0x5deece66d
  add : UInt64 := 0xb

/-- The 48 bits of a state. -/
def rand48Mask : UInt64 := ((1 : UInt64) <<< 48) - 1

/-- A state as `unsigned short x[3]`. -/
@[ext]
structure Words where
  x0 : UInt16
  x1 : UInt16
  x2 : UInt16

/-- What a step makes of the state `v`, in `rand48_step` and in `nrand48`. -/
def Rand48.next (g : Rand48) (v : UInt64) : UInt64 := (v * g.mult + g.add) &&& rand48Mask

/-- `rand48_step`. -/
def rand48Step (g : Rand48) : UInt64 × Rand48 :=
  let v := g.next g.state
  (v, { g with state := v })

/-- `arr_to_u64`. -/
def arrToU64 (x : Words) : UInt64 :=
  (x.x2.toUInt64 <<< 32) ||| (x.x1.toUInt64 <<< 16) ||| x.x0.toUInt64

/-- `u64_to_arr`. -/
def u64ToArr (v : UInt64) : Words where
  x0 := (v &&& 0xffff).toUInt16
  x1 := ((v >>> 16) &&& 0xffff).toUInt16
  x2 := ((v >>> 32) &&& 0xffff).toUInt16

/-- `lrand48`. The `long` is not negative. -/
def lrand48 (g : Rand48) : ℕ × Rand48 :=
  let (v, g) := rand48Step g
  ((v >>> 17).toNat, g)

/-- `nrand48`. -/
def nrand48 (g : Rand48) (x : Words) : ℕ × Words :=
  let v := g.next (arrToU64 x)
  ((v >>> 17).toNat, u64ToArr v)

/-- `srand48`. -/
def srand48 (seedval : Int64) : Rand48 where
  state := (seedval.toUInt64 <<< 16) ||| 0x330e

/-- `seed48`, with the contents of the array `old` that it returns. -/
def seed48 (g : Rand48) (seed16v : Words) : Words × Rand48 :=
  (u64ToArr g.state, { g with state := arrToU64 seed16v })

/-- The results of `n` calls of a generator, and its state after them. -/
def draw {σ : Type} (call : σ → ℕ × σ) : ℕ → σ → List ℕ × σ
  | 0, s => ([], s)
  | n + 1, s =>
    let (r, s) := call s
    let (rs, s) := draw call n s
    (r :: rs, s)

theorem toNat_and_mask (v : UInt64) : (v &&& rand48Mask).toNat = v.toNat % 2 ^ 48 := by
  rw [UInt64.toNat_and]
  exact and_two_pow_sub_one_eq_mod v.toNat 48

theorem toNat_next (g : Rand48) (v : UInt64) :
    (g.next v).toNat = Congruential.step g.mult.toNat g.add.toNat 48 v.toNat := by
  rw [Rand48.next, toNat_and_mask, UInt64.toNat_add, UInt64.toNat_mul, mod_add_mod,
    mod_mod_of_dvd _ (Nat.pow_dvd_pow 2 (by decide)), mul_comm, step]

theorem next_and_mask (g : Rand48) (v : UInt64) : g.next (v &&& rand48Mask) = g.next v := by
  apply UInt64.toNat_inj.1
  rw [toNat_next, toNat_next, toNat_and_mask, step_mod]

theorem next_mask (g : Rand48) (v : UInt64) : g.next v &&& rand48Mask = g.next v := by
  rw [Rand48.next, UInt64.and_assoc, UInt64.and_self]

theorem toNat_arrToU64 (x : Words) :
    (arrToU64 x).toNat = x.x2.toNat * 2 ^ 32 + (x.x1.toNat * 2 ^ 16 + x.x0.toNat) := by
  have h0 := x.x0.toNat_lt
  have h1 := x.x1.toNat_lt
  have h2 := x.x2.toNat_lt
  have hlow : x.x1.toNat <<< 16 + x.x0.toNat < 2 ^ 32 := by
    rw [shiftLeft_eq]
    omega
  have hshift : (x.x2.toUInt64 <<< 32).toNat = x.x2.toNat <<< 32 ∧
      (x.x1.toUInt64 <<< 16).toNat = x.x1.toNat <<< 16 := by
    constructor <;> rw [UInt64.toNat_shiftLeft, UInt16.toNat_toUInt64] <;>
      refine mod_eq_of_lt ?_ <;> simp [shiftLeft_eq] <;> omega
  rw [arrToU64, UInt64.toNat_or, UInt64.toNat_or, hshift.1, hshift.2, UInt16.toNat_toUInt64,
    Nat.or_assoc, ← shiftLeft_add_eq_or_of_lt h0, ← shiftLeft_add_eq_or_of_lt hlow,
    shiftLeft_eq, shiftLeft_eq]

theorem toNat_word (v : UInt64) : (v &&& 0xffff).toUInt16.toNat = v.toNat % 2 ^ 16 := by
  rw [UInt64.toNat_toUInt16, UInt64.toNat_and]
  exact (congrArg (· % 2 ^ 16) (and_two_pow_sub_one_eq_mod v.toNat 16)).trans (mod_mod ..)

theorem toNat_u64ToArr (v : UInt64) : (u64ToArr v).x0.toNat = v.toNat % 2 ^ 16 ∧
    (u64ToArr v).x1.toNat = v.toNat / 2 ^ 16 % 2 ^ 16 ∧
    (u64ToArr v).x2.toNat = v.toNat / 2 ^ 32 % 2 ^ 16 := by
  have hshift (k : UInt64) : (v >>> k).toNat = v.toNat / 2 ^ (k.toNat % 64) := by
    rw [UInt64.toNat_shiftRight, shiftRight_eq_div_pow]
  refine ⟨toNat_word v, ?_, ?_⟩ <;> exact (toNat_word _).trans (congrArg (· % 2 ^ 16) (hshift _))

theorem arrToU64_u64ToArr (v : UInt64) : arrToU64 (u64ToArr v) = v &&& rand48Mask := by
  obtain ⟨h0, h1, h2⟩ := toNat_u64ToArr v
  apply UInt64.toNat_inj.1
  rw [toNat_arrToU64, toNat_and_mask, h0, h1, h2]
  omega

theorem u64ToArr_arrToU64 (x : Words) : u64ToArr (arrToU64 x) = x := by
  obtain ⟨h0, h1, h2⟩ := toNat_u64ToArr (arrToU64 x)
  rw [toNat_arrToU64] at h0 h1 h2
  have := x.x0.toNat_lt
  have := x.x1.toNat_lt
  have := x.x2.toNat_lt
  apply Words.ext <;> apply UInt16.toNat_inj.1 <;> omega

/-- The bits of the state that count depend on the lowest 32 bits of the seed only. -/
theorem srand48_mask (seedval : Int64) : ((srand48 seedval).state &&& rand48Mask).toNat =
    seedval.toUInt64.toUInt32.toNat * 2 ^ 16 + 0x330e := by
  have hlt : 0x330e < 2 ^ 16 := by decide
  have hshift : (seedval.toUInt64 <<< 16).toNat = (seedval.toUInt64.toNat % 2 ^ 48) <<< 16 := by
    rw [UInt64.toNat_shiftLeft, shiftLeft_eq, shiftLeft_eq]
    change _ * 2 ^ 16 % 2 ^ 64 = _
    omega
  have hor : (srand48 seedval).state.toNat = (seedval.toUInt64 <<< 16).toNat ||| 0x330e :=
    UInt64.toNat_or ..
  rw [toNat_and_mask, hor, hshift, ← shiftLeft_add_eq_or_of_lt hlt, shiftLeft_eq,
    UInt64.toNat_toUInt32]
  omega

theorem lrand48_congr {g g' : Rand48} (hmult : g.mult = g'.mult) (hadd : g.add = g'.add)
    (hstate : g.state &&& rand48Mask = g'.state &&& rand48Mask) : lrand48 g = lrand48 g' := by
  have hnext : g.next g.state = g'.next g'.state := by
    rw [← next_and_mask, ← next_and_mask g', hstate, Rand48.next, Rand48.next, hmult, hadd]
  simp only [lrand48, rand48Step, hnext, hmult, hadd]

theorem draw_lrand48_seed48 (g : Rand48) (n : ℕ) (x : Words) :
    draw lrand48 n (seed48 g x).2 =
      ((draw (nrand48 g) n x).1, (seed48 g (draw (nrand48 g) n x).2).2) := by
  induction n generalizing x with
  | zero => rfl
  | succ n ih =>
    have hcall : lrand48 (seed48 g x).2 = ((nrand48 g x).1, (seed48 g (nrand48 g x).2).2) := by
      simp only [lrand48, rand48Step, seed48, nrand48, arrToU64_u64ToArr]
      rw [next_mask]
      rfl
    simp only [draw, hcall, ih]

/-- **The generators agree**: after `seed48` the library's generator gives the results that the
caller's gives from the same words, and their states stay the same. The words that a later `seed48`
returns resume the sequence that it interrupted, wherever the generator is by then. Of the seed of
`srand48` only the lowest 32 bits matter once a number is drawn. -/
theorem rand48_generators_agree (g : Rand48) (x : Words) (n : ℕ) :
    ((draw lrand48 n (seed48 g x).2).1 = (draw (nrand48 g) n x).1 ∧
      arrToU64 (draw (nrand48 g) n x).2 = (draw lrand48 n (seed48 g x).2).2.state ∧
      u64ToArr (draw lrand48 n (seed48 g x).2).2.state = (draw (nrand48 g) n x).2) ∧
    (∀ h : Rand48, h.mult = g.mult → h.add = g.add →
      (draw lrand48 n (seed48 h (seed48 g x).1).2).1 = (draw lrand48 n g).1) ∧
    ∀ seed seed' : Int64, seed.toUInt64.toUInt32 = seed'.toUInt64.toUInt32 →
      draw lrand48 (n + 1) (srand48 seed) = draw lrand48 (n + 1) (srand48 seed') := by
  refine ⟨?_, fun h hmult hadd => ?_, fun seed seed' hlow => ?_⟩
  · rw [draw_lrand48_seed48]
    exact ⟨rfl, rfl, u64ToArr_arrToU64 _⟩
  · have hcall : lrand48 (seed48 h (seed48 g x).1).2 = lrand48 g := by
      refine lrand48_congr ?_ ?_ ?_
      · exact hmult
      · exact hadd
      simp only [seed48, arrToU64_u64ToArr, UInt64.and_assoc, UInt64.and_self]
    cases n with
    | zero => rfl
    | succ n => simp only [draw, hcall]
  · have hcall : lrand48 (srand48 seed) = lrand48 (srand48 seed') := by
      refine lrand48_congr ?_ ?_ (UInt64.toNat_inj.1 ?_)
      · rfl
      · rfl
      rw [srand48_mask, srand48_mask, hlow]
    simp only [draw, hcall]

/-- The generator after `rand48_step`. -/
def Rand48.advance (g : Rand48) : Rand48 := (rand48Step g).2

theorem draw_lrand48 (n : ℕ) (g : Rand48) : draw lrand48 n g =
    ((List.range n).map fun i => (Rand48.advance^[i + 1] g).state.toNat / 2 ^ 17,
      Rand48.advance^[n] g) := by
  induction n generalizing g with
  | zero => rfl
  | succ n ih =>
    have hcall : lrand48 g = (g.advance.state.toNat / 2 ^ 17, g.advance) :=
      congrArg (·, g.advance) ((UInt64.toNat_shiftRight ..).trans (shiftRight_eq_div_pow ..))
    rw [draw, hcall]
    simp only [ih, range_succ_eq_map, map_cons, map_map]
    rfl

theorem toNat_iterate_advance (g : Rand48) (n : ℕ) : (Rand48.advance^[n] g).state.toNat =
    (Congruential.step g.mult.toNat g.add.toNat 48)^[n] g.state.toNat := by
  induction n generalizing g with
  | zero => rfl
  | succ n ih =>
    rw [iterate_succ_apply, iterate_succ_apply, ih, ← toNat_next]
    rfl

theorem minimalPeriod_rand48 {x : ℕ} (hx : x < 2 ^ 48) :
    Function.minimalPeriod (Congruential.step 0x5deece66d 0xb 48) x = 2 ^ 48 :=
  minimalPeriod_step (by decide) (by decide) hx

theorem card_filter_div (v : ℕ) (hv : v < 2 ^ 31) :
    ((Finset.range (2 ^ 48)).filter fun y => y / 2 ^ 17 = v).card = 2 ^ 17 := by
  have : ((Finset.range (2 ^ 48)).filter fun y => y / 2 ^ 17 = v) =
      Finset.Ico (v * 2 ^ 17) (v * 2 ^ 17 + 2 ^ 17) := by
    ext y
    simp only [Finset.mem_filter, Finset.mem_range, Finset.mem_Ico]
    omega
  rw [this, card_Ico]
  omega

theorem count_map_range (f : ℕ → ℕ) (n v : ℕ) :
    ((List.range n).map f).count v = ((Finset.range n).filter fun i => f i = v).card := by
  rw [List.count, countP_map, countP_eq_length_filter]
  rfl

/-- **The period is full**: with the multiplier and the addend of the library the states repeat
after 2^48 steps and not before, and among the results of as many calls of `lrand48` each number
below 2^31 occurs 2^17 times. A state that `srand48` set may have more than 48 bits; the sequence of
the states then begins with the first step. -/
theorem rand48_full_period (state : UInt64) :
    (∀ n, 0 < n ∨ state ≤ rand48Mask →
      (Rand48.advance^[n + 2 ^ 48] { state }).state = (Rand48.advance^[n] { state }).state) ∧
    (∀ n p, 0 < p →
      (Rand48.advance^[n + p] { state }).state = (Rand48.advance^[n] { state }).state →
      2 ^ 48 ≤ p) ∧
    ∀ v < 2 ^ 31, (draw lrand48 (2 ^ 48) { state }).1.count v = 2 ^ 17 := by
  have hf (n : ℕ) : (Rand48.advance^[n] { state }).state.toNat =
      (step 0x5deece66d 0xb 48)^[n] state.toNat := toNat_iterate_advance { state } n
  refine ⟨fun n hn => ?_, fun n p hp h => ?_, fun v hv => ?_⟩
  · have hlt := iterate_step_lt (a := 0x5deece66d) (c := 0xb) (k := 48)
      (x := state.toNat) (hn.imp_right fun h => lt_succ_of_le (UInt64.le_iff_toNat_le.1 h))
    apply UInt64.toNat_inj.1
    rw [hf, hf, add_comm, iterate_add_apply, ← minimalPeriod_rand48 hlt, iterate_minimalPeriod]
  · have h := congrArg UInt64.toNat h
    rw [hf, hf, add_comm, iterate_add_apply] at h
    have hlt := iterate_step_lt (a := 0x5deece66d) (c := 0xb) (k := 48)
      (x := (step 0x5deece66d 0xb 48)^[n] state.toNat) (.inl hp)
    rw [h] at hlt
    rw [← minimalPeriod_rand48 hlt]
    exact IsPeriodicPt.minimalPeriod_le hp h
  · have hlt := step_lt (a := 0x5deece66d) (c := 0xb) (k := 48) (x := state.toNat)
    have hcount := card_filter_orbit (minimalPeriod_rand48 hlt)
      (fun n => iterate_step_lt (.inr hlt)) (· / 2 ^ 17 = v)
    rw [draw_lrand48, count_map_range]
    simp only [hf]
    exact hcount.trans (card_filter_div v hv)

/-! ### `arc4random_uniform` -/

/-- `arc4random_uniform`. The list has what `arc4random` returns in turn; without a value that is
accepted the loop has not ended. -/
def arc4randomUniform (upperBound : UInt32) (arc4random : List UInt32) : Option UInt32 :=
  if upperBound < 2 then some 0
  else
    let min := -upperBound % upperBound
    (arc4random.find? (min ≤ ·)).map (· % upperBound)

/-- Whether the loop ends with the value `r`. -/
def accepts (upperBound r : UInt32) : Bool := (arc4randomUniform upperBound [r]).isSome

/-- As many periods of `u` as fit in an interval have as many numbers of each residue. -/
theorem card_filter_modEq (a k v : ℕ) {u : ℕ} (hu : 0 < u) :
    ((Finset.Ico a (a + u * k)).filter (· ≡ v [MOD u])).card = k := by
  have hcard := Ico_filter_modEq_card a (a + u * k) hu v
  have hdiv : (((a + u * k : ℕ) : ℚ) - v) / u = (a - v) / u + k := by
    push_cast
    field_simp
    ring
  rw [hdiv, Int.ceil_add_natCast] at hcard
  omega

section Uniform

variable {u : UInt32} (hu : 2 ≤ u)
include hu

theorem two_le_toNat : 2 ≤ u.toNat := UInt32.le_iff_toNat_le.1 hu

theorem toNat_min : (-u % u).toNat = 2 ^ 32 % u.toNat := by
  have h2 := two_le_toNat hu
  have hlt := u.toNat_lt
  have hneg : (-u).toNat = 2 ^ 32 - u.toNat := by
    rw [UInt32.toNat_neg]
    exact mod_eq_of_lt (show 2 ^ 32 - u.toNat < 2 ^ 32 by omega)
  rw [UInt32.toNat_mod, hneg, ← mod_eq_sub_mod (by omega)]

theorem arc4randomUniform_eq (draws : List UInt32) :
    arc4randomUniform u draws = (draws.find? (-u % u ≤ ·)).map (· % u) :=
  if_neg (UInt32.not_lt.2 hu)

theorem accepts_eq (r : UInt32) : accepts u r = decide (-u % u ≤ r) := by
  rw [accepts, arc4randomUniform_eq hu, find?_singleton]
  by_cases h : -u % u ≤ r <;> simp [h]

theorem filter_accepts : (Finset.range (2 ^ 32)).filter (fun r => accepts u (.ofNat r)) =
    Finset.Ico (2 ^ 32 % u.toNat) (2 ^ 32) := by
  ext r
  rw [Finset.mem_filter, Finset.mem_range, Finset.mem_Ico, accepts_eq hu, decide_eq_true_iff,
    UInt32.le_iff_toNat_le, toNat_min hu, and_comm]
  exact and_congr_left fun hr => by rw [UInt32.toNat_ofNat_of_lt' hr]

/-- **The numbers below the bound are equally likely**: among the values that the loop accepts,
more than half of all, each residue has as many, and the result is that of the first one. -/
theorem arc4random_uniform_unbiased :
    (∃ k > 0, ∀ v < u.toNat,
      (((Finset.range (2 ^ 32)).filter (fun r => accepts u (.ofNat r))).filter
        (· % u.toNat = v)).card = k) ∧
    2 ^ 31 < ((Finset.range (2 ^ 32)).filter (fun r => accepts u (.ofNat r))).card ∧
    ∀ draws, arc4randomUniform u draws = (draws.find? (accepts u)).map (· % u) ∧
      ∀ v ∈ arc4randomUniform u draws, v < u := by
  have h2 := two_le_toNat hu
  have hlt := u.toNat_lt
  rw [filter_accepts hu]
  refine ⟨⟨2 ^ 32 / u.toNat, Nat.div_pos hlt.le (by omega), fun v hv => ?_⟩, ?_, fun draws => ?_⟩
  · have hcard := card_filter_modEq (2 ^ 32 % u.toNat) (2 ^ 32 / u.toNat) v
      (show 0 < u.toNat by omega)
    rw [mod_add_div] at hcard
    simpa only [Nat.ModEq, mod_eq_of_lt hv] using hcard
  · rw [card_Ico]
    -- A bound above 2^31 leaves a remainder below it; a smaller one has a smaller remainder.
    rcases lt_or_ge (2 ^ 31) u.toNat with h | h
    · rw [mod_eq_sub_mod (by omega), mod_eq_of_lt (by omega)]
      omega
    · have := mod_lt (2 ^ 32) (show 0 < u.toNat by omega)
      omega
  · rw [arc4randomUniform_eq hu]
    refine ⟨by rw [funext (accepts_eq hu)], fun v hv => ?_⟩
    obtain ⟨r, _, rfl⟩ := Option.map_eq_some_iff.1 hv
    exact UInt32.mod_lt _ (UInt32.lt_iff_toNat_lt.2 (lt_of_lt_of_le Nat.zero_lt_two h2))

end Uniform

theorem arc4random_uniform_unbiased_six : (2 : UInt32) ≤ 6 ∧ ∃ k > 0, ∀ v < 6,
    (((Finset.range (2 ^ 32)).filter fun r => accepts 6 (.ofNat r)).filter (· % 6 = v)).card = k :=
  ⟨by decide, (arc4random_uniform_unbiased (u := 6) (by decide)).1⟩

end Vlibc.Stdlib
