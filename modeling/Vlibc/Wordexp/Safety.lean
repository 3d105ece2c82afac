import Vlibc.Wordexp.Words

/-!
# `wordexp` when memory is refused

A call of `wordexp` is safe if it returns without using a block that has been freed, and leaves
nothing behind if it returns an error (`Safe`). What counts is which request for memory is refused,
and what there was before it.
-/

namespace Vlibc.Wordexp

open List

variable (host : Host) (words : Option CStr) (pwordexp : Option Strings) (m : Memory Cell Request)

/-- The call returns, and no block has been used or freed after it had been freed. If it returns an
error, the blocks in use are those from before the call, and the `wordexp_t` is empty. -/
def Safe : Prop :=
  ∃ ret we m', exec (wordexp host words pwordexp) m = (.ok (ret, we), m') ∧
    (ret ≠ 0 → m'.heap.Owns m.heap.blocks ∧ ∀ t, we = some t → t = .empty)

/-- The requests of the call, and whether they were granted. -/
def requests : List (Request × Bool) :=
  (exec (wordexp host words pwordexp) m).2.asked.drop m.asked.length

/-- The request was granted, or nothing is lost. -/
def Careful (request : Request × Bool) : Prop := request.2 = false → request.1.harmless = true

variable {host words pwordexp m} {l l' : List (Request × Bool)} {r : Request}

theorem careful_of_granted (h : Granted l l') : ∀ e ∈ l'.drop l.length, Careful e := by
  obtain ⟨gs, rfl, hgs⟩ := h
  rw [drop_left]
  exact fun e he hfalse => absurd ((hgs e he).symm.trans hfalse) (by decide)

theorem careful_iff_of_refused (h : Refused host.grants r l l') :
    (∀ e ∈ l'.drop l.length, Careful e) ↔ r.harmless = true := by
  obtain ⟨gs, rfl, hgs, -⟩ := h
  rw [drop_left]
  constructor
  · exact fun h => h (r, false) (mem_append.2 (.inr (.head _))) rfl
  · intro hr e he hfalse
    obtain he | he := mem_append.1 he
    · exact absurd ((hgs e he).symm.trans hfalse) (by decide)
    · rw [mem_singleton.1 he]
      exact hr

variable {m' : Memory Cell Request}

theorem safe_iff_of_exec {ret : ℕ} {we : Option Strings}
    (h : exec (wordexp host words pwordexp) m = (.ok (ret, we), m')) :
    Safe host words pwordexp m ↔
      (ret ≠ 0 → m'.heap.Owns m.heap.blocks ∧ ∀ t, we = some t → t = .empty) := by
  constructor
  · rintro ⟨ret', we', m'', h', hsafe⟩
    rw [h] at h'
    cases h'
    exact hsafe
  · exact fun hsafe => ⟨ret, we, m', h, hsafe⟩

theorem Lost.owns_iff {bs : Blocks} (h : Lost host.grants bs m m') :
    m'.heap.Owns bs ↔ ∀ e ∈ m'.asked.drop m.asked.length, Careful e := by
  obtain ⟨r, lost, hr, ho, hlost⟩ := h
  rw [careful_iff_of_refused hr, ← hlost]
  constructor
  · intro ho'
    exact add_eq_right.1 (ho.symm.trans ho')
  · rintro rfl
    rwa [zero_add] at ho

theorem safe_words_iff (host : Host) (words : CStr) (t : Strings) (m : Memory Cell Request) :
    Safe host (some words) (some t) m ↔
      ∀ e ∈ requests host (some words) (some t) m, Careful e := by
  have hstart : m.heap.Owns (0 + (texts [] + m.heap.blocks)) := by
    rw [zero_add]
    exact (zero_add _).symm
  obtain ⟨⟨ret, we⟩, m', hexec, hret⟩ | ⟨e, m', hexec, r, hr, hharm⟩ :=
    wordLoop_outcome host (words.bytes.length + 1) 0 words.bytes (Nat.lt_succ_self _) words.noNul
      .empty hstart
  · have hexec : exec (wordexp host (some words) (some t)) m = (.ok (ret, some we), m') :=
      exec_bind_of_ok hexec
    rw [safe_iff_of_exec hexec, requests, hexec]
    obtain ⟨hret, hg, -⟩ | ⟨hret, hg, ho, -⟩ | ⟨hret, hlost⟩ := hret
    · exact iff_of_true (fun h => absurd hret h) (careful_of_granted hg)
    · cases hret
      refine iff_of_true (fun _ => ⟨ho, fun t ht => ?_⟩) (careful_of_granted hg)
      exact (Option.some.inj ht).symm
    · cases hret
      rw [← hlost.owns_iff]
      constructor
      · exact fun h => (h (by decide)).1
      · exact fun ho _ => ⟨ho, fun t ht => (Option.some.inj ht).symm⟩
  · have hexec : exec (wordexp host (some words) (some t)) m = (.error e, m') :=
      exec_bind_of_error hexec
    rw [requests, hexec, careful_iff_of_refused hr, hharm]
    refine iff_of_false (fun h => ?_) Bool.false_ne_true
    obtain ⟨ret, we, m'', hexec', -⟩ := h
    rw [hexec] at hexec'
    cases hexec'

/-- **`wordexp` when memory is refused.** The call is safe exactly if each request that it makes is
granted or is harmless, and if `words` is given or the `wordexp_t` is empty. The requests that are not
harmless are those for the copy of a path, those of `glob` when it has found a path already, and that
for the copy of a word when there are other words. -/
theorem wordexp_safe_iff (host : Host) (words : Option CStr) (pwordexp : Option Strings)
    (m : Memory Cell Request) :
    Safe host words pwordexp m ↔
      (∀ e ∈ requests host words pwordexp m, Careful e) ∧
        (words = none → ∀ t, pwordexp = some t → t = .empty) := by
  cases words with
  | none =>
    have hexec : exec (wordexp host none pwordexp) m = (.ok (WRDE_BADCHAR, pwordexp), m) := rfl
    rw [safe_iff_of_exec hexec, requests, hexec]
    constructor
    · intro h
      exact ⟨careful_of_granted (.refl _), fun _ => (h (by decide)).2⟩
    · rintro ⟨-, hempty⟩ -
      exact ⟨rfl, hempty rfl⟩
  | some words =>
    cases pwordexp with
    | none =>
      have hexec : exec (wordexp host (some words) none) m = (.ok (WRDE_BADCHAR, none), m) := rfl
      rw [safe_iff_of_exec hexec, requests, hexec]
      refine iff_of_true (fun _ => ⟨rfl, fun t ht => by cases ht⟩) ⟨careful_of_granted (.refl _), ?_⟩
      exact fun h => by cases h
    | some t =>
      have hnone : some words = none → ∀ t', some t = some t' → t' = Strings.empty :=
        fun h => by cases h
      rw [and_iff_left hnone]
      exact safe_words_iff host words t m

/-- A host that refuses memory for the copy of the second word. -/
def refusing : Host where
  names _ := none
  nodup _ _ h := by cases h
  ne_nil _ _ h := by cases h
  noSlash _ _ h := by cases h
  grants n := decide (n ≠ 5)
  behind _ _ _ := []
  home := none

/-- With two words, the second of which cannot be copied, the array is used after it has been freed. -/
theorem wordexp_uses_freed_array :
    (exec (wordexp refusing (some (str "a b")) (some .empty)) (.empty _ _)).1 = .error .dead ∧
      ¬ Safe refusing (some (str "a b")) (some .empty) (.empty _ _) := by
  have hdead : (exec (wordexp refusing (some (str "a b")) (some .empty)) (.empty _ _)).1 =
    .error .dead := by decide +kernel
  refine ⟨hdead, ?_⟩
  rintro ⟨ret, we, m', hexec, -⟩
  rw [hexec] at hdead
  cases hdead

end Vlibc.Wordexp
