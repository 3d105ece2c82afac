import Mathlib.Data.List.Basic
import Mathlib.Logic.Relation

/-!
# Templates and their scanners

A template is a text in which a mark announces a specification; a mark behind a mark stands for
itself. A grammar says how far a specification goes, and so which pieces a template has
(`Grammar.pieces`); one that ends inside a specification has none. A loop that interprets templates
does what their pieces say (`interpret_of_pieces`).

A scanner walks over memory with one pointer. If it follows a grammar (`Follows`), it stays inside a
template if and only if the template does not end inside a specification (`Follows.within_iff`).
-/

namespace Vlibc

open List Option

variable {α σ Q : Type*}

variable {f : α → Bool}

theorem span_append {l r : List α} (hl : ∀ c ∈ l, f c = true)
    (hr : ∀ c ∈ r.head?, f c = false) :
    (l ++ r).takeWhile f = l ∧ (l ++ r).dropWhile f = r := by
  rw [takeWhile_append_of_pos hl, dropWhile_append_of_pos hl]
  cases r with
  | nil => exact ⟨append_nil l, rfl⟩
  | cons c r =>
    have hc : ¬ f c = true := by simp [hr c rfl]
    rw [takeWhile_cons_of_neg hc, dropWhile_cons_of_neg hc]
    exact ⟨append_nil l, rfl⟩

/-! ## Templates -/

/-- How the specifications of a template are read. -/
structure Grammar (α σ : Type*) where
  mark : α
  /-- The specification at the head of a text, up to its last character, and the text from there
  on. -/
  read : List α → σ × List α
  suffix : ∀ p, (read p).2 <:+ p

/-- A piece of a template; a specification comes with its last character. -/
inductive Piece (α σ : Type*)
  | char (c : α)
  | spec (s : σ) (last : α)

namespace Grammar

variable (G : Grammar α σ)

theorem length_rest_lt {p rest : List α} {s : σ} {last : α} (h : G.read p = (s, last :: rest)) :
    rest.length < p.length := by
  have := (G.suffix p).length_le
  rw [h, length_cons] at this
  exact this

theorem mem_of_read {p rest : List α} {s : σ} (h : G.read p = (s, rest)) {c : α} (hc : c ∈ rest) :
    c ∈ p := by
  have hsuffix := G.suffix p
  rw [h] at hsuffix
  exact hsuffix.subset hc

variable {p : List α} {z : α}

theorem head?_append_ne (hz : G.mark ≠ z) (hp : p.head? ≠ some G.mark) :
    (p ++ [z]).head? ≠ some G.mark := by
  cases p with
  | nil => exact fun h => hz (some.inj h).symm
  | cons c p => exact hp

/-- The pieces of a template, unless it ends inside a specification. -/
def pieces [DecidableEq α] (t : List α) : Option (List (Piece α σ)) :=
  match t with
  | [] => some []
  | c :: p =>
    if c ≠ G.mark then (pieces p).map (.char c :: ·)
    else if p.head? = some G.mark then (pieces p.tail).map (.char c :: ·)
    else
      match _h : G.read p with
      | (_, []) => none
      | (s, last :: rest) => (pieces rest).map (.spec s last :: ·)
termination_by t.length
decreasing_by
  all_goals simp only [List.length_cons, List.length_tail]
  · omega
  · omega
  · have := G.length_rest_lt _h
    omega

section equations

variable [DecidableEq α] {G} {c last : α} {rest : List α} {s : σ}

@[simp] theorem pieces_nil : G.pieces [] = some [] := by
  rw [pieces]

theorem pieces_char (hc : c ≠ G.mark) : G.pieces (c :: p) = (G.pieces p).map (.char c :: ·) := by
  rw [pieces, if_pos hc]

theorem pieces_marks :
    G.pieces (G.mark :: G.mark :: p) = (G.pieces p).map (.char G.mark :: ·) := by
  rw [pieces, if_neg (not_not.2 rfl), if_pos (head?_cons ..), tail_cons]

theorem pieces_inside (hp : p.head? ≠ some G.mark) (h : G.read p = (s, [])) :
    G.pieces (G.mark :: p) = none := by
  rw [pieces, if_neg (not_not.2 rfl), if_neg hp]
  split
  · rfl
  · next h' => simp [h] at h'

theorem pieces_spec (hp : p.head? ≠ some G.mark) (h : G.read p = (s, last :: rest)) :
    G.pieces (G.mark :: p) = (G.pieces rest).map (.spec s last :: ·) := by
  rw [pieces, if_neg (not_not.2 rfl), if_neg hp]
  split
  · next h' => simp [h] at h'
  · next h' =>
    rw [h] at h'
    cases h'
    rfl

theorem induction_on {motive : List α → Prop} (t : List α) (nil : motive [])
    (char : ∀ c p, c ≠ G.mark → motive p → motive (c :: p))
    (marks : ∀ p, motive p → motive (G.mark :: G.mark :: p))
    (inside : ∀ p s, p.head? ≠ some G.mark → G.read p = (s, []) → motive (G.mark :: p))
    (spec : ∀ p s last rest, p.head? ≠ some G.mark → G.read p = (s, last :: rest) →
      motive rest → motive (G.mark :: p)) : motive t := by
  fun_induction G.pieces t with
  | case1 => exact nil
  | case2 c p hc ih => exact char c p hc ih
  | case3 c p hc hhead ih =>
    obtain rfl := not_not.1 hc
    cases p with
    | nil => cases hhead
    | cons d p =>
      cases hhead
      exact marks p ih
  | case4 c p hc hhead s hread =>
    obtain rfl := not_not.1 hc
    exact inside p s hhead hread
  | case5 c p hc hhead s last rest hread ih =>
    obtain rfl := not_not.1 hc
    exact spec p s last rest hhead hread ih

variable {ps : List (Piece α σ)}

theorem mem_of_spec_mem {t : List α} (ht : G.pieces t = some ps)
    (hs : .spec s last ∈ ps) : last ∈ t := by
  induction t using G.induction_on generalizing ps with
  | nil =>
    obtain rfl := some.inj (pieces_nil.symm.trans ht)
    cases hs
  | char c p hc ih =>
    rw [pieces_char hc] at ht
    obtain ⟨qs, hqs, rfl⟩ := map_eq_some_iff.1 ht
    exact mem_cons_of_mem c (ih hqs (by simpa using hs))
  | marks p ih =>
    rw [pieces_marks] at ht
    obtain ⟨qs, hqs, rfl⟩ := map_eq_some_iff.1 ht
    exact mem_cons_of_mem _ (mem_cons_of_mem _ (ih hqs (by simpa using hs)))
  | inside p s hhead hread =>
    rw [pieces_inside hhead hread] at ht
    cases ht
  | spec p s' last' rest hhead hread ih =>
    rw [pieces_spec hhead hread] at ht
    obtain ⟨qs, hqs, rfl⟩ := map_eq_some_iff.1 ht
    apply mem_cons_of_mem
    apply G.mem_of_read hread
    rcases mem_cons.1 hs with heq | hs
    · cases heq
      exact mem_cons_self
    · exact mem_cons_of_mem last' (ih hqs hs)

end equations

end Grammar

/-! ## Interpreters -/

section interpreter

variable {τ β δ : Type*} [DecidableEq α]

/-- A loop over a template that ends with `z`. It emits the characters, and applies the
specifications it scans to what it has emitted and to its arguments. A read behind the end of the
list has no outcome. -/
def interpret (mark z : α) (emit : τ → α → τ) (scan : List α → Option (δ × List α))
    (apply : τ → δ → β → Option (τ × β)) : (fuel : ℕ) → τ → List α → β → Option τ
  | 0, _, _, _ => none
  | _ + 1, _, [], _ => none
  | fuel + 1, o, c :: p, b =>
    if c = z then some o
    else if c ≠ mark then interpret mark z emit scan apply fuel (emit o c) p b
    else if p.head? = some mark then
      interpret mark z emit scan apply fuel (emit o mark) p.tail b
    else
      match scan p with
      | none => none
      | some (d, p) =>
        match apply o d b with
        | none => none
        | some (o, b) => interpret mark z emit scan apply fuel o p b

section rounds

variable {mark z c : α} {emit : τ → α → τ} {scan : List α → Option (δ × List α)}
  {apply : τ → δ → β → Option (τ × β)} {fuel : ℕ} {o : τ} {b : β} {p : List α}

theorem interpret_char (hz : c ≠ z) (hc : c ≠ mark) :
    interpret mark z emit scan apply (fuel + 1) o (c :: p) b =
      interpret mark z emit scan apply fuel (emit o c) p b := by
  rw [interpret, if_neg hz, if_pos hc]

theorem interpret_marks (hmark : mark ≠ z) :
    interpret mark z emit scan apply (fuel + 1) o (mark :: mark :: p) b =
      interpret mark z emit scan apply fuel (emit o mark) p b := by
  rw [interpret, if_neg hmark, if_neg (not_not.2 rfl), if_pos (head?_cons ..), tail_cons]

theorem interpret_scan (hmark : mark ≠ z) (hp : p.head? ≠ some mark) :
    interpret mark z emit scan apply (fuel + 1) o (mark :: p) b =
      (scan p).bind fun r => (apply o r.1 b).bind fun q =>
        interpret mark z emit scan apply fuel q.1 r.2 q.2 := by
  rw [interpret, if_neg hmark, if_neg (not_not.2 rfl), if_neg hp]
  cases scan p with
  | none => rfl
  | some r =>
    dsimp only [bind_some]
    cases apply o r.1 b <;> rfl

end rounds

/-- What the pieces of a template do, one after the other. -/
def play (emit : τ → α → τ) (act : τ → σ → α → β → Option (τ × β)) :
    List (Piece α σ) → τ → β → Option τ
  | [], o, _ => some o
  | .char c :: ps, o, b => play emit act ps (emit o c) b
  | .spec s last :: ps, o, b => (act o s last b).bind fun q => play emit act ps q.1 q.2

/-- The texts behind a mark that a loop over a template comes to, with the arguments it has there.
It goes on behind a specification that is scanned and applied. -/
def visits (mark z : α) (scan : List α → Option (δ × List α)) (apply : δ → β → Option β) :
    (fuel : ℕ) → List α → β → List (List α × β)
  | 0, _, _ => []
  | _ + 1, [], _ => []
  | fuel + 1, c :: p, b =>
    if c = z then []
    else if c ≠ mark then visits mark z scan apply fuel p b
    else if p.head? = some mark then visits mark z scan apply fuel p.tail b
    else
      (p, b) ::
        match scan p with
        | none => []
        | some (d, p) =>
          match apply d b with
          | none => []
          | some b => visits mark z scan apply fuel p b

section templates

variable {G : Grammar α σ} {z : α} {emit : τ → α → τ} {scan : List α → Option (δ × List α)}
  {apply : τ → δ → β → Option (τ × β)} {fuel : ℕ} {o : τ} {b : β} {t : List α}

theorem interpret_of_pieces {mk : σ → α → Option δ}
    (hscan : ∀ p s last rest, G.read p = (s, last :: rest) →
      scan (p ++ [z]) = (mk s last).map fun d => (d, rest ++ [z]))
    (hmark : G.mark ≠ z) (hz : z ∉ t) (ht : G.pieces t = some ps) (hfuel : t.length < fuel) :
    interpret G.mark z emit scan apply fuel o (t ++ [z]) b =
      play emit (fun o s last b => (mk s last).bind fun d => apply o d b) ps o b := by
  obtain _ | fuel := fuel
  · omega
  induction t using G.induction_on generalizing fuel o b ps with
  | nil =>
    obtain rfl := some.inj (Grammar.pieces_nil.symm.trans ht)
    exact if_pos rfl
  | char c p hc ih =>
    rw [Grammar.pieces_char hc] at ht
    obtain ⟨qs, hqs, rfl⟩ := map_eq_some_iff.1 ht
    rw [mem_cons, not_or] at hz
    rw [length_cons] at hfuel
    obtain _ | fuel := fuel
    · omega
    rw [cons_append, interpret_char (Ne.symm hz.1) hc]
    exact ih hz.2 hqs fuel (by omega)
  | marks p ih =>
    rw [Grammar.pieces_marks] at ht
    obtain ⟨qs, hqs, rfl⟩ := map_eq_some_iff.1 ht
    simp only [mem_cons, not_or] at hz
    simp only [length_cons] at hfuel
    obtain _ | fuel := fuel
    · omega
    rw [cons_append, cons_append, interpret_marks hmark]
    exact ih hz.2.2 hqs fuel (by omega)
  | inside p s hhead hread =>
    rw [Grammar.pieces_inside hhead hread] at ht
    cases ht
  | spec p s last rest hhead hread ih =>
    rw [Grammar.pieces_spec hhead hread] at ht
    obtain ⟨qs, hqs, rfl⟩ := map_eq_some_iff.1 ht
    have hlt := G.length_rest_lt hread
    rw [mem_cons, not_or] at hz
    rw [length_cons] at hfuel
    obtain _ | fuel := fuel
    · omega
    have hrest : z ∉ rest := fun h => hz.2 (G.mem_of_read hread (mem_cons_of_mem last h))
    rw [cons_append, interpret_scan hmark (G.head?_append_ne hmark hhead),
      hscan p s last rest hread, play]
    cases mk s last with
    | none => rfl
    | some d =>
      rw [map_some, bind_some, bind_some]
      congr 1
      funext q
      exact ih hrest hqs fuel (by omega)

/-- An interpreter that passes over the last character of every specification has no outcome on a
template that ends inside one: there it passes over the end of the text. -/
theorem interpret_of_inside
    (hscan : ∀ p d r, scan (p ++ [z]) = some (d, r) → r = ((G.read p).2 ++ [z]).tail)
    (hmark : G.mark ≠ z) (hz : z ∉ t) (ht : G.pieces t = none) :
    interpret G.mark z emit scan apply fuel o (t ++ [z]) b = none := by
  induction t using G.induction_on generalizing fuel o b with
  | nil => simp at ht
  | char c p hc ih =>
    rw [Grammar.pieces_char hc, map_eq_none_iff] at ht
    rw [mem_cons, not_or] at hz
    cases fuel with
    | zero => rfl
    | succ fuel =>
      rw [cons_append, interpret_char (Ne.symm hz.1) hc]
      exact ih hz.2 ht
  | marks p ih =>
    rw [Grammar.pieces_marks, map_eq_none_iff] at ht
    simp only [mem_cons, not_or] at hz
    cases fuel with
    | zero => rfl
    | succ fuel =>
      rw [cons_append, cons_append, interpret_marks hmark]
      exact ih hz.2.2 ht
  | inside p s hhead hread =>
    cases fuel with
    | zero => rfl
    | succ fuel =>
      rw [cons_append, interpret_scan hmark (G.head?_append_ne hmark hhead), bind_eq_none_iff]
      rintro ⟨d, r⟩ hd
      obtain rfl : r = [] := by
        rw [hscan p d r hd, hread]
        rfl
      rw [bind_eq_none_iff]
      intro q _
      cases fuel <;> rfl
  | spec p s last rest hhead hread ih =>
    rw [Grammar.pieces_spec hhead hread, map_eq_none_iff] at ht
    rw [mem_cons, not_or] at hz
    have hrest : z ∉ rest := fun h => hz.2 (G.mem_of_read hread (mem_cons_of_mem last h))
    cases fuel with
    | zero => rfl
    | succ fuel =>
      rw [cons_append, interpret_scan hmark (G.head?_append_ne hmark hhead), bind_eq_none_iff]
      rintro ⟨d, r⟩ hd
      obtain rfl : r = rest ++ [z] := by
        rw [hscan p d r hd, hread]
        rfl
      rw [bind_eq_none_iff]
      exact fun q _ => ih hrest ht

end templates

end interpreter

/-- A text lies in memory from `i` on. -/
def Lies (m : ℕ → α) : ℕ → List α → Prop
  | _, [] => True
  | i, c :: l => m i = c ∧ Lies m (i + 1) l

variable {m : ℕ → α}

theorem Lies.drop {i : ℕ} {l r : List α} (h : Lies m i (l ++ r)) :
    Lies m (i + l.length) r := by
  induction l generalizing i with
  | nil => exact h
  | cons c l ih =>
    rw [length_cons, Nat.add_comm l.length, ← Nat.add_assoc]
    exact ih h.2

theorem Lies.suffix {i : ℕ} {p r : List α} (h : Lies m i (p ++ [z]))
    (hr : r <:+ p) : Lies m (i + (p.length - r.length)) (r ++ [z]) := by
  obtain ⟨l, rfl⟩ := hr
  rw [append_assoc] at h
  rw [length_append, Nat.add_sub_cancel]
  exact h.drop

theorem Lies.head {i : ℕ} (h : Lies m i (p ++ [z])) :
    m i = p.head?.getD z := by
  cases p with
  | nil | cons c p => exact h.1

/-- What a scanner does in a state with the character it reads: it stops, or goes into a state, with
the pointer moved on or not. -/
abbrev Scanner (α Q : Type*) := Q → α → Option (Q × Bool)

namespace Scanner

variable (S : Scanner α Q) {b i : ℕ} {q q' : Q} {moved : Bool}

/-- One step, from a state and a pointer. -/
def Next (m : ℕ → α) (c c' : Q × ℕ) : Prop :=
  ∃ moved, S c.1 (m c.2) = some (c'.1, moved) ∧ c'.2 = if moved then c.2 + 1 else c.2

/-- No position behind `b` is ever read. -/
def Within (m : ℕ → α) (b : ℕ) (q : Q) (i : ℕ) : Prop :=
  ∀ c, Relation.ReflTransGen (S.Next m) (q, i) c → c.2 ≤ b

variable {S}

theorem Next.eq {c d d' : Q × ℕ} (h : S.Next m c d) (h' : S.Next m c d') : d = d' := by
  obtain ⟨v, hs, hi⟩ := h
  obtain ⟨v', hs', hi'⟩ := h'
  obtain ⟨hq, rfl⟩ := Prod.mk.inj (some.inj (hs.symm.trans hs'))
  exact Prod.ext hq (hi.trans hi'.symm)

theorem within_of_stop (h : S q (m i) = none) (hi : i ≤ b) : S.Within m b q i := by
  intro c hc
  cases hc.cases_head with
  | inl heq => exact heq ▸ hi
  | inr hnext =>
    obtain ⟨d, ⟨v, hs, -⟩, -⟩ := hnext
    rw [h] at hs
    cases hs

/-- What a scanner will read does not depend on where on its way it is asked. -/
theorem within_iff_of_step (h : S q (m i) = some (q', moved)) (hi : i ≤ b) :
    S.Within m b q i ↔ S.Within m b q' (if moved then i + 1 else i) := by
  have hnext : S.Next m (q, i) (q', if moved then i + 1 else i) := ⟨moved, h, rfl⟩
  constructor
  · exact fun hw c hc => hw c (hc.head hnext)
  · intro hw c hc
    cases hc.cases_head with
    | inl heq => exact heq ▸ hi
    | inr hstep =>
      obtain ⟨d, hd, hdc⟩ := hstep
      obtain rfl := hnext.eq hd
      exact hw c hdc

theorem within_iff_move (h : S q (m i) = some (q', true)) (hi : i ≤ b) :
    S.Within m b q i ↔ S.Within m b q' (i + 1) :=
  within_iff_of_step h hi

theorem within_iff_stay (h : S q (m i) = some (q', false)) (hi : i ≤ b) :
    S.Within m b q i ↔ S.Within m b q' i :=
  within_iff_of_step h hi

theorem not_within (hi : b < i) : ¬ S.Within m b q i :=
  fun h => absurd (h (q, i) .refl) (Nat.not_le.2 hi)

theorem within_iff_skip
    (hf : ∀ c, f c = true → S q c = some (q, true)) (hp : Lies m i (p ++ [z]))
    (hb : i + p.length ≤ b) :
    S.Within m b q i ↔ S.Within m b q (i + (p.length - (p.dropWhile f).length)) := by
  induction p generalizing i with
  | nil => rfl
  | cons c p ih =>
    rw [length_cons] at hb
    rw [dropWhile_cons]
    split
    · next hc =>
      have hle := (dropWhile_suffix (l := p) f).length_le
      rw [within_iff_move (hp.1.symm ▸ hf c hc) (by omega), ih hp.2 (by omega), length_cons]
      congr! 1
      omega
    · rw [Nat.sub_self, Nat.add_zero]

theorem within_iff_loop
    (hf : ∀ c, f c = true → S q c = some (q, true))
    (hleave : ∀ c, f c = false → S q c = some (q', false)) (hz : f z = false)
    (hp : Lies m i (p ++ [z])) (hb : i + p.length ≤ b) :
    S.Within m b q i ↔ S.Within m b q' (i + (p.length - (p.dropWhile f).length)) := by
  rw [within_iff_skip hf hp hb]
  apply within_iff_stay _ (by omega)
  apply hleave
  rw [(hp.suffix (dropWhile_suffix f)).head]
  have hnot := head?_dropWhile_not f p
  cases hhead : (p.dropWhile f).head? with
  | none => exact hz
  | some c =>
    rw [hhead] at hnot
    exact hnot

end Scanner

/-- A scanner that follows a grammar: `text` between the pieces, `marked` behind a mark, `start` at
the start of a specification and `last` at its last character. Texts end with `z`. -/
structure Follows (S : Scanner α Q) (G : Grammar α σ) (z : α) (text marked start last : Q) :
    Prop where
  mark : G.mark ≠ z
  stop : S text z = none
  onMark : S text G.mark = some (marked, true)
  onChar : ∀ c, c ≠ z → c ≠ G.mark → S text c = some (text, true)
  onMarks : S marked G.mark = some (text, true)
  onSpec : ∀ c, c ≠ G.mark → S marked c = some (start, false)
  onLast : ∀ c, S last c = some (text, true)
  read : ∀ (m : ℕ → α) (i b : ℕ) (p : List α), z ∉ p → Lies m i (p ++ [z]) → i + p.length ≤ b →
    (S.Within m b start i ↔ S.Within m b last (i + (p.length - (G.read p).2.length)))

namespace Follows

variable {S : Scanner α Q} {G : Grammar α σ} {z : α} {text marked start last : Q}
  {m : ℕ → α} {b i : ℕ} {p : List α}

open Scanner

theorem spec_iff (h : Follows S G z text marked start last) (hp : p.head? ≠ some G.mark)
    (hz : z ∉ p) (hm : Lies m i (G.mark :: p ++ [z])) (hb : i + 1 + p.length ≤ b) :
    S.Within m b text i ↔
      S.Within m b text (i + 1 + (p.length - (G.read p).2.length) + 1) := by
  have hhead : m (i + 1) ≠ G.mark := by
    rw [hm.2.head]
    cases p with
    | nil => exact h.mark.symm
    | cons c p => exact fun heq => hp (congrArg some heq)
  rw [within_iff_move (hm.1.symm ▸ h.onMark) (by omega),
    within_iff_stay (h.onSpec _ hhead) (by omega), h.read m (i + 1) b p hz hm.2 hb,
    within_iff_move (h.onLast _) (by omega)]

/-- **A scanner that follows a grammar stays inside a template if and only if the template does not
end inside a specification.** -/
theorem within_iff [DecidableEq α] (h : Follows S G z text marked start last) {t : List α}
    (hz : z ∉ t) (hm : Lies m i (t ++ [z])) :
    S.Within m (i + t.length) text i ↔ (G.pieces t).isSome := by
  induction t using G.induction_on generalizing i with
  | nil => exact iff_of_true (within_of_stop (hm.1.symm ▸ h.stop) (Nat.le_refl i)) (by simp)
  | char c p hc ih =>
    rw [mem_cons, not_or] at hz
    rw [within_iff_move (hm.1.symm ▸ h.onChar c (Ne.symm hz.1) hc) (by omega),
      Grammar.pieces_char hc, isSome_map, ← ih hz.2 hm.2, length_cons]
    congr! 1
    omega
  | marks p ih =>
    simp only [mem_cons, not_or] at hz
    rw [within_iff_move (hm.1.symm ▸ h.onMark) (by omega),
      within_iff_move (hm.2.1.symm ▸ h.onMarks) (by simp), Grammar.pieces_marks,
      isSome_map, ← ih hz.2.2 hm.2.2]
    congr! 1
    simp only [length_cons]
    omega
  | inside p s hhead hread =>
    -- the last character is the end of the text, and the next one is read too
    rw [mem_cons, not_or] at hz
    rw [length_cons, h.spec_iff hhead hz.2 hm (by omega), hread, Grammar.pieces_inside hhead hread]
    refine iff_of_false (not_within ?_) (by simp)
    simp only [length_nil]
    omega
  | spec p s e rest hhead hread ih =>
    rw [mem_cons, not_or] at hz
    obtain ⟨l, hl⟩ := G.suffix p
    obtain rfl : l ++ e :: rest = p := by rw [← hl, hread]
    have hlen : (l ++ e :: rest).length = l.length + (rest.length + 1) := by simp
    have hrest : Lies m (i + 1 + l.length + 1) (rest ++ [z]) := by
      have htail : Lies m (i + 1) (l ++ (e :: rest ++ [z])) := by
        rw [← append_assoc]
        exact hm.2
      exact htail.drop.2
    rw [length_cons, h.spec_iff hhead hz.2 hm (by omega), hread,
      Grammar.pieces_spec hhead hread, isSome_map,
      ← ih (fun hmem => hz.2 (by simp [hmem])) hrest, hlen]
    congr! 1
    · omega
    · simp only [length_cons]
      omega

end Follows

end Vlibc
