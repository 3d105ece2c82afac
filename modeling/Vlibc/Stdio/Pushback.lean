import Vlibc.Stdio.Content

/-!
# `ungetc`

`fgetc` gives the byte that `ungetc` has pushed back before the bytes the stream has still to give,
and with it `fgets` and `getdelim`, which are loops around `fgetc`. `fread` is not: it leaves the
byte where it is, and returns what comes after it. `ungetc_seen_iff` says for which calls that makes
no difference.
-/

namespace Vlibc.Stdio

open List Option Stdio.Stream

variable {α : Type*} {k : Kernel α} {s s' t : Stream α} {y : Sys α} {n : ℕ}

/-- The byte pushed back, and the bytes the stream has still to give. -/
def Stream.upcoming (s : Stream α) : List α := s.file.ungot.toList ++ s.ahead

theorem fgetc_upcoming {c : Option α} (h : s.fgetc k = (s', c)) :
    s.upcoming = c.toList ++ s'.upcoming := by
  cases hu : s.file.ungot with
  | none =>
    have hgave := fgetc_gave hu h
    simp only [upcoming, hgave.ungot, hu]
    exact hgave.ahead
  | some ch =>
    simp only [fgetc, hu] at h
    cases h
    simp only [upcoming, hu]
    rfl

variable [Octet α]

theorem fgetsLoop_upcoming {cs : List α} (h : Stream.fgetsLoop k n s = (s', cs)) :
    s.upcoming = cs ++ s'.upcoming := by
  induction n generalizing s s' cs with
  | zero =>
    cases h
    rfl
  | succ n ih =>
    rw [fgetsLoop] at h
    split at h
    · next t ht =>
      cases h
      exact fgetc_upcoming ht
    · next t c ht =>
      rw [fgetc_upcoming ht]
      split at h
      · cases h
        rfl
      · cases h
        rw [ih rfl]
        rfl

theorem fgets_upcoming {size : ℤ} {str : List α} (h : s.fgets k size = (s', some str)) :
    s.upcoming = str.dropLast ++ s'.upcoming := by
  unfold fgets at h
  split at h
  · simp at h
  · rcases hloop : fgetsLoop k (size - 1).toNat s with ⟨t, cs⟩
    simp only [hloop] at h
    split at h
    · simp at h
    · cases h
      rw [dropLast_concat]
      exact fgetsLoop_upcoming hloop

/-! ## `getdelim` -/

/-- The bytes of the line that `getdelim` returns the length of. -/
def Line.text (l : Line α) (r : ℤ) : List α := ((l.ptr.map Region.bytes).getD []).take r.toNat

/-- The line begins with the bytes `bs`, and has room for a terminator. -/
structure Line.Holds (l : Line α) (bs : List α) (room : ℕ) : Prop where
  buffer : ∃ r, l.ptr = some r ∧ r.bytes.length = l.n ∧ r.bytes.take bs.length = bs
  room : bs.length + room ≤ l.n

variable {bs : List α} {l : Line α}

omit [Octet α] in
theorem Line.Holds.set {room : ℕ} (h : l.Holds bs (room + 1)) (c : α) :
    (l.set bs.length c).Holds (bs ++ [c]) room := by
  obtain ⟨⟨r, hptr, hlen, hbs⟩, hroom⟩ := h
  refine ⟨⟨r.put bs.length [c], by simp [Line.set, hptr], ?_, ?_⟩, ?_⟩
  · rw [length_put (by simp; omega)]
    exact hlen
  · rw [length_append, take_put (by omega), hbs]
  · rw [length_append, length_singleton]
    simp only [Line.set]
    omega

variable {y' : Sys α}

omit [Octet α] in
theorem Line.alloc_spec {old : List α}
    (h : Line.alloc k y old n = (y', some l)) :
    y'.disk = y.disk ∧ ∃ addr fresh, l = ⟨some ⟨addr, regrow old fresh n⟩, n⟩ := by
  unfold Line.alloc at h
  split at h
  · simp at h
  · next addr fresh _ =>
    obtain ⟨rfl, hl⟩ := Prod.mk.inj h
    exact ⟨rfl, addr, fresh, (some.inj hl).symm⟩

variable {l' : Line α}

omit [Octet α] in
theorem Line.reserve_disk {pos : ℕ}
    (h : l.reserve k y pos = (y', some l')) : y'.disk = y.disk := by
  unfold Line.reserve at h
  split at h
  · exact (Line.alloc_spec h).1
  · cases h
    rfl

omit [Octet α] in
theorem Line.Holds.reserve (h : l.Holds bs 1)
    (hlt : bs.length < SSIZE_MAX) (hr : l.reserve k y bs.length = (y', some l')) :
    l'.Holds bs 2 := by
  obtain ⟨⟨r, hptr, hlen, hbs⟩, hroom⟩ := h
  unfold Line.reserve at hr
  split at hr
  · next hle =>
    obtain ⟨-, addr, fresh, rfl⟩ := Line.alloc_spec hr
    have hn : l.n * 2 % 2 ^ 64 = l.n * 2 := by
      unfold SSIZE_MAX at hlt
      omega
    refine ⟨⟨_, rfl, length_regrow _ _ _, ?_⟩, by simp only [hn]; omega⟩
    simp only [hptr, map_some, getD_some, hn]
    rw [take_regrow _ (by omega) (by omega), hbs]
  · obtain ⟨-, hl'⟩ := Prod.mk.inj hr
    cases hl'
    exact ⟨⟨r, hptr, hlen, hbs⟩, by omega⟩

omit [Octet α] in
theorem upcoming_of_disk (h : y.disk = s.sys.disk) :
    Stream.upcoming ⟨s.file, y⟩ = s.upcoming := by
  simp only [upcoming, ahead, h]

omit [Octet α] in
theorem Line.Holds.terminate (h : l.Holds bs 1) (c : α) :
    (l.set bs.length c).text bs.length = bs := by
  obtain ⟨⟨r, hptr, hlen, hbs⟩, hroom⟩ := h
  simp only [Line.text, Line.set, hptr, map_some, getD_some, Int.toNat_natCast]
  rw [take_put_of_le le_rfl (by omega), hbs]

/-- By induction on the rounds: the line holds what the earlier rounds have taken. -/
theorem getdelimLoop_upcoming {delim r : ℤ} {fuel : ℕ}
    (hl : l.Holds bs 1) (hlen : bs.length + s.upcoming.length ≤ SSIZE_MAX)
    (h : Stream.getdelimLoop k delim fuel s l bs.length = some (s', l', r)) (hr : 0 ≤ r) :
    ∃ cs, s.upcoming = cs ++ s'.upcoming ∧ l'.text r = bs ++ cs := by
  induction fuel generalizing s l bs with
  | zero => simp [getdelimLoop] at h
  | succ fuel ih =>
    rw [getdelimLoop] at h
    split at h
    · next t ht =>
      have hup := fgetc_upcoming ht
      split at h
      · cases h
        simp at hr
      · obtain ⟨rfl, rfl, rfl⟩ : t = s' ∧ l.set bs.length Octet.nul = l' ∧ (bs.length : ℤ) = r := by
          simpa using h
        exact ⟨[], hup, by rw [hl.terminate, append_nil]⟩
    · next t c ht =>
      have hup := fgetc_upcoming ht
      rw [hup, toList_some, singleton_append, length_cons] at hlen
      have hlt : bs.length < SSIZE_MAX := by omega
      split at h
      · cases h
        simp at hr
      · next y lr hlr =>
        have hdisk := Line.reserve_disk hlr
        have hset := (hl.reserve hlt hlr).set c
        rw [← length_singleton (a := c), ← length_append] at h
        split at h
        · cases h
          refine ⟨[c], ?_, by simpa using hset.terminate Octet.nul⟩
          rw [hup, upcoming_of_disk hdisk]
          rfl
        · have hlen' : (bs ++ [c]).length + (upcoming ⟨t.file, y⟩).length ≤ SSIZE_MAX := by
            rw [upcoming_of_disk hdisk, length_append, length_singleton]
            omega
          obtain ⟨cs, hcs, htext⟩ := ih hset hlen' h
          refine ⟨c :: cs, ?_, by rw [htext, append_assoc]; rfl⟩
          rw [hup, ← upcoming_of_disk hdisk, hcs]
          rfl

theorem getdelim_upcoming {delim r : ℤ}
    (hl : ∀ reg, l.ptr = some reg → reg.bytes.length = l.n)
    (hlen : s.upcoming.length ≤ SSIZE_MAX)
    (h : s.getdelim k l delim = some (s', l', r)) (hr : 0 ≤ r) :
    s.upcoming = l'.text r ++ s'.upcoming := by
  unfold getdelim at h
  dsimp only at h
  split at h
  · generalize hn : (if l.n = 0 then 128 else l.n) = n at h
    have hpos : 0 < n := by
      rw [← hn]
      split <;> omega
    split at h
    · cases h
      simp at hr
    · next y lr hlr =>
      obtain ⟨hdisk, addr, fresh, rfl⟩ := Line.alloc_spec hlr
      have hholds : (⟨some ⟨addr, regrow [] fresh n⟩, n⟩ : Line α).Holds [] 1 :=
        ⟨⟨_, rfl, length_regrow _ _ _, rfl⟩, by simp only [length_nil]; omega⟩
      rw [← upcoming_of_disk hdisk] at hlen ⊢
      obtain ⟨cs, hcs, htext⟩ := getdelimLoop_upcoming hholds (by simpa using hlen) h hr
      rw [htext]
      exact hcs
  · next hbuf =>
    obtain ⟨hptr, hn⟩ := not_or.1 hbuf
    obtain ⟨reg, hreg⟩ := isSome_iff_exists.1 (by simpa [isSome_iff_ne_none] using hptr)
    have hholds : l.Holds [] 1 := ⟨⟨reg, hreg, hl reg hreg, rfl⟩, by simp; omega⟩
    obtain ⟨cs, hcs, htext⟩ := getdelimLoop_upcoming hholds (by simpa using hlen) h hr
    rw [htext]
    exact hcs

theorem getdelimLoop_isSome {delim : ℤ} {fuel pos : ℕ}
    (hfuel : s.upcoming.length < fuel) :
    (Stream.getdelimLoop k delim fuel s l pos).isSome := by
  induction fuel generalizing s l pos with
  | zero => simp at hfuel
  | succ fuel ih =>
    rw [getdelimLoop]
    split
    · split <;> rfl
    · next t c ht =>
      have hup := fgetc_upcoming ht
      split
      · rfl
      · next y lr hlr =>
        split
        · rfl
        · apply ih
          rw [upcoming_of_disk (Line.reserve_disk hlr)]
          rw [hup, toList_some, singleton_append, length_cons] at hfuel
          omega

theorem getdelim_isSome (s : Stream α) (l : Line α) (delim : ℤ) :
    (s.getdelim k l delim).isSome := by
  have hrounds : s.upcoming.length < s.ahead.length + 2 := by
    unfold upcoming
    cases s.file.ungot <;> simp
  unfold getdelim
  dsimp only
  split
  · split
    · rfl
    · next y lr hlr =>
      apply getdelimLoop_isSome
      rw [upcoming_of_disk (Line.alloc_spec hlr).1]
      exact hrounds
  · exact getdelimLoop_isSome hrounds

/-! ## Every reader -/

/-- A call that reads; `fread` is called for items of one byte. -/
inductive Reader (α : Type*)
  | fgetc
  | fgets (size : ℤ)
  | getdelim (l : Line α) (delim : ℤ)
  | fread (count : ℕ)

namespace Reader

/-- Make the call. What is returned are the bytes it returns; there are none if it fails. -/
def exec (k : Kernel α) (s : Stream α) : Reader α → Option (Stream α × List α)
  | fgetc => some ((s.fgetc k).1, (s.fgetc k).2.toList)
  | fgets size => some ((s.fgets k size).1, ((s.fgets k size).2.getD []).dropLast)
  | getdelim l delim =>
    (s.getdelim k l delim).map fun (s, l, r) => (s, if 0 ≤ r then l.text r else [])
  | fread count => some ((s.fread k 1 count).1, (s.fread k 1 count).2.1)

/-- The arguments are what the call needs: a line has the size `*n`, and the bytes read into it can
be counted in the return value. -/
def Fits (s : Stream α) : Reader α → Prop
  | getdelim l _ =>
    (∀ reg, l.ptr = some reg → reg.bytes.length = l.n) ∧ s.ahead.length < SSIZE_MAX
  | _ => True

/-- The call has read something, and `fread` all it was to read. -/
def Succeeds (out : List α) : Reader α → Prop
  | fread count => out ≠ [] ∧ out.length = count
  | _ => out ≠ []

/-- The byte pushed back is seen, or it is not told from those that come in its place. -/
def Sees (b : α) (ahead : List α) : Reader α → Prop
  | fread count => ∀ x ∈ ahead.take count, x = b
  | _ => True

end Reader

theorem ungetc_spec {b : α} (h : s.ungetc (some b) = (t, ((Octet.byte b).toNat : ℤ))) :
    t.ahead = s.ahead ∧ t.upcoming = b :: s.ahead := by
  unfold ungetc at h
  split at h
  · next ch hch _ =>
    cases hch
    cases h
    exact ⟨rfl, rfl⟩
  · have := (Prod.mk.inj h).2
    omega

omit [Octet α] in
theorem take_succ_eq_cons_iff {b : α} {l : List α} (hn : n < l.length) :
    l.take (n + 1) = b :: l.take n ↔ ∀ x ∈ l.take (n + 1), x = b := by
  induction n generalizing l with
  | zero => cases l <;> simp_all
  | succ n ih =>
    cases l with
    | nil => simp at hn
    | cons x l =>
      rw [take_succ_cons, take_succ_cons, cons.injEq, forall_mem_cons]
      constructor
      · rintro ⟨rfl, h⟩
        exact ⟨rfl, (ih (Nat.lt_of_succ_lt_succ hn)).1 h⟩
      · rintro ⟨rfl, h⟩
        exact ⟨rfl, (ih (Nat.lt_of_succ_lt_succ hn)).2 h⟩

omit [Octet α] in
theorem eq_cons_take_iff {b : α} {l out rest : List α} (h : l = out ++ rest) (hne : out ≠ []) :
    out = b :: l.take (out.length - 1) ↔ ∀ x ∈ l.take out.length, x = b := by
  obtain ⟨n, hn⟩ := Nat.exists_eq_add_one.2 (length_pos_iff.2 hne)
  have htake : l.take out.length = out := by
    rw [h, take_left]
  have hlt : n < l.length := by
    rw [h, length_append]
    omega
  have hiff := take_succ_eq_cons_iff (b := b) hlt
  rw [← hn, htake] at hiff
  rw [htake, hn, Nat.add_sub_cancel]
  exact hiff

theorem Reader.exec_upcoming {rd : Reader α} {out : List α} (hrd : rd.exec k t = some (s', out))
    (hne : out ≠ []) (hfit : rd.Fits s) (hlen : t.upcoming.length ≤ s.ahead.length + 1)
    (hfread : ∀ n, rd ≠ .fread n) : t.upcoming = out ++ s'.upcoming := by
  cases rd with
  | fgetc =>
    cases hrd
    exact fgetc_upcoming rfl
  | fgets size =>
    cases hrd
    cases hstr : (t.fgets k size).2 with
    | none => simp [hstr] at hne
    | some str => exact fgets_upcoming (Prod.ext rfl hstr)
  | getdelim l delim =>
    obtain ⟨⟨u, l', r⟩, hget, hpair⟩ := map_eq_some_iff.1 hrd
    cases hpair
    by_cases hr : 0 ≤ r
    · rw [if_pos hr]
      exact getdelim_upcoming hfit.1 (hlen.trans hfit.2) hget hr
    · simp [hr] at hne
  | fread count => exact absurd rfl (hfread count)

/-- **`ungetc` is seen by every reader but `fread`**: after `ungetc(b)`, a successful call of
`fgetc`, `fgets` or `getdelim` returns `b` and then the bytes the stream had to give; one of `fread`
does if and only if the bytes it returns are all equal to `b`. -/
theorem ungetc_seen_iff {b : α} {rd : Reader α} {out : List α}
    (hu : s.ungetc (some b) = (t, ((Octet.byte b).toNat : ℤ))) (hfit : rd.Fits s)
    (hrd : rd.exec k t = some (s', out)) (hout : rd.Succeeds out) :
    out = b :: s.ahead.take (out.length - 1) ↔ rd.Sees b s.ahead := by
  obtain ⟨hahead, hup⟩ := ungetc_spec hu
  -- with the byte in front of what the stream has to give, what comes out begins with it
  have seen : out ≠ [] → (∀ n, rd ≠ .fread n) → out = b :: s.ahead.take (out.length - 1) := by
    intro hne hfread
    have htaken := Reader.exec_upcoming hrd hne hfit (by rw [hup]; rfl) hfread
    rw [hup] at htaken
    obtain ⟨c, cs, rfl⟩ := exists_cons_of_ne_nil hne
    obtain ⟨rfl, hcs⟩ := cons.inj htaken
    rw [hcs, length_cons, Nat.add_sub_cancel]
    exact congrArg _ List.take_left.symm
  cases rd with
  | fgetc | fgets size | getdelim l delim => exact iff_of_true (seen hout nofun) trivial
  | fread count =>
    rcases hfread : t.fread k 1 count with ⟨u, bs, r⟩
    simp only [Reader.exec, hfread] at hrd
    cases hrd
    obtain ⟨hne, rfl⟩ := hout
    exact eq_cons_take_iff (hahead ▸ (fread_gave hfread).1.ahead) hne

/-- `ungetc('x', f); fgets(s, 8, f)` before the line `ab`. -/
theorem ungetc_seen_iff_fgets :
    ∃ s', (Reader.fgets 8).exec slowReads ((readStream.onFile [97, 98, 10]).ungetc (some 120)).1
        = some (s', [120, 97, 98, 10]) ∧
      [120, 97, 98, 10] = 120 :: (readStream.onFile [97, 98, 10]).ahead.take 3 := by
  have hfit : (Reader.fgets 8).Fits (readStream.onFile [97, 98, 10]) := trivial
  have hout : (Reader.fgets 8).Succeeds [(120 : UInt8), 97, 98, 10] := cons_ne_nil _ _
  have hrd : ∃ s', (Reader.fgets 8).exec slowReads
      ((readStream.onFile [97, 98, 10]).ungetc (some 120)).1 = some (s', [120, 97, 98, 10]) :=
    ⟨_, rfl⟩
  obtain ⟨s', hrd⟩ := hrd
  exact ⟨s', hrd, (ungetc_seen_iff rfl hfit hrd hout).2 trivial⟩

/-- `fgetc(f); ungetc('a', f); fread(p, 1, 1, f)` on the file `ab` returns the `b`. -/
theorem fread_passes_pushed_byte :
    ((readStream.onFile [97, 98]).fgetc slowReads).2 = some 97 ∧
      (((readStream.onFile [97, 98]).fgetc slowReads).1.ungetc (some 97)).2 = 97 ∧
      ((((readStream.onFile [97, 98]).fgetc slowReads).1.ungetc (some 97)).1.fread
        slowReads 1 1).2 = ([98], 1) := by
  decide

end Vlibc.Stdio
