import Vlibc.Iconv.RoundTrip

/-!
# Conversion in several calls

Each call goes on from the arguments that the one before has left, with the next piece appended to
the input and a new output buffer. As a call that fails leaves the arguments as they were, this
works exactly if no call stops in the middle (`Undivided`): each converts all that it is given, or
not even one character.
-/

namespace Vlibc.Iconv

open List

/-- What the caller provides for one call: input to append, and the size of the output buffer. -/
structure Part where
  piece : List UInt8
  space : ℕ

/-- The caller's side: the input so far, `*inbuf` and `*inbytesleft`, and the output so far. -/
structure Session where
  input : List UInt8
  inbuf : ℕ
  inbytesleft : ℕ
  output : List UInt8
  deriving DecidableEq

namespace Session

/-- Nothing was given yet. -/
def start : Session := ⟨[], 0, 0, []⟩

/-- The arguments of the next call: what was left over and a new piece. -/
def args (s : Session) (p : Part) : Args := ⟨s.inbuf, s.inbytesleft + p.piece.length, 0, p.space⟩

/-- What the next call returns. -/
def reply (type : CdType) (s : Session) (p : Part) : Reply :=
  iconv (some type) (s.input ++ p.piece) (s.args p)

/-- A call: what the caller has afterwards. The output is what `*outbuf` has moved over. -/
def call (type : CdType) (s : Session) (p : Part) : Session where
  input := s.input ++ p.piece
  inbuf := (s.reply type p).args.inbuf
  inbytesleft := (s.reply type p).args.inbytesleft
  output := s.output ++ (s.reply type p).stored.take (s.reply type p).args.outbuf

/-- All calls of a session. -/
def run (type : CdType) (s : Session) (parts : List Part) : Session := parts.foldl (call type) s

end Session

/-- The whole input. -/
def whole (parts : List Part) : List UInt8 := parts.flatMap Part.piece

/-- After the call the arguments describe the part of the input that was converted. -/
def Described (type : CdType) (s : Session) (p : Part) : Prop :=
  ∃ w v r, Converted type.source.code type.target.code ((s.args p).src (s.input ++ p.piece)) p.space
      w v r ∧
    (s.reply type p).args = ⟨s.inbuf + w.length, r.length, v.length, p.space - v.length⟩

/-- The calls from `s` on: if one call could convert the whole input, its output is what the caller
gets, and nothing is left of the input; and after each error the arguments describe what was
converted. -/
structure ResumableFrom (type : CdType) (s : Session) (parts : List Part) : Prop where
  output : ∀ k out, Converts type (s.input ++ whole parts) k out →
    (s.run type parts).output = out ∧ (s.run type parts).inbytesleft = 0
  described : ∀ pre p post, parts = pre ++ p :: post →
    ((s.run type pre).reply type p).ret = none → Described type (s.run type pre) p

/-- No call stops in the middle; `left` is the input that is not converted yet. In the end all of it
is converted that can be. -/
def Undivided (C D : Code ℕ UInt8) : List UInt8 → List Part → Prop
  | left, [] => (∃ t, Transcodes C D left t) → left = []
  | left, p :: parts =>
    ((∃ t, Transcodes C D (left ++ p.piece) t ∧ t.length ≤ p.space) ∧ Undivided C D [] parts) ∨
    (Blocked C D (left ++ p.piece) p.space ∧ Undivided C D (left ++ p.piece) parts)

/-! ## One call -/

/-- Of the input, `done` was converted and `left` was not. -/
structure Session.Holds (type : CdType) (s : Session) (done left : List UInt8) : Prop where
  input : s.input = done ++ left
  inbuf : s.inbuf = done.length
  inbytesleft : s.inbytesleft = left.length
  output : Transcodes type.source.code type.target.code done s.output

section Call

variable {type : CdType} {s : Session} {p : Part} {parts : List Part} {done left : List UInt8}

theorem Session.Holds.args_eq (h : s.Holds type done left) (p : Part) :
    s.args p = ⟨done.length, (left ++ p.piece).length, 0, p.space⟩ := by
  rw [Session.args, h.inbuf, h.inbytesleft, length_append]

theorem Session.Holds.src_eq (h : s.Holds type done left) (p : Part) :
    (s.args p).src (s.input ++ p.piece) = left ++ p.piece := by
  rw [h.args_eq, Args.src, h.input, append_assoc, drop_left, take_length]

theorem Session.Holds.reply_cases (h : s.Holds type done left) (p : Part) :
    ∃ w v r, Converted type.source.code type.target.code (left ++ p.piece) p.space w v r ∧
      (s.reply type p).stored = v ∧
      ((r = [] ∧ (s.reply type p).ret ≠ none ∧ (s.reply type p).args =
          ⟨(done ++ (left ++ p.piece)).length, 0, v.length, p.space - v.length⟩) ∨
        (r ≠ [] ∧ (s.reply type p).ret = none ∧ (s.reply type p).args =
          ⟨done.length, (left ++ p.piece).length, 0, p.space⟩)) := by
  obtain ⟨w, v, r, hconv, hstored, hcase⟩ := iconv_cases type (s.input ++ p.piece) (s.args p)
  rw [h.src_eq] at hconv hcase
  refine ⟨w, v, r, hconv, hstored, hcase.imp ?_ ?_⟩
  · rintro ⟨hr, hret, hargs⟩
    have hlen : (done ++ (left ++ p.piece)).length = done.length + (left ++ p.piece).length :=
      length_append
    refine ⟨hr, hret, hargs.trans ?_⟩
    rw [h.args_eq, hlen, zero_add]
  · rintro ⟨hr, hret, hargs⟩
    exact ⟨hr, hret, hargs.trans (h.args_eq p)⟩

/-- **A call** converts all that there is, and the caller goes on behind it; or it fails, and the
caller goes on from where it was. The arguments then describe what was converted only if that is
nothing. -/
theorem Session.Holds.call_cases (h : s.Holds type done left) (p : Part) :
    ((∃ t, Transcodes type.source.code type.target.code (left ++ p.piece) t ∧ t.length ≤ p.space) ∧
      (s.reply type p).ret ≠ none ∧ (s.call type p).Holds type (done ++ (left ++ p.piece)) []) ∨
    ((¬ ∃ t, Transcodes type.source.code type.target.code (left ++ p.piece) t ∧
        t.length ≤ p.space) ∧
      (s.reply type p).ret = none ∧ (s.call type p).Holds type done (left ++ p.piece) ∧
      (Described type s p ↔
        Blocked type.source.code type.target.code (left ++ p.piece) p.space)) := by
  obtain ⟨w, v, r, hconv, hstored, ⟨rfl, hret, hargs⟩ | ⟨hne, hret, hargs⟩⟩ := h.reply_cases p
  · obtain rfl : left ++ p.piece = w := hconv.eq.trans (append_nil w)
    refine .inl ⟨⟨v, hconv.transcodes, hconv.room⟩, hret, ?_, ?_, ?_, ?_⟩
    · simp [Session.call, h.input]
    · simp only [Session.call, hargs]
    · simp only [Session.call, hargs, length_nil]
    · simp only [Session.call, hargs, hstored, take_length]
      exact h.output.append hconv.transcodes
  · refine .inr ⟨?_, hret, ⟨?_, ?_, ?_, ?_⟩, ?_⟩
    · rintro ⟨t, ht, hk⟩
      exact hne ((Converted.whole ht hk).unique hconv).2.2
    · simp [Session.call, h.input]
    · simp only [Session.call, hargs]
    · simp only [Session.call, hargs]
    · simp only [Session.call, hargs, take_zero, append_nil]
      exact h.output
    · rw [Described, h.src_eq, hargs, h.inbuf]
      constructor
      · rintro ⟨w', v', r', hconv', hargs'⟩
        simp only [Args.mk.injEq] at hargs'
        obtain ⟨hw, -, hv, -⟩ := hargs'
        obtain rfl : w' = [] := length_eq_zero_iff.1 (by omega)
        have hstop := hconv'.stop
        rwa [← hv, Nat.sub_zero, ← nil_append r', ← hconv'.eq] at hstop
      · exact fun hb => ⟨[], [], left ++ p.piece, .of_blocked hb, rfl⟩

end Call

section Run

variable {type : CdType} {s : Session} {p : Part} {parts : List Part} {done left : List UInt8}

theorem resumableFrom_nil (h : s.Holds type done left) :
    ResumableFrom type s [] ↔
      ((∃ t, Transcodes type.source.code type.target.code left t) → left = []) := by
  have hwhole : s.input ++ whole [] = done ++ left := by rw [h.input]; exact append_nil _
  constructor
  · rintro ⟨hout, -⟩ ⟨t, ht⟩
    rw [hwhole] at hout
    have hleft := (hout _ _ (converts_iff.2 ⟨h.output.append ht, le_refl _⟩)).2
    exact length_eq_zero_iff.1 (h.inbytesleft.symm.trans hleft)
  · intro hleft
    refine ⟨fun k out hconv => ?_, fun pre p post e => absurd e (by simp)⟩
    rw [hwhole] at hconv
    obtain ⟨t, rfl, ht⟩ := h.output.cancel (converts_iff.1 hconv).1
    obtain rfl := hleft ⟨t, ht⟩
    rw [ht.eq_nil]
    exact ⟨(append_nil _).symm, h.inbytesleft⟩

theorem resumableFrom_cons :
    ResumableFrom type s (p :: parts) ↔
      ((s.reply type p).ret = none → Described type s p) ∧
        ResumableFrom type (s.call type p) parts := by
  have hwhole : s.input ++ whole (p :: parts) = (s.call type p).input ++ whole parts :=
    (append_assoc ..).symm
  constructor
  · rintro ⟨hout, hdesc⟩
    rw [hwhole] at hout
    refine ⟨hdesc [] p parts rfl, hout, fun pre q post e => ?_⟩
    exact hdesc (p :: pre) q post (congrArg (p :: ·) e)
  · rintro ⟨hfirst, hout, hdesc⟩
    rw [← hwhole] at hout
    refine ⟨hout, fun pre q post e => ?_⟩
    cases pre with
    | nil =>
      cases e
      exact hfirst
    | cons b pre =>
      cases e
      exact hdesc pre q post rfl

theorem Session.Holds.resumableFrom_iff (h : s.Holds type done left) (parts : List Part) :
    ResumableFrom type s parts ↔
      Undivided type.source.code type.target.code left parts := by
  induction parts generalizing s done left with
  | nil => exact resumableFrom_nil h
  | cons p parts ih =>
    rw [resumableFrom_cons, Undivided]
    obtain ⟨hfits, hret, hnext⟩ | ⟨hfits, hret, hnext, hdesc⟩ := h.call_cases p
    · rw [ih hnext]
      constructor
      · rintro ⟨-, hrest⟩
        exact .inl ⟨hfits, hrest⟩
      · rintro (⟨-, hrest⟩ | ⟨hb, hrest⟩)
        · exact ⟨fun hnone => absurd hnone hret, hrest⟩
        · -- a call that converts everything and nothing was given nothing
          obtain ⟨t, ht, hk⟩ := hfits
          obtain ⟨e, -, -⟩ := (Converted.whole ht hk).unique (.of_blocked hb)
          rw [← e] at hrest
          exact ⟨fun hnone => absurd hnone hret, hrest⟩
    · rw [ih hnext, hdesc]
      constructor
      · rintro ⟨hb, hrest⟩
        exact .inr ⟨hb hret, hrest⟩
      · rintro (⟨hyes, -⟩ | ⟨hb, hrest⟩)
        · exact absurd hyes hfits
        · exact ⟨fun _ => hb, hrest⟩

end Run

/-- **Conversion in several calls** gives the output of one call, and the arguments describe what was
converted after every error, exactly if no call stops in the middle. -/
theorem resumable_iff (type : CdType) (parts : List Part) :
    ResumableFrom type .start parts ↔
      Undivided type.source.code type.target.code [] parts := by
  have hstart : Session.start.Holds type [] [] := ⟨rfl, rfl, rfl, .nil⟩
  exact hstart.resumableFrom_iff parts

/-- `ab` does not fit in a buffer of one byte. The call has stored `a`, but the arguments say that
nothing was converted, and the next call with a new buffer does the same. -/
theorem second_call_starts_over :
    iconv (some .asciiAscii) [97, 98] ⟨0, 2, 0, 2⟩ = ⟨some 2, none, ⟨2, 0, 2, 0⟩, [97, 98]⟩ ∧
    iconv (some .asciiAscii) [97, 98] ⟨0, 2, 0, 1⟩ = ⟨none, some E2BIG, ⟨0, 2, 0, 1⟩, [97]⟩ ∧
    Session.start.run .asciiAscii [⟨[97, 98], 1⟩, ⟨[], 1⟩] = ⟨[97, 98], 0, 2, []⟩ := by
  decide

end Vlibc.Iconv
