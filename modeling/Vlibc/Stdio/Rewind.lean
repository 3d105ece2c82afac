import Vlibc.Stdio.Content
import Vlibc.Stdio.MemArray

/-!
# `rewind` on memory streams

In a memory stream `buflen` is the length of the contents, and `rewind`, which sets it to zero for
every stream, drops them, where `fseek` to the start keeps them. The two agree on the streams that
have nothing to lose.
-/

namespace Vlibc.Stdio

open Stdio.Stream

variable {α : Type*} [Octet α] {k : Kernel α} {s t : Stream α}

/-- `fseek(f, 0, SEEK_SET)`, and the flags cleared. -/
def Stream.seekStart (k : Kernel α) (s : Stream α) : Option (Stream α) :=
  (s.fseek k 0 0).map fun (s, _) => ⟨{ s.file with error := false, eof := false }, s.sys⟩

theorem flushBuffer_of_mem (hm : s.file.isMem = true) :
    ∃ u r, s.flushBuffer k = some (u, r) ∧ u.file.isMem = true ∧
      u.file.buflen = s.file.buflen := by
  cases hbuf : s.file.buf with
  | none => exact ⟨s, 0, by simp only [flushBuffer, hbuf], hm, rfl⟩
  | some reg =>
    by_cases h0 : s.file.buflen = 0
    · exact ⟨s, 0, flushBuffer_eq_of_empty h0, hm, rfl⟩
    · refine ⟨(s.flushMem k).1, (s.flushMem k).2, ?_, ?_⟩
      · simp only [flushBuffer, hbuf, if_neg h0, hm, if_true]
      · -- neither `realloc` nor the terminator changes the two fields
        unfold flushMem growBuf
        dsimp only
        split_ifs
        · cases k.alloc s.sys.tick with
          | none | some p => exact ⟨hm, rfl⟩
        · exact ⟨hm, rfl⟩

theorem buflen_rewind (h : s.rewind k = some t) : t.file.buflen = 0 := by
  unfold rewind at h
  split at h
  · simp at h
  · cases h
    rfl

theorem buflen_seekStart (hm : s.file.isMem = true) (h : s.seekStart k = some t) :
    t.file.buflen = s.file.buflen := by
  obtain ⟨u, r, hflush, hum, hlen⟩ := flushBuffer_of_mem (k := k) hm
  rw [← hlen]
  simp only [seekStart, fseek, hflush, if_pos hum] at h
  split at h
  all_goals
    cases h
    rfl

theorem rewind_of_empty (hm : s.file.isMem = true) (h0 : s.file.buflen = 0) :
    ∃ t, s.rewind k = some t ∧ s.seekStart k = some t ∧ t.file.buf = s.file.buf := by
  refine ⟨⟨{ s.file.sought with error := false }, s.sys⟩, ?_, ?_, rfl⟩
  · simp only [rewind, flushBuffer_eq_of_empty h0, if_pos hm]
  · simp only [seekStart, fseek, flushBuffer_eq_of_empty h0]
    rw [if_neg (by decide), if_pos hm]
    simp [fseekMem, seekTarget, File.sought, File.rewound, h0]

/-- **On a memory stream `rewind` is `fseek` to the start if and only if the stream is empty.**
Where it is, the two leave the same stream, with the contents of before, and every sequence of reads
gets the same bytes from it. -/
theorem rewind_eq_seekStart_iff (hm : s.file.isMem = true) :
    (∃ t t', s.rewind k = some t ∧ s.seekStart k = some t' ∧ t = t' ∧
        t.file.pending = s.file.pending ∧
        ∀ ops, (Stream.reads k ops t).2 = (Stream.reads k ops t').2) ↔
      s.file.buflen = 0 := by
  constructor
  · rintro ⟨t, t', hrewind, hseek, rfl, -, -⟩
    exact (buflen_seekStart hm hseek).symm.trans (buflen_rewind hrewind)
  · intro h0
    obtain ⟨t, hrewind, hseek, hbuf⟩ := rewind_of_empty (k := k) hm h0
    refine ⟨t, t, hrewind, hseek, rfl, ?_, fun _ => rfl⟩
    simp only [File.pending, hbuf, h0, buflen_rewind hrewind]

/-- A stream of `open_memstream` to which nothing has been written. -/
theorem rewind_eq_seekStart_iff_new :
    ∃ y f t, openMemstream givesMemory Sys.start true true = (y, some f) ∧
      Stream.rewind givesMemory ⟨f, y⟩ = some t ∧ Stream.seekStart givesMemory ⟨f, y⟩ = some t := by
  have hopen : ∃ y f, openMemstream givesMemory Sys.start true true = (y, some f) ∧
      f.isMem = true ∧ f.buflen = 0 := ⟨_, _, rfl, rfl, rfl⟩
  obtain ⟨y, f, hopen, hm, h0⟩ := hopen
  obtain ⟨t, _, hrewind, hseek, rfl, -⟩ :=
    (rewind_eq_seekStart_iff (k := givesMemory) (s := ⟨f, y⟩) hm).2 h0
  exact ⟨y, f, t, hopen, hrewind, hseek⟩

/-- `fputc('a', f)` on a stream of `open_memstream`, and then the first byte is read: `fseek` finds
it and `rewind` does not. -/
theorem rewind_drops_contents :
    ∃ y f s t t', openMemstream givesMemory Sys.start true true = (y, some f) ∧
      Stream.fputc givesMemory ⟨f, y⟩ 97 = some (s, 97) ∧
      s.rewind givesMemory = some t ∧ (t.fgetc givesMemory).2 = none ∧
      s.seekStart givesMemory = some t' ∧ (t'.fgetc givesMemory).2 = some 97 :=
  ⟨_, _, _, _, _, rfl, rfl, rfl, rfl, rfl, rfl⟩

end Vlibc.Stdio
