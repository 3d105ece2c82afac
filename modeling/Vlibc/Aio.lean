import Vlibc.Foundations.Interleaving
import Vlibc.Foundations.Tape

/-!
# Asynchronous requests

The workers `reader` and `writer` of `aio.c`, on one file descriptor. A worker moves the file's
position to its offset with `lseek`, and then reads or writes at the position; the position is
shared, so another worker may move it in between.

If none does (`Alone`), every request transfers its data at its own offset (`transfer_at_offset`).
-/

namespace Vlibc.Aio

open Interleaving List

variable {ι α : Type*}

/-- What a request asks for: `aio_nbytes` to read, or the bytes to write. -/
inductive Job (α : Type*)
  | read (nbytes : ℕ)
  | write (buf : List α)

/-- `struct aiocb`. -/
structure Request (α : Type*) where
  job : Job α
  offset : ℤ

/-- How far a worker has come. -/
inductive Place (α : Type*)
  /-- `if (cb->aio_offset != -1) lseek(cb->aio_fildes, cb->aio_offset, SEEK_SET)`. -/
  | seek
  /-- `t->ret = read(…)` or `t->ret = write(…)`. -/
  | transfer
  /-- The bytes that were read or written. -/
  | done (data : List α)
  deriving DecidableEq

/-- `lseek(…, SEEK_SET)`; it fails for a negative offset, which the worker does not look at. -/
def seekTo (file : Tape α) (offset : ℤ) : Tape α :=
  if offset < 0 then file else { file with pos := offset.toNat }

/-- `read` or `write` at the position, of at most `took` bytes: what the system lets the call
transfer. The bytes between the end of the file and the position become `zero`. -/
def transfer (zero : α) (took : ℕ) (file : Tape α) : Job α → Tape α × List α
  | .read nbytes =>
    let data := file.rest.take (min took nbytes)
    (file.advance data.length, data)
  | .write buf =>
    let data := buf.take took
    (file.write zero data, data)

/-- One step of a worker: it moves the position, and then it transfers. -/
def move (zero : α) (req : Request α) (took : ℕ) (file : Tape α) :
    Place α → Option (Tape α × Place α)
  | .seek => some (if req.offset ≠ -1 then seekTo file req.offset else file, .transfer)
  | .transfer =>
    let r := transfer zero took file req.job
    some (r.1, .done r.2)
  | .done _ => none

/-- The workers of the requests. -/
def program (zero : α) (reqs : ι → Request α) : Program ι ℕ (Tape α) (Place α) :=
  fun i => move zero (reqs i)

/-- All requests are outstanding, on a file with any content and position. -/
def start (file : Tape α) : Conf ι (Tape α) (Place α) := ⟨file, fun _ => .seek⟩

/-- The request transferred `data` at its own offset: the bytes read stand there in the file, which
is unchanged, or the bytes written are written there. -/
def AtOffset (zero : α) (req : Request α) (before after : List α) (data : List α) : Prop :=
  match req.job with
  | .read nbytes =>
    data <+: before.drop req.offset.toNat ∧ data.length ≤ nbytes ∧ after = before
  | .write buf =>
    data <+: buf ∧ after = (Tape.write zero ⟨before, req.offset.toNat⟩ data).cells

/-- No other request is between its `lseek` and its transfer. -/
def Alone (i : ι) (c : Conf ι (Tape α) (Place α)) : Prop := ∀ j, j ≠ i → c.loc j ≠ .transfer

section alone

variable [DecidableEq ι] {zero : α} {reqs : ι → Request α} {c c' : Conf ι (Tape α) (Place α)}

/-- A request between its two calls finds the position at its offset. -/
def Ready (reqs : ι → Request α) (c : Conf ι (Tape α) (Place α)) : Prop :=
  ∀ i, c.loc i = .transfer → c.mem.pos = (reqs i).offset.toNat

theorem step_ready {a : ι × ℕ} (hreqs : ∀ i, 0 ≤ (reqs i).offset) (hok : Alone a.1 c)
    (hstep : (program zero reqs).step a c = some c') : Ready reqs c' := by
  obtain ⟨m, t, hmove, rfl⟩ := Program.step_eq_some hstep
  obtain ⟨i, took⟩ := a
  intro j hj
  dsimp only at hj ⊢
  by_cases hji : j = i
  · subst hji
    rw [Function.update_self] at hj
    subst hj
    have hoffset := hreqs j
    cases hp : c.loc j with
    | seek =>
      simp only [hp, program, move] at hmove
      cases hmove
      rw [if_pos (by omega), seekTo, if_neg (by omega)]
    | transfer =>
      simp only [hp, program, move] at hmove
      exact absurd (Prod.mk.inj (Option.some.inj hmove)).2 (by simp)
    | done data => simp [hp, program, move] at hmove
  · rw [Function.update_of_ne hji] at hj
    exact absurd hj (hok j hji)

/-- **A request transfers its data at its own offset**, at the end of every run in which no worker
moves while another one is between its `lseek` and its transfer. -/
theorem transfer_at_offset {file : Tape α} {as : List (ι × ℕ)} (i : ι) (took : ℕ)
    {data : List α} (hreqs : ∀ i, 0 ≤ (reqs i).offset)
    (hrun : (program zero reqs).exec as (start file) = some c)
    (hok : (program zero reqs).Meets Alone as (start file))
    (hstep : (program zero reqs).step (i, took) c = some c') (hdone : c'.loc i = .done data) :
    AtOffset zero (reqs i) c.mem.cells c'.mem.cells data := by
  have hready : Ready reqs c := by
    refine Program.exec_invariant (fun a c c' _ hok hstep => step_ready hreqs hok hstep) ?_ hok hrun
    intro j hj
    exact absurd hj (by simp [start])
  obtain ⟨m, t, hmove, rfl⟩ := Program.step_eq_some hstep
  have ht : t = .done data := by simpa using hdone
  subst ht
  cases hp : c.loc i with
  | seek | done data => simp [hp, program, move] at hmove
  | transfer =>
    simp only [hp, program, move] at hmove
    obtain ⟨rfl, hdata⟩ := Prod.mk.inj (Option.some.inj hmove)
    obtain rfl := (Place.done.inj hdata).symm
    have hpos := hready i hp
    unfold AtOffset transfer
    cases (reqs i).job with
    | read nbytes =>
      refine ⟨?_, ?_, rfl⟩
      · dsimp only [Tape.rest]
        rw [hpos]
        exact take_prefix _ _
      · rw [length_take]
        omega
    | write buf =>
      refine ⟨?_, ?_⟩
      · exact take_prefix _ _
      · dsimp only
        rw [← hpos]

end alone

/-- A request to read a byte at the start of the file, and one for the byte behind it. -/
def twoReads : Fin 2 → Request UInt8 := fun i => ⟨.read 1, i⟩

instance (i : Fin 2) (c : Conf (Fin 2) (Tape UInt8) (Place UInt8)) : Decidable (Alone i c) :=
  inferInstanceAs (Decidable (∀ j, j ≠ i → c.loc j ≠ .transfer))

/-- One worker after the other. -/
theorem transfer_at_offset_two :
    ∃ c c', (program 0 twoReads).exec [(0, 1), (0, 1), (1, 1)] (start ⟨[104, 105], 0⟩) = some c ∧
      (program 0 twoReads).step (1, 1) c = some c' ∧ c'.loc 1 = .done [105] ∧
      AtOffset 0 (twoReads 1) c.mem.cells c'.mem.cells [105] := by
  have hrun : (program 0 twoReads).exec [(0, 1), (0, 1), (1, 1)] (start ⟨[104, 105], 0⟩)
    = some _ := rfl
  exact ⟨_, _, hrun, rfl, rfl, transfer_at_offset 1 1 (by decide) hrun (by decide) rfl rfl⟩

/-- Both workers move the position before the first one reads: it reads the other one's byte. -/
theorem reads_other_offset :
    ∃ c c', (program 0 twoReads).exec [(0, 1), (1, 1)] (start ⟨[104, 105], 0⟩) = some c ∧
      (program 0 twoReads).step (0, 1) c = some c' ∧ c'.loc 0 = .done [105] ∧
      ¬ AtOffset 0 (twoReads 0) c.mem.cells c'.mem.cells [105] := by
  refine ⟨_, _, rfl, rfl, rfl, ?_⟩
  intro h
  exact absurd h.1 (by decide)

end Vlibc.Aio
