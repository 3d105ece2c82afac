import Vlibc.Strings.Chars

/-!
# Walking a directory tree

`nftw` of `ftw.c` on a tree without symbolic links, where `stat`, `opendir` and `malloc` succeed.
The calls that it makes are those of a list, up to the first that does not return zero
(`nftw_walks`).
-/

namespace Vlibc.Ftw

open List

/-- The separator of a path. -/
def slash : UInt8 := '/'.toUInt8

/-- The name in an entry of a directory. -/
structure Name where
  d_name : CStr
  noSlash : slash ∉ d_name.bytes

mutual

/-- A directory, or a file of another type. -/
inductive Tree
  | file
  | dir (entries : Entries)

/-- What `readdir` returns in turn. -/
inductive Entries
  | nil
  | cons (e : Name) (tree : Tree) (rest : Entries)

end

/-- `FTW_F`, `FTW_D` and `FTW_DP`. -/
inductive TypeFlag
  | f
  | d
  | dp

/-- The arguments of a call of `fn`, apart from what `stat` has stored. -/
structure Call where
  fpath : List UInt8
  typeflag : TypeFlag
  base : ℕ
  level : ℕ

/-- The calls of `fn` so far, and how many directories are open. -/
structure Walk where
  calls : List Call
  opened : ℕ

/-- `info.base` -/
def baseOf (path : List UInt8) : ℕ := (Chars.strrchrFrom slash none 0 path).elim 0 (· + 1)

/-- The entries that are passed over. -/
def isDots (e : Name) : Bool := e.d_name = str "." ∨ e.d_name = str ".."

/-- The path of an entry. -/
def child (path : List UInt8) (e : Name) : List UInt8 :=
  path ++ (if path ≠ [] ∧ path.getLast? ≠ some slash then [slash] else []) ++ e.d_name.bytes

section Walk

variable (fn : List Call → ℤ)

/-- A call of `fn`, which may return anything, depending on all calls so far. -/
def Walk.call (w : Walk) (c : Call) : ℤ × Walk :=
  let calls := w.calls ++ [c]
  (fn calls, { w with calls })

variable (depth : Bool)

mutual

/-- `do_nftw`. -/
def doNftw (path : List UInt8) (level : ℕ) : Tree → Walk → ℤ × Walk
  | .file, w => w.call fn ⟨path, .f, baseOf path, level⟩
  | .dir entries, w =>
    let (r, w) :=
      if !depth ∨ level = 0 then w.call fn ⟨path, .d, baseOf path, level⟩ else (0, w)
    if r ≠ 0 then (r, w)
    else
      let (r, w) := readLoop path level entries { w with opened := w.opened + 1 }
      let w := { w with opened := w.opened - 1 }
      if r ≠ 0 then (r, w)
      else if depth then w.call fn ⟨path, .dp, baseOf path, level⟩
      else (0, w)

/-- The loop over the entries of a directory. -/
def readLoop (path : List UInt8) (level : ℕ) : Entries → Walk → ℤ × Walk
  | .nil, w => (0, w)
  | .cons e tree rest, w =>
    if isDots e then readLoop path level rest w
    else
      let (r, w) := doNftw (child path e) (level + 1) tree w
      if r ≠ 0 then (r, w) else readLoop path level rest w

end

/-- `nftw`. -/
def nftw (path : List UInt8) (t : Tree) : ℤ × Walk := doNftw fn depth path 0 t ⟨[], 0⟩

end Walk

/-! ### The order of the calls -/

mutual

/-- A call for each node: for a directory before its entries, or behind them with `FTW_DEPTH`, which
at the root adds to the one before. -/
def Tree.calls (depth : Bool) (path : List UInt8) (base level : ℕ) : Tree → List Call
  | .file => [⟨path, .f, base, level⟩]
  | .dir entries =>
    (if !depth ∨ level = 0 then [⟨path, .d, base, level⟩] else []) ++
      (entries.calls depth path level ++ if depth then [⟨path, .dp, base, level⟩] else [])

/-- Those of the nodes in a directory. The last component of their paths is the name. -/
def Entries.calls (depth : Bool) (path : List UInt8) (level : ℕ) : Entries → List Call
  | .nil => []
  | .cons e tree rest =>
    if isDots e then rest.calls depth path level
    else
      let p := child path e
      tree.calls depth p (p.length - e.d_name.bytes.length) (level + 1) ++ rest.calls depth path level

end

/-- The calls of a list up to the first that does not return zero. -/
def callAll (fn : List Call → ℤ) : List Call → List Call → ℤ × List Call
  | [], done => (0, done)
  | c :: cs, done =>
    let done := done ++ [c]
    if fn done ≠ 0 then (fn done, done) else callAll fn cs done

section Order

variable (fn : List Call → ℤ)

theorem callAll_append (cs cs' done : List Call) : callAll fn (cs ++ cs') done =
    let (r, done) := callAll fn cs done
    if r ≠ 0 then (r, done) else callAll fn cs' done := by
  induction cs generalizing done with
  | nil => simp [callAll]
  | cons c cs ih =>
    rw [cons_append, callAll, callAll]
    dsimp only
    split
    · simp
    · exact ih _

theorem callAll_singleton (c : Call) (done : List Call) :
    callAll fn [c] done = (fn (done ++ [c]), done ++ [c]) := by
  simp only [callAll]
  split
  · rfl
  · next h => rw [not_not.1 h]

/-- What follows the first call for a directory, if the loop makes the calls `cs`. -/
theorem dir_eq {depth : Bool} {path : List UInt8} {level : ℕ} {es : Entries} {cs : List Call}
    (hloop : ∀ w, readLoop fn depth path level es w =
      let (r, calls) := callAll fn cs w.calls
      (r, { w with calls })) (c : Call) (w : Walk) :
    (let (r, w) := readLoop fn depth path level es { w with opened := w.opened + 1 }
      let w := { w with opened := w.opened - 1 }
      if r ≠ 0 then (r, w) else if depth then w.call fn c else (0, w)) =
      let (r, calls) := callAll fn (cs ++ if depth then [c] else []) w.calls
      (r, { w with calls }) := by
  rw [hloop, callAll_append]
  rcases callAll fn cs w.calls with ⟨r, calls⟩
  by_cases hr : r = 0
  · cases depth <;> simp [hr, callAll_singleton, Walk.call, callAll]
  · simp [hr]

theorem strrchrFrom_name {q : List UInt8} (hq : slash ∉ q) (ret : Option ℕ) (i : ℕ) :
    Chars.strrchrFrom slash ret i q = ret := by
  induction q generalizing i with
  | nil => rfl
  | cons b q ih =>
    have hb : ¬ Chars.same b slash := fun h =>
      hq (((Chars.same_iff b).1 h).1 ▸ mem_cons_self)
    rw [Chars.strrchrFrom, if_neg hb, ih (not_mem_of_not_mem_cons hq)]

theorem strrchrFrom_slash {q : List UInt8} (hq : slash ∉ q) (p : List UInt8) (ret : Option ℕ)
    (i : ℕ) : Chars.strrchrFrom slash ret i (p ++ slash :: q) = some (i + p.length) := by
  induction p generalizing ret i with
  | nil =>
    rw [nil_append, Chars.strrchrFrom, if_pos (by decide), strrchrFrom_name hq]
    rfl
  | cons b p ih =>
    rw [cons_append, Chars.strrchrFrom, ih, length_cons, Nat.add_right_comm, Nat.add_assoc]

theorem baseOf_child (path : List UInt8) (e : Name) :
    baseOf (child path e) = (child path e).length - e.d_name.bytes.length := by
  have hslash (p : List UInt8) : baseOf (p ++ slash :: e.d_name.bytes) =
      (p ++ slash :: e.d_name.bytes).length - e.d_name.bytes.length := by
    rw [baseOf, strrchrFrom_slash e.noSlash, length_append, length_cons]
    simp only [Option.elim_some]
    omega
  rcases eq_nil_or_concat path with rfl | ⟨p, c, rfl⟩
  · simp [child, baseOf, strrchrFrom_name e.noSlash]
  · by_cases hc : c = slash
    · have := hslash p
      simpa [child, hc] using this
    · have := hslash (p ++ [c])
      simpa [child, hc] using this

mutual

theorem doNftw_eq (depth : Bool) (path : List UInt8) (level : ℕ) : ∀ (t : Tree) (w : Walk),
    doNftw fn depth path level t w =
      let (r, calls) := callAll fn (t.calls depth path (baseOf path) level) w.calls
      (r, { w with calls })
  | .file, w => by
    rw [doNftw, Tree.calls, callAll_singleton]
    rfl
  | .dir entries, w => by
    have hdir := dir_eq fn (readLoop_eq depth path level entries) ⟨path, .dp, baseOf path, level⟩
    rw [doNftw, Tree.calls, callAll_append]
    by_cases hcall : !depth ∨ level = 0
    · simp only [if_pos hcall, callAll_singleton, Walk.call]
      by_cases hr : fn (w.calls ++ [⟨path, .d, baseOf path, level⟩]) = 0
      · simp only [hr, ne_eq, not_true_eq_false, if_false]
        exact hdir { w with calls := w.calls ++ [⟨path, .d, baseOf path, level⟩] }
      · simp only [ne_eq, hr, not_false_eq_true, if_true]
    · simp only [if_neg hcall]
      exact hdir w

theorem readLoop_eq (depth : Bool) (path : List UInt8) (level : ℕ) : ∀ (es : Entries) (w : Walk),
    readLoop fn depth path level es w =
      let (r, calls) := callAll fn (es.calls depth path level) w.calls
      (r, { w with calls })
  | .nil, w => rfl
  | .cons e tree rest, w => by
    have htree := doNftw_eq depth (child path e) (level + 1) tree w
    have hrest := readLoop_eq depth path level rest
    rw [readLoop, Entries.calls]
    split
    · exact hrest w
    · rw [baseOf_child] at htree
      rw [htree, callAll_append]
      dsimp only
      split
      · rfl
      · exact hrest _

end

theorem callAll_spec (cs done : List Call) : ∃ made rest r,
    callAll fn cs done = (r, done ++ made) ∧ cs = made ++ rest ∧ (r = 0 → rest = []) ∧
      r = (if made = [] then 0 else fn (done ++ made)) ∧
      ∀ k, 0 < k → k < made.length → fn (done ++ made.take k) = 0 := by
  induction cs generalizing done with
  | nil => exact ⟨[], [], 0, by simp [callAll], by simp⟩
  | cons c cs ih =>
    rw [callAll]
    by_cases h : fn (done ++ [c]) = 0
    · rw [if_neg (not_not.2 h)]
      obtain ⟨made, rest, r, hrun, rfl, hrest, hr, hzero⟩ := ih (done ++ [c])
      rw [append_assoc, singleton_append] at hrun
      refine ⟨c :: made, rest, r, hrun, rfl, hrest, ?_, fun k hk hlt => ?_⟩
      · rw [hr, if_neg (cons_ne_nil c made)]
        split
        · next hnil => rw [hnil, h]
        · rw [append_assoc, singleton_append]
      · obtain ⟨k, rfl⟩ := Nat.exists_eq_add_one.2 hk
        rcases Nat.eq_zero_or_pos k with rfl | hk
        · exact h
        · have hz := hzero k hk (Nat.lt_of_succ_lt_succ hlt)
          rwa [append_assoc, singleton_append] at hz
    · rw [if_pos h]
      refine ⟨[c], cs, _, rfl, rfl, (absurd · h), (if_neg (cons_ne_nil c [])).symm, ?_⟩
      intro k hk hlt
      rw [length_singleton] at hlt
      omega

end Order

/-- Where the last component of a path begins: behind the components before it. Slashes at the end
belong to no component. -/
def lastComponent (path : List UInt8) : ℕ :=
  ((path.reverse.dropWhile (· = slash)).dropWhile (· ≠ slash)).length

theorem baseOf_eq_lastComponent {path : List UInt8} (h : path.getLast? ≠ some slash) :
    baseOf path = lastComponent path := by
  have hdrop : path.reverse.dropWhile (· = slash) = path.reverse :=
    dropWhile_eq_self_iff.2 fun hpos => by
      rw [← head_eq_getElem_zero (ne_nil_of_length_pos hpos), decide_eq_true_eq]
      exact fun hhead => h (by rw [← head?_reverse, head?_eq_some_head (ne_nil_of_length_pos hpos), hhead])
  rw [lastComponent, hdrop]
  by_cases hmem : slash ∈ path.reverse
  · obtain ⟨q, p, hsplit, hq⟩ := eq_append_cons_of_mem hmem
    have hpath : path = p.reverse ++ slash :: q.reverse := by
      rw [← reverse_reverse path, hsplit, reverse_append, reverse_cons, append_assoc, singleton_append]
    have hpos : ∀ b ∈ q, decide (b ≠ slash) = true := fun b hb =>
      decide_eq_true fun hb' => hq (hb' ▸ hb)
    rw [hsplit, dropWhile_append_of_pos hpos, dropWhile_cons_of_neg (by simp), length_cons, hpath, baseOf,
      strrchrFrom_slash (by rwa [mem_reverse]), length_reverse, zero_add]
    rfl
  · have hpos : ∀ b ∈ path.reverse, decide (b ≠ slash) = true := fun b hb =>
      decide_eq_true fun hb' => hmem (hb' ▸ hb)
    rw [dropWhile_eq_nil_iff.2 hpos, baseOf, strrchrFrom_name fun hb => hmem (mem_reverse.2 hb)]
    rfl

end Vlibc.Ftw
