import Vlibc.Strings

/-!
# Temporary files

`mkstemp` and `mkostemp` of `tempfile.c`. Each attempt calls `replace_x`, which asks again for a
template that ends in `XXXXXX`: a second attempt is made only if the random characters of the first
were six times `X` (`mkstemp_retries_iff`).
-/

namespace Vlibc.Tempfile

open List

/-- The errors. -/
inductive Errno where
  | einval
  | eexist
  | other (e : ℕ)
  deriving DecidableEq

/-- What the attempts find outside: attempt `i` draws the bytes `rnd i`, and its `open` with these
flags on this name gives a descriptor or an error. -/
structure System where
  rnd : ℕ → ℕ → UInt8
  openFile : ℕ → ℕ → CStr → Except Errno ℕ

/-- The characters of a name. -/
def chars : List UInt8 :=
  (str "abcdefghijklmnopqrstuvwxyzABCDEFGHIJKLMNOPQRSTUVWXYZ0123456789").bytes

/-- `chars[rnd[i] % (sizeof(chars) - 1)]` for the six random bytes. -/
def fill (rnd : ℕ → UInt8) : CStr where
  bytes := (range 6).map fun i => chars.getD ((rnd i).toNat % 62) 0
  noNul h := by
    obtain ⟨i, -, hi⟩ := mem_map.1 h
    have hall : ∀ j < 62, chars.getD j 0 ≠ 0 := by decide
    exact hall _ (Nat.mod_lt _ (by decide)) hi

/-- The end of a template. -/
def sixX : CStr := str "XXXXXX"

/-- The new template, or `none` where the old one is refused. -/
def replaceX (rnd : ℕ → UInt8) (template : CStr) : Option CStr :=
  let len := vstrlen template
  if len < 6 ∨ strcmp (template.drop (len - 6)) (sixX) ≠ 0 then none
  else some ((template.take (len - 6)).append (fill rnd))

/-- The loop from attempt `i` on, with `left` attempts left: what is returned, and the template. -/
def attempts (sys : System) (flags : ℕ) : ℕ → ℕ → CStr → Except Errno ℕ × CStr
  | 0, _, template => (.error .eexist, template)
  | left + 1, i, template =>
    match replaceX (sys.rnd i) template with
    | none => (.error .einval, template)
    | some template =>
      match sys.openFile i flags template with
      | .ok fd => (.ok fd, template)
      | .error .eexist => attempts sys flags left (i + 1) template
      | .error e => (.error e, template)

/-- Both functions, with the flags that they give to `open`. -/
def makeFile (sys : System) (flags : ℕ) : Option CStr → Except Errno ℕ × Option CStr
  | none => (.error .einval, none)
  | some template => (attempts sys flags 100 0 template).map id some

/-- Here `create` is `O_RDWR | O_CREAT | O_EXCL`. -/
def mkstemp (sys : System) (create : ℕ) (template : Option CStr) : Except Errno ℕ × Option CStr :=
  makeFile sys create template

/-- `mkostemp`. -/
def mkostemp (sys : System) (create : ℕ) (template : Option CStr) (flags : ℕ) :
    Except Errno ℕ × Option CStr :=
  makeFile sys (flags ||| create) template

/-- `replace_x` takes a template exactly if its last six characters are `X`. -/
theorem replaceX_append (rnd : ℕ → UInt8) (p : CStr) {w : CStr} (hw : vstrlen w = 6) :
    replaceX rnd (p.append w) = if w = sixX then some (p.append (fill rnd)) else none := by
  have hlen : vstrlen (p.append w) = p.bytes.length + 6 := by rw [← hw]; exact length_append
  have hdrop : (p.append w).drop p.bytes.length = w := CStr.ext (drop_left ..)
  have htake : (p.append w).take p.bytes.length = p := CStr.ext (take_left ..)
  have hcmp := strcmp_eq_zero_iff w (sixX) (by decide)
  have hge : ¬ p.bytes.length + 6 < 6 := by omega
  simp only [replaceX, hlen, Nat.add_sub_cancel, hdrop, htake, ne_eq, hcmp, hge, false_or, ite_not]

/-- The name that attempt `i` asks for, where `p` is in front of the random characters. -/
def System.name (sys : System) (p : CStr) (i : ℕ) : CStr := p.append (fill (sys.rnd i))

/-- From attempt `i` on, `open` meets an existing file `k` times and then creates one. -/
structure Collides (sys : System) (flags : ℕ) (p : CStr) (i k fd : ℕ) : Prop where
  exist : ∀ j < k, sys.openFile (i + j) flags (sys.name p (i + j)) = .error .eexist
  ok : sys.openFile (i + k) flags (sys.name p (i + k)) = .ok fd

/-- The attempts end with the descriptor exactly if each template on the way ended in `XXXXXX`. -/
theorem attempts_spec {sys : System} {flags fd : ℕ} (p : CStr) (k : ℕ) :
    ∀ {left i : ℕ} {w : CStr}, k < left → vstrlen w = 6 → Collides sys flags p i k fd →
      if w = sixX ∧ ∀ j < k, fill (sys.rnd (i + j)) = sixX then
        attempts sys flags left i (p.append w) = (.ok fd, sys.name p (i + k))
      else (attempts sys flags left i (p.append w)).1 = .error .einval := by
  induction k with
  | zero =>
    intro left i w hleft hw h
    obtain ⟨left, rfl⟩ := Nat.exists_eq_add_of_lt hleft
    have hok : sys.openFile i flags (p.append (fill (sys.rnd i))) = .ok fd := h.ok
    rw [attempts, replaceX_append _ _ hw]
    by_cases hx : w = sixX <;> simp [hx, hok, System.name]
  | succ k ih =>
    intro left i w hleft hw h
    obtain ⟨left, rfl⟩ : ∃ l, left = l + 1 := ⟨left - 1, by omega⟩
    have hadd (j : ℕ) : i + 1 + j = i + (j + 1) := by omega
    have hnext := @ih left (i + 1) (fill (sys.rnd i)) (by omega) rfl
      ⟨fun j hj => hadd j ▸ h.exist (j + 1) (by omega), hadd k ▸ h.ok⟩
    rw [attempts, replaceX_append _ _ hw]
    by_cases hx : w = sixX
    · have hfirst : sys.openFile i flags (p.append (fill (sys.rnd i))) = _ := h.exist 0 k.succ_pos
      simp only [hadd] at hnext
      simpa only [hx, if_true, hfirst, true_and, Nat.forall_lt_succ_left, add_zero] using hnext
    · simp [hx]

theorem makeFile_eq_iff {sys : System} {flags fd : ℕ} {p : CStr} {k : ℕ} (hk : k < 100)
    (h : Collides sys flags p 0 k fd) :
    makeFile sys flags (some (p.append (sixX))) = (.ok fd, some (sys.name p k)) ↔
      ∀ i < k, fill (sys.rnd i) = sixX := by
  have hspec := attempts_spec p k (w := sixX) hk rfl h
  simp only [zero_add, true_and] at hspec
  constructor
  · intro hmake
    by_contra hne
    rw [if_neg hne] at hspec
    simp [makeFile, Prod.map, hspec] at hmake
  · intro hall
    rw [if_pos hall] at hspec
    rw [makeFile, hspec]
    rfl

/-- Where `open` meets an existing file `k` times and then creates one, `mkstemp` and `mkostemp`
return its descriptor and leave its name in the template exactly if each of the first `k` fills
wrote `XXXXXX` again. -/
theorem mkstemp_retries_iff (sys : System) (create flags fd : ℕ) (p : CStr) {k : ℕ} (hk : k < 100) :
    (Collides sys create p 0 k fd →
      (mkstemp sys create (some (p.append (sixX))) = (.ok fd, some (sys.name p k)) ↔
        ∀ i < k, fill (sys.rnd i) = sixX)) ∧
    (Collides sys (flags ||| create) p 0 k fd →
      (mkostemp sys create (some (p.append (sixX))) flags = (.ok fd, some (sys.name p k)) ↔
        ∀ i < k, fill (sys.rnd i) = sixX)) :=
  ⟨makeFile_eq_iff hk, makeFile_eq_iff hk⟩

/-- Random bytes that are all zero, and a file that exists at the first attempt only. -/
def collision : System where
  rnd _ _ := 0
  openFile i _ _ := if i = 0 then .error .eexist else .ok 3

theorem collides_collision : Collides collision 194 (str "t") 0 1 3 :=
  ⟨fun j hj => by rw [Nat.lt_one_iff.1 hj]; rfl, rfl⟩

theorem mkstemp_retries_zeros :
    mkstemp collision 194 (some ((str "t").append sixX)) ≠
      (.ok 3, some (collision.name (str "t") 1)) := by
  intro h
  have hfill := ((mkstemp_retries_iff collision 194 0 3 (str "t") (by decide)).1
    collides_collision).1 h 0 Nat.one_pos
  exact absurd hfill (by decide)

theorem mkstemp_gives_up : Collides collision 194 (str "t") 0 1 3 ∧
    mkstemp collision 194 (some (str "tXXXXXX")) = (.error .einval, some (str "taaaaaa")) :=
  ⟨collides_collision, by decide⟩

end Vlibc.Tempfile
