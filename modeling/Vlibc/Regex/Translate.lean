import Vlibc.Regex.Syntax

/-!
# `regcomp` on patterns without groups

`regcomp` compiles every pattern of `Ere` to the tokens of its alternatives (`regcomp_eq`), provided
that the two expansions see its brackets as they are meant. They take a bracket to end at the first
`]` that is not escaped, which may be the one of a class name; what follows in the bracket is then
outside for them, and must not be a `(`, a `|` or a `{` (`spills`).
-/

namespace Vlibc.Regex

open List

/-! ## Texts that the expansions pass over -/

/-- A text of bytes that are `ok` and of escapes. -/
inductive Units (ok : UInt8 → Prop) : List UInt8 → Prop
  | nil : Units ok []
  | char {c : UInt8} {w : List UInt8} : c ≠ '\\'.toUInt8 → ok c → Units ok w → Units ok (c :: w)
  | esc {c : UInt8} {w : List UInt8} : Units ok w → Units ok ('\\'.toUInt8 :: c :: w)

/-- A text in which the expansions find nothing to do. It may have a `|`, or a `)` that closes no
group, if `bars` or `parens` say so. -/
inductive Inert (bars parens : Bool) : List UInt8 → Prop
  | nil : Inert bars parens []
  | char {c : UInt8} {s : List UInt8} : c ∉ bytes "\\[()\x7b|" → Inert bars parens s →
      Inert bars parens (c :: s)
  | bar {s : List UInt8} : bars → Inert bars parens s → Inert bars parens ('|'.toUInt8 :: s)
  | paren {s : List UInt8} : parens → Inert bars parens s → Inert bars parens (')'.toUInt8 :: s)
  | esc {c : UInt8} {s : List UInt8} : Inert bars parens s →
      Inert bars parens ('\\'.toUInt8 :: c :: s)
  | bracket {w s : List UInt8} : Units (· ≠ ']'.toUInt8) w → Inert bars parens s →
      Inert bars parens ('['.toUInt8 :: (w ++ ']'.toUInt8 :: s))

section Inert

variable {bars parens : Bool} {u v w s : List UInt8} {ok : UInt8 → Prop}

theorem Units.append (hu : Units ok u) (hv : Units ok v) : Units ok (u ++ v) := by
  induction hu with
  | nil => exact hv
  | char hne hok _ ih => exact .char hne hok ih
  | esc _ ih => exact .esc ih

theorem Inert.append (hu : Inert bars parens u) (hv : Inert bars parens v) :
    Inert bars parens (u ++ v) := by
  induction hu with
  | nil => exact hv
  | char hc _ ih => exact .char hc ih
  | bar h _ ih => exact .bar h ih
  | paren h _ ih => exact .paren h ih
  | esc _ ih => exact .esc ih
  | bracket hw _ ih =>
    rw [cons_append, append_assoc]
    exact .bracket hw ih

theorem bracketEnd_units (hw : Units (· ≠ ']'.toUInt8) w) :
    bracketEnd false (w ++ ']'.toUInt8 :: s) = (w ++ [']'.toUInt8], s) := by
  induction hw with
  | nil => simp [bracketEnd]
  | char hne hok _ ih => simp [bracketEnd, hne, hok, ih]
  | esc _ ih => simp +decide [bracketEnd, ih]

theorem splitAlts_units (hw : Units (· ≠ ']'.toUInt8) w) (level : ℕ) :
    splitAlts false true level (w ++ ']'.toUInt8 :: s) =
      (w ++ [']'.toUInt8]).foldr consHead (splitAlts false false level s) := by
  induction hw with
  | nil => simp +decide [splitAlts]
  | char hne hok _ ih => simp [splitAlts, hne, hok, ih]
  | esc _ ih => simp [splitAlts, ih]

theorem Inert.head_ne (hs : Inert bars parens s) : s.head? ≠ some '{'.toUInt8 := by
  cases hs with
  | nil => exact (nomatch ·)
  | char hc _ =>
    rw [List.head?_cons, ne_eq, Option.some.injEq]
    rintro rfl
    exact hc (by decide)
  | _ => simp +decide

variable {c : UInt8}

theorem nextItem_char (hc : c ∉ bytes "\\[(") : nextItem (c :: s) = ([c], s) := by
  have hmem : c ≠ '\\'.toUInt8 ∧ c ≠ '['.toUInt8 ∧ c ≠ '('.toUInt8 := by
    refine ⟨?_, ?_, ?_⟩ <;>
    · rintro rfl
      exact hc (by decide)
  rw [nextItem, if_neg (fun h => hmem.1 h.1), if_neg hmem.2.1, if_neg hmem.2.2]

theorem Inert.exists_item (hs : Inert bars parens s) (hne : s ≠ []) (v : List UInt8) :
    ∃ item rest, s = item ++ rest ∧ item ≠ [] ∧ item.head? ≠ some '('.toUInt8 ∧
      Inert bars parens rest ∧ nextItem (s ++ v) = (item, rest ++ v) := by
  cases hs with
  | nil => exact absurd rfl hne
  | @char c s hc hs =>
    refine ⟨[c], s, rfl, List.cons_ne_nil _ _, ?_, hs, nextItem_char fun h => hc ?_⟩
    · rw [List.head?_cons, ne_eq, Option.some.injEq]
      rintro rfl
      exact hc (by decide)
    · exact (by decide : bytes "\\[(" ⊆ bytes "\\[()\x7b|") h
  | bar _ hs => exact ⟨_, _, rfl, List.cons_ne_nil _ _, by decide, hs, nextItem_char (by decide)⟩
  | paren _ hs => exact ⟨_, _, rfl, List.cons_ne_nil _ _, by decide, hs, nextItem_char (by decide)⟩
  | @esc c s hs =>
    refine ⟨['\\'.toUInt8, c], s, rfl, List.cons_ne_nil _ _, by simp +decide, hs, ?_⟩
    simp [nextItem]
  | @bracket w s hw hs =>
    refine ⟨'['.toUInt8 :: (w ++ [']'.toUInt8]), s, by simp, List.cons_ne_nil _ _, by simp +decide,
      hs, ?_⟩
    simp +decide [nextItem, bracketEnd_units hw]

theorem splitAlts_inert {level : ℕ} (hu : Inert bars parens u) (hbars : bars → level ≠ 0)
    (hparens : parens → level = 0) :
    splitAlts false false level (u ++ s) = u.foldr consHead (splitAlts false false level s) := by
  induction hu with
  | nil => rfl
  | @char c u hc _ ih =>
    have hmem : c ≠ '\\'.toUInt8 ∧ c ≠ '['.toUInt8 ∧ c ≠ '('.toUInt8 ∧ c ≠ ')'.toUInt8 ∧
        c ≠ '|'.toUInt8 := by
      refine ⟨?_, ?_, ?_, ?_, ?_⟩ <;>
      · rintro rfl
        exact hc (by decide)
    simp [splitAlts, hmem, ih]
  | bar h _ ih => simp +decide [splitAlts, hbars h, ih]
  | paren h _ ih =>
    obtain rfl := hparens h
    simp +decide [splitAlts, ih]
  | esc _ ih => simp [splitAlts, ih]
  | bracket hw _ ih => simp +decide [splitAlts, splitAlts_units hw, ih]

theorem parseRange_of_head (h : s.head? ≠ some '{'.toUInt8) : parseRange s = .ok (none, s) := by
  rw [parseRange, if_neg fun hs => h hs.1]

theorem expandLoop_item {item rest out : List UInt8} {cap : ℕ} (fuel : ℕ) (hne : s ≠ [])
    (hitem : nextItem s = (item, rest)) (hrest : rest.head? ≠ some '{'.toUInt8)
    (hcap : out.length + item.length + 1 < cap) :
    expandLoop (fuel + 1) s out cap = expandLoop fuel rest (out ++ item) cap := by
  obtain ⟨c, s, rfl⟩ := List.exists_cons_of_ne_nil hne
  have hcapacity : ensureCapacity out.length item.length cap = some cap := by
    rw [ensureCapacity, if_neg (by omega)]
  simp only [expandLoop, hitem, parseRange_of_head hrest, Bind.bind, Except.bind, Option.any_none,
    Bool.false_eq_true, if_false, copies, hcapacity]

/-- **`expand_ranges` passes over an inert text.** By induction on its length, an item at a time. -/
theorem expandLoop_inert (hu : Inert bars parens u) (hs : s.head? ≠ some '{'.toUInt8)
    (fuel cap : ℕ) (out : List UInt8) (hfuel : (u ++ s).length ≤ fuel)
    (hcap : out.length + u.length + 1 < cap) :
    ∃ fuel', s.length ≤ fuel' ∧ expandLoop fuel (u ++ s) out cap =
      expandLoop fuel' s (out ++ u) cap := by
  induction fuel generalizing u out with
  | zero =>
    obtain ⟨rfl, rfl⟩ := List.append_eq_nil_iff.1 (List.length_eq_zero_iff.1 (Nat.le_zero.1 hfuel))
    exact ⟨0, le_rfl, by rw [List.append_nil, List.append_nil]⟩
  | succ fuel ih =>
    by_cases hne : u = []
    · subst hne
      exact ⟨fuel + 1, hfuel, by rw [List.append_nil, List.nil_append]⟩
    · obtain ⟨item, rest, rfl, hitem, -, hrest, hnext⟩ := hu.exists_item hne s
      have hpos : 0 < item.length := List.length_pos_iff.2 hitem
      have hhead : (rest ++ s).head? ≠ some '{'.toUInt8 := by
        cases rest with
        | nil => exact hs
        | cons c rest => exact hrest.head_ne
      rw [List.length_append, List.length_append] at hfuel
      rw [List.length_append] at hcap
      obtain ⟨fuel', hfuel', heq⟩ := ih hrest (out ++ item)
        (by rw [List.length_append]; omega) (by rw [List.length_append]; omega)
      refine ⟨fuel', hfuel', ?_⟩
      rw [expandLoop_item fuel (List.append_ne_nil_of_left_ne_nil hne s) hnext hhead (by omega), heq,
        List.append_assoc]

theorem expandGroups_inert (expand : List UInt8 → List (List UInt8)) (hu : Inert bars parens u)
    (fuel : ℕ) (cur : List (List UInt8)) (hfuel : (u ++ s).length ≤ fuel) :
    ∃ fuel', s.length ≤ fuel' ∧ expandGroups expand fuel (u ++ s) cur =
      expandGroups expand fuel' s (cur.map (· ++ u)) := by
  induction fuel generalizing u cur with
  | zero =>
    obtain ⟨rfl, rfl⟩ := append_eq_nil_iff.1 (length_eq_zero_iff.1 (Nat.le_zero.1 hfuel))
    exact ⟨0, le_rfl, by simp [expandGroups]⟩
  | succ fuel ih =>
    by_cases hne : u = []
    · subst hne
      exact ⟨fuel + 1, hfuel, by simp⟩
    · obtain ⟨item, rest, rfl, hitem, hparen, hrest, hnext⟩ := hu.exists_item hne s
      have hpos : 0 < item.length := length_pos_iff.2 hitem
      rw [length_append, length_append] at hfuel
      obtain ⟨fuel', hfuel', heq⟩ := ih hrest (cur.map (· ++ item)) (by
        rw [length_append]; omega)
      refine ⟨fuel', hfuel', ?_⟩
      obtain ⟨c, item, rfl⟩ := exists_cons_of_ne_nil hitem
      have hc : c ≠ '('.toUInt8 := fun h => hparen (by rw [h]; rfl)
      rw [append_assoc, cons_append] at hnext ⊢
      rw [expandGroups]
      simp only [hnext, hc, if_false]
      rw [heq, map_map]
      congr 2
      funext k
      simp

end Inert

/-! ## Atoms and alternatives are inert -/

/-- The body of a bracket has something behind a class name that the expansions take for a group, an
alternative or a range. With `cls` they are inside a bracket. -/
def spills : (cls : Bool) → List ClassElem → Bool
  | _, [] => false
  | cls, .lit c :: body =>
    if cls then spills true body
    else c = '('.toUInt8 || c = '|'.toUInt8 || c = '{'.toUInt8 || spills (c = '['.toUInt8) body
  | cls, .esc _ :: body => spills cls body
  | _, .named _ :: body => spills false body

/-- A bracket that the expansions take apart. -/
def Atom.spills : Atom → Bool
  | bracket b => Regex.spills true b.body
  | _ => false

/-- A branch with such a bracket. -/
def Branch.spills (b : Branch) : Bool := b.items.any fun i => i.atom.spills

/-- An expression with such a bracket. -/
def Ere.spills (e : Ere) : Bool := e.branches.any Branch.spills

variable {body : List ClassElem}

theorem spills_of_unnamed (h : ∀ k, .named k ∉ body) :
    spills true body = false := by
  induction body with
  | nil => rfl
  | cons e body ih =>
    have ih := ih fun k hk => h k (.tail _ hk)
    cases e with
    | lit c => exact ih
    | esc c => exact ih
    | named k => exact absurd (.head _) (h k)

theorem PosixClass.name_letters (k : PosixClass) :
    ∀ c ∈ k.name, c ≠ ':'.toUInt8 ∧ c ≠ ']'.toUInt8 ∧ c ≠ '\\'.toUInt8 := by
  have hall : k.name.all fun c => c ≠ ':'.toUInt8 ∧ c ≠ ']'.toUInt8 ∧ c ≠ '\\'.toUInt8 := by
    cases k <;> decide
  exact fun c hc => of_decide_eq_true (List.all_eq_true.1 hall c hc)

theorem PosixClass.units_name (k : PosixClass) :
    Units (· ≠ ']'.toUInt8) (':'.toUInt8 :: (k.name ++ [':'.toUInt8])) := by
  have hletters := k.name_letters
  refine .char (by decide) (by decide) ?_
  generalize k.name = name at hletters
  induction name with
  | nil => exact .char (by decide) (by decide) .nil
  | cons c name ih =>
    have hc := hletters c (.head _)
    exact .char hc.2.2 hc.2.1 (ih fun c hc => hletters c (.tail _ hc))

theorem bodyText_named (k : PosixClass) (body : List ClassElem) (s : List UInt8) :
    bodyText (.named k :: body) ++ s = '['.toUInt8 :: ((':'.toUInt8 :: (k.name ++ [':'.toUInt8])) ++
      ']'.toUInt8 :: (bodyText body ++ s)) := by
  simp [bodyText, ClassElem.text]

theorem bodyOk_lit (h : bodyOk (.lit c :: body)) :
    c ≠ 0 ∧ c ≠ ']'.toUInt8 ∧ c ≠ '\\'.toUInt8 ∧
      (c = '['.toUInt8 → (bodyText body).head? ≠ some ':'.toUInt8) ∧ bodyOk body := by
  simp only [bodyOk, Bool.and_eq_true, Bool.or_eq_true, decide_eq_true_eq] at h
  exact ⟨h.1.1.1.1, h.1.1.1.2, h.1.1.2, fun hc => h.1.2.resolve_left (not_not.2 hc), h.2⟩

/-- Whether the expansions are inside a bracket behind the body. -/
def inside : (cls : Bool) → List ClassElem → Bool
  | cls, [] => cls
  | cls, .lit c :: body => inside (cls || c = '['.toUInt8) body
  | cls, .esc _ :: body => inside cls body
  | _, .named _ :: body => inside false body

/-- A text in which the expansions find nothing to do, if they come to it inside a bracket or outside
one. -/
def InertFrom (cls : Bool) (s : List UInt8) : Prop :=
  if cls then ∃ w s', s = w ++ ']'.toUInt8 :: s' ∧ Units (· ≠ ']'.toUInt8) w ∧ Inert false true s'
  else Inert false true s

variable {s : List UInt8}

theorem inertFrom_close (hs : Inert false true s) (cls : Bool) :
    InertFrom cls (']'.toUInt8 :: s) := by
  cases cls with
  | true => exact ⟨[], s, rfl, .nil, hs⟩
  | false => exact .char (by decide) hs

/-- **The body of a bracket is inert**, inside and outside, if what follows is. -/
theorem inertFrom_body (body : List ClassElem) (cls : Bool) (hok : bodyOk body)
    (hspills : spills cls body = false) (hs : InertFrom (inside cls body) s) :
    InertFrom cls (bodyText body ++ s) := by
  induction body generalizing cls with
  | nil => exact hs
  | cons e body ih =>
    cases e with
    | lit c =>
      obtain ⟨-, hbracket, hbackslash, -, hok⟩ := bodyOk_lit hok
      cases cls with
      | true =>
        obtain ⟨w, s', htext, hw, hs'⟩ := ih true hok hspills hs
        exact ⟨c :: w, s', congrArg (c :: ·) htext, .char hbackslash hbracket hw, hs'⟩
      | false =>
        simp only [spills, Bool.false_eq_true, if_false, Bool.or_eq_false_iff, decide_eq_false_iff_not]
          at hspills
        obtain ⟨⟨⟨hopen, hbar⟩, hbrace⟩, hspills⟩ := hspills
        have ih := ih _ hok hspills (by simpa [inside] using hs)
        by_cases hc : c = '['.toUInt8
        · subst hc
          obtain ⟨w, s', htext, hw, hs'⟩ := ih
          change Inert false true ('['.toUInt8 :: (bodyText body ++ s))
          rw [htext]
          exact .bracket hw hs'
        · simp only [hc, decide_false] at ih
          by_cases hclose : c = ')'.toUInt8
          · subst hclose
            exact .paren rfl ih
          · refine .char ?_ ih
            simp only [show bytes "\\[()\x7b|" = ['\\'.toUInt8, '['.toUInt8, '('.toUInt8, ')'.toUInt8,
              '{'.toUInt8, '|'.toUInt8] from rfl, mem_cons, not_mem_nil, hbackslash, hc,
              hopen, hclose, hbrace, hbar, or_self, not_false_eq_true]
    | esc c =>
      simp only [bodyOk, Bool.and_eq_true] at hok
      have ih := ih cls hok.2 hspills hs
      cases cls with
      | true =>
        obtain ⟨w, s', htext, hw, hs'⟩ := ih
        exact ⟨'\\'.toUInt8 :: c :: w, s', congrArg ('\\'.toUInt8 :: c :: ·) htext, .esc hw, hs'⟩
      | false => exact .esc ih
    | named k =>
      have ih : Inert false true (bodyText body ++ s) := ih false hok hspills hs
      rw [bodyText_named]
      cases cls with
      | true => exact ⟨_, _, rfl, .char (by decide) (by decide) k.units_name, ih⟩
      | false => exact .bracket k.units_name ih

theorem inert_open (hs : InertFrom true s) (inv : Bool) :
    Inert false true ('['.toUInt8 :: ((if inv then ['^'.toUInt8] else []) ++ s)) := by
  obtain ⟨w, s', rfl, hw, hs'⟩ := hs
  rw [← List.append_assoc]
  refine .bracket ?_ hs'
  cases inv with
  | true => exact .char (by decide) (by decide) hw
  | false => exact hw

theorem Bracket.inert (b : Bracket) (hs : Inert false true s)
    (hspills : spills true b.body = false) : Inert false true (b.text ++ s) := by
  have hbody := inertFrom_body b.body true b.ok hspills (inertFrom_close hs _)
  simpa [Bracket.text] using inert_open hbody b.inv

theorem Ordinary.inert (h : Ordinary c) : c ∉ bytes "\\[()\x7b|" := fun hc =>
  h.2 ((by decide : bytes "\\[()\x7b|" ⊆ bytes ".[()\x7b*+?^$|\\") hc)

theorem Atom.inert (a : Atom) (hs : Inert false true s)
    (hspills : a.spills = false) : Inert false true (a.text ++ s) := by
  cases a with
  | char c h => exact .char h.inert hs
  | esc c h => exact .esc hs
  | dot => exact .char (by decide) hs
  | bracket b => exact b.inert hs hspills

theorem Branch.inert (b : Branch) (hspills : b.spills = false) : Inert false true b.text := by
  have hend : Inert false true (if b.eol then ['$'.toUInt8] else []) := by
    cases b.eol with
    | true => exact .char (by decide) .nil
    | false => exact .nil
  have hitems (items : List Item) (hspills : items.any (fun i => i.atom.spills) = false) :
      Inert false true (items.flatMap Item.text ++ if b.eol then ['$'.toUInt8] else []) := by
    induction items with
    | nil => exact hend
    | cons i items ih =>
      rw [any_cons, Bool.or_eq_false_iff] at hspills
      rw [flatMap_cons, Item.text, append_assoc, append_assoc]
      refine i.atom.inert ?_ hspills.1
      cases i.rep with
      | one => exact ih hspills.2
      | opt | star | plus => exact .char (by decide) (ih hspills.2)
  rw [Branch.text, append_assoc]
  cases b.bol with
  | true => exact .char (by decide) (hitems b.items hspills)
  | false => exact hitems b.items hspills

theorem Inert.mono {parens : Bool} (hs : Inert false parens s) (bars : Bool) :
    Inert bars parens s := by
  induction hs with
  | nil => exact .nil
  | char hc _ ih => exact .char hc ih
  | bar h => exact (nomatch h)
  | paren h _ ih => exact .paren h ih
  | esc _ ih => exact .esc ih
  | bracket hw _ ih => exact .bracket hw ih

theorem foldr_consHead (u seg : List UInt8) (segs : List (List UInt8)) :
    u.foldr consHead (seg :: segs) = (u ++ seg) :: segs := by
  induction u with
  | nil => rfl
  | cons c u ih => rw [foldr_cons, ih, consHead, cons_append]

section Expansion

variable {texts : List (List UInt8)}

theorem inert_intercalate (h : ∀ u ∈ texts, Inert false true u) :
    Inert true true (['|'.toUInt8].intercalate texts) := by
  induction texts with
  | nil => exact .nil
  | cons u texts ih =>
    have hu := (h u (.head _)).mono true
    cases texts with
    | nil => rwa [intercalate_singleton]
    | cons v texts =>
      rw [intercalate_cons_cons, append_assoc]
      exact hu.append (.bar rfl (ih fun w hw => h w (.tail _ hw)))

theorem splitAlts_intercalate (hne : texts ≠ []) (h : ∀ u ∈ texts, Inert false true u) :
    splitAlts false false 0 (['|'.toUInt8].intercalate texts) = texts := by
  induction texts with
  | nil => exact absurd rfl hne
  | cons u texts ih =>
    have hu := h u (.head _)
    cases texts with
    | nil =>
      rw [intercalate_singleton, ← append_nil u, splitAlts_inert hu (nomatch ·) fun _ => rfl]
      exact foldr_consHead u [] []
    | cons v texts =>
      have hbar (s : List UInt8) : splitAlts false false 0 ('|'.toUInt8 :: s) =
          [] :: splitAlts false false 0 s := by
        simp +decide [splitAlts]
      rw [intercalate_cons_cons, append_assoc, splitAlts_inert hu (nomatch ·) fun _ => rfl,
        singleton_append, hbar, ih (cons_ne_nil _ _) fun w hw => h w (.tail _ hw),
        foldr_consHead, append_nil]

theorem expandGroups_nil (expand : List UInt8 → List (List UInt8)) (fuel : ℕ)
    (cur : List (List UInt8)) : expandGroups expand fuel [] cur = cur := by
  cases fuel <;> rfl

theorem expandAlts_inert {u : List UInt8} (hu : Inert false true u) (fuel : ℕ) :
    expandAlts (fuel + 1) u = [u] := by
  have hsplit := splitAlts_intercalate (cons_ne_nil u []) (forall_mem_singleton.2 hu)
  obtain ⟨fuel', -, hgroups⟩ :=
    expandGroups_inert (s := []) (expandAlts fuel) hu u.length [[]] (by rw [append_nil])
  rw [intercalate_singleton] at hsplit
  rw [append_nil] at hgroups
  simp only [expandAlts, hsplit, length_singleton, lt_irrefl, if_false, hgroups,
    expandGroups_nil, map_cons, map_nil, nil_append]

theorem expandAlts_intercalate (hne : texts ≠ []) (h : ∀ u ∈ texts, Inert false true u)
    (fuel : ℕ) (hfuel : (['|'.toUInt8].intercalate texts).length ≤ fuel) :
    expandAlts (fuel + 1) (['|'.toUInt8].intercalate texts) = texts := by
  have hsplit := splitAlts_intercalate hne h
  rcases texts with _ | ⟨u, _ | ⟨v, texts⟩⟩
  · exact absurd rfl hne
  · rw [intercalate_singleton]
    exact expandAlts_inert (h u (.head _)) fuel
  · obtain ⟨fuel, rfl⟩ : ∃ fuel', fuel = fuel' + 1 := by
      refine Nat.exists_eq_add_one_of_ne_zero ?_
      rintro rfl
      simp [intercalate_cons_cons] at hfuel
    have hflat (l : List (List UInt8)) (hl : ∀ u ∈ l, Inert false true u) :
        l.flatMap (expandAlts (fuel + 1)) = l := by
      induction l with
      | nil => rfl
      | cons u l ih =>
        rw [flatMap_cons, expandAlts_inert (hl u (.head _)),
          ih fun v hv => hl v (.tail _ hv), singleton_append]
    rw [expandAlts]
    simp only [hsplit]
    rw [if_pos (by simp), hflat _ h]

end Expansion

theorem expandRanges_inert {bars parens : Bool} (hs : Inert bars parens s) :
    expandRanges s = .ok (some s) := by
  by_cases hne : s = []
  · subst hne
    rfl
  · have hpos : 0 < s.length := length_pos_iff.2 hne
    obtain ⟨fuel, -, hloop⟩ := expandLoop_inert (s := []) hs (nomatch ·) s.length
      (s.length * 4 + 1) [] (by rw [append_nil]) (by rw [length_nil]; omega)
    rw [append_nil, nil_append] at hloop
    rw [expandRanges, hloop]
    cases fuel <;> rfl

/-- The loop of `compile_single` goes over a text piece by piece and emits a token for each. No piece
puts more into `ccl` than it is long. -/
inductive Emits (junk : Junk) : ℕ → Progress → List UInt8 → List Token → Progress → Prop
  | nil {j : ℕ} {st : Progress} : Emits junk j st [] [] st
  | cons {j : ℕ} {st st' st'' : Progress} {c : UInt8} {u v : List UInt8} {t : Token}
      {ts : List Token} (hstep : ∀ s, compileStep junk j st c (u ++ s) = .ok (t, some s, st'))
      (hccl : st'.cclIdx ≤ st.cclIdx + u.length + 1) (hrest : Emits junk (j + 1) st' v ts st'') :
      Emits junk j st (c :: (u ++ v)) (t :: ts) st''

section Emits

variable {junk : Junk} {j : ℕ} {st st' st'' : Progress} {u v : List UInt8} {ts ts' : List Token}

theorem Emits.append (h : Emits junk j st u ts st') (h' : Emits junk (j + ts.length) st' v ts' st'') :
    Emits junk j st (u ++ v) (ts ++ ts') st'' := by
  induction h with
  | nil => exact h'
  | cons hstep hccl _ ih =>
    rw [cons_append, append_assoc]
    refine .cons hstep hccl (ih ?_)
    rwa [length_cons, add_comm _ 1, ← add_assoc] at h'

/-- **The loop** emits these tokens. It is not cut short: neither by the room for tokens nor by that
in `ccl`. -/
theorem compileLoop_emits (h : Emits junk j st u ts st') {len room : ℕ} (hroom : u.length ≤ room)
    (hlen : u.length ≤ len) (hccl : st.cclIdx + u.length ≤ len + 1) :
    compileLoop junk len room j st (some u) = .ok (ts, st'.groups) := by
  induction h generalizing room with
  | nil => cases room <;> rfl
  | @cons j st st' st'' c u v t ts hstep hpiece hrest ih =>
    rw [length_cons, length_append] at hroom hlen hccl
    obtain ⟨room, rfl⟩ := Nat.exists_eq_add_one_of_ne_zero (show room ≠ 0 by omega)
    have ih := @ih room (by omega) (by omega) (by omega)
    simp only [compileLoop, hstep v, Bind.bind, Except.bind, ih, Pure.pure, Except.pure]
    split_ifs with hcut
    · have hv : v = [] := by
        rw [← length_eq_zero_iff]
        omega
      subst hv
      cases hrest
      rfl
    · rfl

theorem compileSingle_emits (h : Emits junk 0 ⟨1, [], 0⟩ u ts st') :
    compileSingle junk u = .ok (ts, st'.groups) := by
  cases h with
  | nil => rfl
  | cons hstep hccl hrest =>
    refine compileLoop_emits (.cons hstep hccl hrest) ?_ le_rfl (add_comm _ _).le
    rw [length_cons]
    omega

end Emits

/-! ## The tokens of an alternative -/

section Scan

variable {c : UInt8} {r : List UInt8 × Option (List UInt8)}

theorem scanClass_byte (hclose : c ≠ ']'.toUInt8) (hbackslash : c ≠ '\\'.toUInt8)
    (hname : c = '['.toUInt8 → s.head? ≠ some ':'.toUInt8) (h : scanClass .element s = .ok r) :
    scanClass .element (c :: s) = .ok (c :: r.1, r.2) := by
  have hopen : ¬(c = '['.toUInt8 ∧ s.head? = some ':'.toUInt8) := fun hc => hname hc.1 hc.2
  simp only [scanClass, hclose, hbackslash, hopen, and_false, false_and, if_false, h, Bind.bind,
    Except.bind, Pure.pure, Except.pure]

theorem scanClass_esc (h : scanClass .element s = .ok r) :
    scanClass .element ('\\'.toUInt8 :: c :: s) = .ok ('\\'.toUInt8 :: c :: r.1, r.2) := by
  simp +decide [scanClass, h, Bind.bind, Except.bind, Pure.pure, Except.pure]

theorem scanClass_name {name : List UInt8} (hname : ∀ c ∈ name, c ≠ ':'.toUInt8)
    (h : scanClass .element s = .ok r) :
    scanClass .name (name ++ ':'.toUInt8 :: ']'.toUInt8 :: s) =
      .ok (name ++ ':'.toUInt8 :: ']'.toUInt8 :: r.1, r.2) := by
  induction name with
  | nil => simp [scanClass, h, Bind.bind, Except.bind, Pure.pure, Except.pure]
  | cons c name ih =>
    have hc := hname c (.head _)
    simp [scanClass, hc, ih fun d hd => hname d (.tail _ hd), Bind.bind, Except.bind, Pure.pure,
      Except.pure]

theorem scanClass_open (hhead : s.head? ≠ some ']'.toUInt8) (h : scanClass .name s = .ok r) :
    scanClass .element ('['.toUInt8 :: ':'.toUInt8 :: s) =
      .ok ('['.toUInt8 :: ':'.toUInt8 :: r.1, r.2) := by
  have hcolon : scanClass .name (':'.toUInt8 :: s) = .ok (':'.toUInt8 :: r.1, r.2) := by
    rw [scanClass]
    simp only [reduceCtorEq, false_and, if_false, hhead, and_false, h, Bind.bind, Except.bind,
      Pure.pure, Except.pure]
  rw [scanClass]
  simp +decide [hcolon, Bind.bind, Except.bind, Pure.pure, Except.pure]

theorem scanClass_named (k : PosixClass) (h : scanClass .element s = .ok r) :
    scanClass .element ((ClassElem.named k).text ++ s) = .ok ((ClassElem.named k).text ++ r.1, r.2) := by
  have hrest := scanClass_name (fun c hc => (k.name_letters c hc).1) h
  have hhead : (k.name ++ ':'.toUInt8 :: ']'.toUInt8 :: s).head? ≠ some ']'.toUInt8 := by
    cases k <;> simp +decide [PosixClass.name, bytes]
  simpa [ClassElem.text] using scanClass_open hhead hrest

theorem scanClass_body (body : List ClassElem) (hok : bodyOk body)
    (hhead : s.head? ≠ some ':'.toUInt8) (h : scanClass .element s = .ok r) :
    scanClass .element (bodyText body ++ s) = .ok (bodyText body ++ r.1, r.2) := by
  induction body with
  | nil => exact h
  | cons e body ih =>
    cases e with
    | lit c =>
      obtain ⟨-, hclose, hbackslash, hname, hok⟩ := bodyOk_lit hok
      refine scanClass_byte hclose hbackslash (fun hc => ?_) (ih hok)
      have hne := hname hc
      cases hbody : bodyText body with
      | nil => exact hhead
      | cons d _ =>
        rw [hbody] at hne
        exact hne
    | esc c =>
      simp only [bodyOk, Bool.and_eq_true] at hok
      exact scanClass_esc (ih hok.2)
    | named k =>
      rw [bodyText, flatMap_cons, append_assoc, append_assoc]
      exact scanClass_named k (ih hok)

theorem scanClass_closed (body : List ClassElem) (hok : bodyOk body) (s : List UInt8) :
    scanClass .element (bodyText body ++ ']'.toUInt8 :: s) = .ok (bodyText body, some s) := by
  have hclose : scanClass .element (']'.toUInt8 :: s) = .ok ([], some s) := by simp [scanClass]
  rw [scanClass_body body hok (by simp +decide) hclose, List.append_nil]

end Scan

/-- The byte before the text of the next bracket. -/
def Progress.before (junk : Junk) (st : Progress) : UInt8 := if st.cclIdx = 1 then junk.ccl else 0

theorem emits_byte {junk : Junk} {j : ℕ} {st : Progress} {t : Token}
    (hstep : ∀ s, compileStep junk j st c s = .ok (t, some s, st)) : Emits junk j st [c] [t] st :=
  .cons (u := []) (v := []) hstep (by omega) .nil

theorem Ordinary.compileStep (h : Ordinary c) (junk : Junk) (j : ℕ) (st : Progress)
    (s : List UInt8) : compileStep junk j st c s = .ok (.single (.char c), some s, st) := by
  have hne (d : UInt8) (hd : d ∈ bytes ".[()\x7b*+?^$|\\") : c ≠ d := fun heq => h.2 (heq ▸ hd)
  simp only [Regex.compileStep, hne '^'.toUInt8 (by decide), hne '$'.toUInt8 (by decide),
    hne '.'.toUInt8 (by decide), hne '*'.toUInt8 (by decide), hne '+'.toUInt8 (by decide),
    hne '?'.toUInt8 (by decide), hne '\\'.toUInt8 (by decide), hne '('.toUInt8 (by decide),
    hne ')'.toUInt8 (by decide), hne '['.toUInt8 (by decide), if_false]

theorem Bracket.compileStep (b : Bracket) (junk : Junk) (j : ℕ) (st : Progress) (s : List UInt8) :
    compileStep junk j st '['.toUInt8
        ((if b.inv then ['^'.toUInt8] else []) ++ bodyText b.body ++ [']'.toUInt8] ++ s) =
      .ok (.single (b.single (st.before junk)), some s,
        { st with cclIdx := st.cclIdx + (bodyText b.body).length + 1 }) := by
  have hscan := scanClass_closed b.body b.ok s
  cases hinv : b.inv with
  | true =>
    simp +decide [Regex.compileStep, hscan, Bind.bind, Except.bind, Pure.pure, Except.pure,
      Bracket.single, hinv, Progress.before]
  | false =>
    have hhead : (bodyText b.body).head?.getD ']'.toUInt8 ≠ '^'.toUInt8 := by
      have hcaret := b.caret hinv
      cases hbody : (bodyText b.body).head? with
      | none => decide
      | some c => exact fun hc => hcaret (by rw [hbody, ← hc]; rfl)
    simp +decide [Regex.compileStep, hscan, hhead, Bind.bind, Except.bind, Pure.pure, Except.pure,
      Bracket.single, hinv, Progress.before]

theorem Atom.emits (a : Atom) (junk : Junk) (j : ℕ) (st : Progress) (hst : 1 ≤ st.cclIdx) :
    ∃ k, 1 ≤ k ∧ Progress.before junk { st with cclIdx := k } = a.after (st.before junk) ∧
      Emits junk j st a.text [a.token (st.before junk)] { st with cclIdx := k } := by
  cases a with
  | char c h => exact ⟨st.cclIdx, hst, rfl, emits_byte (h.compileStep junk j st)⟩
  | esc c h =>
    refine ⟨st.cclIdx, hst, rfl, .cons (u := [c]) (v := []) (fun s => ?_) ?_ .nil⟩
    · simp +decide [Regex.compileStep, Atom.token]
    · exact Nat.le_add_right st.cclIdx 2
  | dot =>
    exact ⟨st.cclIdx, hst, rfl, emits_byte fun s => by simp +decide [Regex.compileStep, Atom.token]⟩
  | bracket b =>
    refine ⟨st.cclIdx + (bodyText b.body).length + 1, by omega, if_neg (by simp; omega), ?_⟩
    rw [Atom.text, Bracket.text, ← append_nil (_ ++ [']'.toUInt8])]
    refine .cons (b.compileStep junk j st) ?_ .nil
    simp
    omega

theorem emits_rep {junk : Junk} {j : ℕ} {st : Progress} {q : Quant} {r : Rep}
    (hq : Rep.quant r = some q) : Emits junk j st (Rep.text r) [.quant q (junk.ch j)] st := by
  cases r with
  | one => exact (nomatch hq)
  | _ =>
    cases hq
    exact emits_byte fun s => by simp +decide [Regex.compileStep]

theorem Item.emits (i : Item) (junk : Junk) (j : ℕ) (st : Progress) (hst : 1 ≤ st.cclIdx) :
    ∃ k, 1 ≤ k ∧ Progress.before junk { st with cclIdx := k } = i.atom.after (st.before junk) ∧
      Emits junk j st i.text (i.tokens junk j (st.before junk)) { st with cclIdx := k } := by
  obtain ⟨k, hk, hbefore, hatom⟩ := i.atom.emits junk j st hst
  refine ⟨k, hk, hbefore, ?_⟩
  rw [Item.text, Item.tokens]
  cases hq : Rep.quant i.rep with
  | none =>
    have htext : Rep.text i.rep = [] := by
      cases hr : i.rep <;> rw [hr] at hq <;> first | rfl | exact (nomatch hq)
    rwa [htext, append_nil]
  | some q => exact hatom.append (emits_rep hq)

theorem emits_items (items : List Item) (junk : Junk) (j : ℕ) (st : Progress)
    (hst : 1 ≤ st.cclIdx) :
    ∃ k, 1 ≤ k ∧ Emits junk j st (items.flatMap Item.text)
      (itemTokens junk j (st.before junk) items) { st with cclIdx := k } := by
  induction items generalizing j st with
  | nil => exact ⟨st.cclIdx, hst, .nil⟩
  | cons i items ih =>
    obtain ⟨k, hk, hbefore, hitem⟩ := i.emits junk j st hst
    obtain ⟨k', hk', hrest⟩ := ih (j + (i.tokens junk j (st.before junk)).length)
      { st with cclIdx := k } hk
    rw [hbefore] at hrest
    exact ⟨k', hk', hitem.append hrest⟩

/-- **`compile_single`** compiles an alternative to its tokens. -/
theorem Branch.compileSingle (b : Branch) (junk : Junk) :
    compileSingle junk b.text = .ok (b.tokens junk, 0) := by
  have hend (st : Progress) (j : ℕ) : Emits junk j st (if b.eol then ['$'.toUInt8] else [])
      (if b.eol then [.end_] else []) st := by
    cases b.eol with
    | true => exact emits_byte fun s => by simp +decide [Regex.compileStep]
    | false => exact .nil
  have hbegin : Emits junk 0 ⟨1, [], 0⟩ (if b.bol then ['^'.toUInt8] else [])
      (if b.bol then [.begin] else []) ⟨1, [], 0⟩ := by
    cases b.bol with
    | true => exact emits_byte fun s => by simp +decide [Regex.compileStep]
    | false => exact .nil
  obtain ⟨k, -, hitems⟩ := emits_items b.items junk
    (0 + (if b.bol then [Token.begin] else []).length) ⟨1, [], 0⟩ le_rfl
  rw [zero_add] at hitems
  exact compileSingle_emits ((hbegin.append (by rwa [zero_add])).append (hend _ _))

/-- The tokens of the alternatives, from the one with number `a` on. -/
def branchTokens (junk : ℕ → Junk) : (a : ℕ) → List Branch → List (List Token)
  | _, [] => []
  | a, b :: branches => b.tokens (junk a) :: branchTokens junk (a + 1) branches

theorem compileAlts_eq (junk : ℕ → Junk) (a : ℕ) (branches : List Branch) :
    compileAlts junk a 0 (branches.map Branch.text) = .ok ⟨branchTokens junk a branches, 0⟩ := by
  induction branches generalizing a with
  | nil => rfl
  | cons b branches ih =>
    simp only [map_cons, compileAlts, b.compileSingle, ih, Bind.bind, Except.bind, Pure.pure,
      Except.pure, branchTokens]

theorem Ere.inert (e : Ere) (hspills : e.spills = false) :
    ∀ u ∈ e.branches.map Branch.text, Inert false true u := by
  intro u hu
  obtain ⟨b, hb, rfl⟩ := mem_map.1 hu
  exact b.inert (Bool.eq_false_iff.2 (any_eq_false.1 hspills b hb))

theorem regcomp_of_expandRanges {junk : ℕ → Junk} {pattern : List UInt8} {e : Ere}
    (hexpand : expandRanges pattern = .ok (some e.text)) (hspills : e.spills = false) :
    regcomp junk pattern = .ok (some ⟨branchTokens junk 0 e.branches, 0⟩) := by
  have hne : e.branches.map Branch.text ≠ [] := fun h => e.ne_nil (map_eq_nil_iff.1 h)
  simp only [regcomp, hexpand, Bind.bind, Except.bind, Ere.text,
    expandAlts_intercalate hne (e.inert hspills) _ le_rfl, hne, if_false, compileAlts_eq, Pure.pure,
    Except.pure]

/-- **`regcomp` compiles a pattern to the tokens of its alternatives.** -/
theorem regcomp_eq (e : Ere) (hspills : e.spills = false) (junk : ℕ → Junk) :
    regcomp junk e.text = .ok (some ⟨branchTokens junk 0 e.branches, 0⟩) :=
  regcomp_of_expandRanges (expandRanges_inert (inert_intercalate (e.inert hspills))) hspills

end Vlibc.Regex
