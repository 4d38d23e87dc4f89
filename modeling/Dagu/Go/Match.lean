import Mathlib.Data.List.Basic

/-! # `filepath.Match`

`Match` reports whether a name matches a shell pattern: `*` matches any run of
characters other than the separator, `?` one such character, `[...]` one
character of a class, and `\` makes the next character literal. The pattern is
read in chunks, each a run of stars and the text after it up to the next star
outside a class (`scanChunk`). `matchChunk` matches one chunk at the start of
the name; after a star, `Match` tries each later start up to the first
separator and commits to the first one that matches (`firstMatch`). The last
chunk must take the whole name. Before it returns false, `Match` checks that
the rest of the pattern is well formed (`checkRest`): a malformed class or a
trailing `\` is `ErrBadPattern`.

Go's loops step through bytes, the model's through runes. On valid UTF-8 a
literal rune matches byte by byte exactly when it matches as a rune; Go's star
loop also tries starts inside a multi-byte rune, where only `?` or a class can
match, and the model does not try them.
-/

namespace Dagu.Go

/-- `ErrBadPattern`. -/
def errBadPattern : String := "syntax error in pattern"

/-- The loop of `scanChunk` from `inrange`: the chunk, up to the first `*`
outside a class, and the rest. A `\` takes the next character with it. -/
def scanChunk.scan (inrange : Bool) : List Char → List Char × List Char
  | [] => ([], [])
  | c :: cs =>
      if c = '\\' then
        match cs with
        | [] => (['\\'], [])
        | d :: ds => let r := scanChunk.scan inrange ds; ('\\' :: d :: r.1, r.2)
      else if c = '*' ∧ inrange = false then ([], c :: cs)
      else
        let r := scanChunk.scan (if c = '[' then true else if c = ']' then false else inrange) cs
        (c :: r.1, r.2)

/-- `scanChunk`: whether the pattern starts with stars, the chunk after them,
and the rest of the pattern. -/
def scanChunk (pattern : List Char) : Bool × List Char × List Char :=
  (decide (pattern.head? = some '*'), scanChunk.scan false (pattern.dropWhile (· = '*')))

/-- The end of `getEsc`: the character, and the chunk after it, which may not
be empty. -/
def getEsc.next : List Char → Except String (Char × List Char)
  | [] => .error errBadPattern
  | r :: nchunk => if nchunk = [] then .error errBadPattern else .ok (r, nchunk)

/-- `getEsc`: a character of a class, escaped or not, and the chunk after it. -/
def getEsc : List Char → Except String (Char × List Char)
  | [] => .error errBadPattern
  | c :: rest =>
      if c = '-' ∨ c = ']' then .error errBadPattern
      else if c = '\\' then getEsc.next rest else getEsc.next (c :: rest)

theorem getEsc.next_length {l rest : List Char} {r : Char} (h : getEsc.next l = .ok (r, rest)) :
    rest.length < l.length := by
  rcases l with _ | ⟨c, l⟩
  · cases h
  · simp only [getEsc.next] at h
    split_ifs at h
    cases h
    simp

theorem getEsc_length {chunk rest : List Char} {r : Char} (h : getEsc chunk = .ok (r, rest)) :
    rest.length < chunk.length := by
  rcases chunk with _ | ⟨c, cs⟩
  · cases h
  · rw [getEsc] at h
    by_cases h1 : c = '-' ∨ c = ']'
    · rw [if_pos h1] at h; cases h
    · rw [if_neg h1] at h
      by_cases h2 : c = '\\'
      · rw [if_pos h2] at h
        have := getEsc.next_length h
        simp only [List.length_cons]
        omega
      · rw [if_neg h2] at h
        exact getEsc.next_length h

/-- The loop over the ranges of a class, `nrange` of them already read: whether
`r` lies in one of the ranges left, and the chunk after the closing `]`. -/
def matchRanges (r : Char) (nrange : Nat) (chunk : List Char) : Except String (Bool × List Char) :=
  if chunk.head? = some ']' ∧ 0 < nrange then .ok (false, chunk.tail)
  else
    match _h1 : getEsc chunk with
    | .error e => .error e
    | .ok (lo, chunk1) =>
        match _h2 : (if chunk1.head? = some '-' then getEsc chunk1.tail else .ok (lo, chunk1)) with
        | .error e => .error e
        | .ok (hi, chunk2) =>
            match matchRanges r (nrange + 1) chunk2 with
            | .error e => .error e
            | .ok (m, rest) => .ok ((decide (lo ≤ r ∧ r ≤ hi)) || m, rest)
termination_by chunk.length
decreasing_by
  have := getEsc_length _h1
  split at _h2
  · have := getEsc_length _h2
    simp only [List.length_tail] at this
    omega
  · cases _h2
    omega

theorem matchRanges_length {r : Char} {m : Bool} {rest : List Char} :
    ∀ {nrange : Nat} {chunk : List Char}, matchRanges r nrange chunk = .ok (m, rest) →
      rest.length < chunk.length := by
  intro nrange chunk
  induction chunk using WellFounded.induction (InvImage.wf List.length Nat.lt_wfRel.wf)
    generalizing nrange m rest with
  | _ chunk ih =>
    intro h
    rw [matchRanges] at h
    split_ifs at h with h0
    · cases h
      obtain ⟨c, cs, rfl⟩ := List.exists_cons_of_ne_nil (show chunk ≠ [] by rintro rfl; simp at h0)
      simp
    · split at h
      · cases h
      · rename_i lo chunk1 h1
        split at h
        · cases h
        · rename_i hi chunk2 h2
          have hc1 := getEsc_length h1
          have hc2 : chunk2.length < chunk.length := by
            split at h2
            · have := getEsc_length h2; simp only [List.length_tail] at this; omega
            · cases h2; omega
          split at h
          · cases h
          · rename_i m' rest' h3
            cases h
            exact (ih chunk2 hc2 h3).trans hc2

/-- One character of the name matched against the literal `d`. -/
def matchChunk.lit (d : Char) : Option (List Char) → Option (List Char)
  | some (r :: s) => if d = r then some s else none
  | _ => none

/-- The ranges of a class after its `[`, and whether they are negated by `^`. -/
def classBody (chunk : List Char) : Bool × List Char :=
  if chunk.head? = some '^' then (true, chunk.tail) else (false, chunk)

theorem matchRanges_classBody_lt {r : Char} {n : Nat} {l rest : List Char} {m : Bool}
    (h : matchRanges r n (classBody l).2 = .ok (m, rest)) : rest.length < l.length + 1 := by
  have := matchRanges_length h
  unfold classBody at this
  split_ifs at this <;> simp at this <;> omega

/-- `matchChunk(chunk, s)`. The name left to match is `some s`, or `none` once
the match has failed: the loop then only checks that the chunk is well formed.
The result is the name left after the chunk, `none` if it does not match. -/
def matchChunk (chunk : List Char) (s : Option (List Char)) : Except String (Option (List Char)) :=
  match chunk with
  | [] => .ok s
  | c :: chunk =>
      let s := if s = some [] then none else s
      if c = '[' then
        let r := match s with
          | some (r :: _) => r
          | _ => Char.ofNat 0
        let cb := classBody chunk
        match _h : matchRanges r 0 cb.2 with
        | .error e => .error e
        | .ok (m, rest) =>
            matchChunk rest (match s with
              | some (_ :: s) => if m = cb.1 then none else some s
              | _ => none)
      else if c = '?' then
        matchChunk chunk (match s with
          | some (r :: s) => if r = '/' then none else some s
          | _ => none)
      else if c = '\\' then
        match chunk with
        | [] => .error errBadPattern
        | d :: chunk => matchChunk chunk (matchChunk.lit d s)
      else matchChunk chunk (matchChunk.lit c s)
termination_by chunk.length
decreasing_by
  all_goals simp_wf
  all_goals first
    | omega
    | exact matchRanges_classBody_lt _h

/-- The star's loop of `Match`: the chunk matched after skipping one more
character, up to the first separator; the last chunk must take the whole rest. -/
def starLoop (chunk : List Char) (last : Bool) : List Char → Except String (Option (List Char))
  | [] => .ok none
  | c :: name =>
      if c = '/' then .ok none
      else
        match matchChunk chunk (some name) with
        | .ok (some t) => if last ∧ t ≠ [] then starLoop chunk last name else .ok (some t)
        | .ok none => starLoop chunk last name
        | .error e => .error e

/-- Where `Match` matches a chunk: at the start of the name, or after a star at
the first later start that matches. The result is the name left. -/
def firstMatch (star : Bool) (chunk : List Char) (last : Bool) (name : List Char) :
    Except String (Option (List Char)) :=
  match matchChunk chunk (some name) with
  | .ok (some t) =>
      if t = [] ∨ last = false then .ok (some t)
      else if star then starLoop chunk last name else .ok none
  | .ok none => if star then starLoop chunk last name else .ok none
  | .error e => .error e

theorem scanChunk.scan_append : ∀ (inrange : Bool) (l : List Char),
    (scanChunk.scan inrange l).1 ++ (scanChunk.scan inrange l).2 = l
  | _, [] => rfl
  | inrange, c :: cs => by
      rw [scanChunk.scan.eq_def]
      simp only
      by_cases h1 : c = '\\'
      · subst h1
        rcases cs with _ | ⟨d, ds⟩
        · rfl
        · simp [scanChunk.scan_append inrange ds]
      · rw [if_neg h1]
        by_cases h2 : c = '*' ∧ inrange = false
        · rw [if_pos h2]; rfl
        · rw [if_neg h2]; simp [scanChunk.scan_append _ cs]
termination_by _ l => l.length

theorem scanChunk.scan_rest_le (inrange : Bool) (l : List Char) :
    (scanChunk.scan inrange l).2.length ≤ l.length := by
  have := congrArg List.length (scanChunk.scan_append inrange l)
  simp only [List.length_append] at this
  omega

theorem scanChunk_rest_lt {pattern : List Char} (h : pattern ≠ []) :
    (scanChunk pattern).2.2.length < pattern.length := by
  obtain ⟨c, cs, rfl⟩ := List.exists_cons_of_ne_nil h
  by_cases hc : c = '*'
  · subst hc
    have h1 := scanChunk.scan_rest_le false (cs.dropWhile (· = '*'))
    have h2 : (cs.dropWhile (· = '*')).length ≤ cs.length := (List.dropWhile_suffix _).length_le
    have hd : ('*' :: cs).dropWhile (· = '*') = cs.dropWhile (· = '*') :=
      List.dropWhile_cons_of_pos (by simp)
    simp only [scanChunk, hd, List.length_cons]
    omega
  · have hd : (c :: cs).dropWhile (· = '*') = c :: cs := List.dropWhile_cons_of_neg (by simpa using hc)
    have hb := congrArg List.length (scanChunk.scan_append false (c :: cs))
    have hne : (scanChunk.scan false (c :: cs)).1 ≠ [] := by
      unfold scanChunk.scan
      split_ifs <;> (try split) <;> simp_all
    have := List.length_pos.mpr hne
    simp only [List.length_append] at hb
    simp only [scanChunk, hd]
    omega

/-- The check before `Match` returns false: each chunk left must be well formed. -/
def checkRest (pattern : List Char) : Except String Unit :=
  if _h : pattern = [] then .ok ()
  else
    match matchChunk (scanChunk pattern).2.1 (some []) with
    | .error e => .error e
    | .ok _ => checkRest (scanChunk pattern).2.2
termination_by pattern.length
decreasing_by exact scanChunk_rest_lt _h

/-- `filepath.Match(pattern, name)`. -/
def filepathMatch (pattern name : List Char) : Except String Bool :=
  if _h : pattern = [] then .ok (decide (name = []))
  else
    let sc := scanChunk pattern
    if sc.1 = true ∧ sc.2.1 = [] then .ok (decide ('/' ∉ name))
    else
      match firstMatch sc.1 sc.2.1 (decide (sc.2.2 = [])) name with
      | .ok (some t) => filepathMatch sc.2.2 t
      | .ok none => (checkRest sc.2.2).map fun _ => false
      | .error e => .error e
termination_by pattern.length
decreasing_by exact scanChunk_rest_lt _h

/-! ## Patterns without classes or escapes

Without `[` and `\`, the only metacharacters are `*` and `?`, and a chunk
matches as text (`matchChunk_plain`). After a star, `Match` commits to the
first start at which a chunk matches; that loses nothing, since a later start
leaves a name that the next star can reach (`search_slack`). So a pattern
`Q*σ` matches `Q` followed by any name that `*σ` matches after any run of
characters without a separator (`TailOK`, `match_of_tailOK`).
-/

/-- What a chunk of literal characters and `?` matches at the start of `s`: the
rest of `s`. -/
def matchLit : List Char → List Char → Option (List Char)
  | [], s => some s
  | _ :: _, [] => none
  | c :: cs, r :: s => if (c = '?' ∧ r ≠ '/') ∨ (c ≠ '?' ∧ c = r) then matchLit cs s else none

/-- Where `Match` commits a chunk of literal characters and `?` after a star:
the first start, up to the first separator, at which it matches, taking the
whole rest of the name when it is the `last` chunk. -/
def search (chunk : List Char) (last : Bool) (name : List Char) : Option (List Char) :=
  ((matchLit chunk name).filter fun t => decide (t = [] ∨ last = false)).or
    (match name with
     | [] => none
     | d :: name => if d = '/' then none else search chunk last name)

theorem takeWhile_sep_append {c : List Char} (hs : '/' ∈ c) (y : List Char) :
    (c ++ y).takeWhile (· ≠ '/') = c.takeWhile (· ≠ '/') := by
  rw [List.takeWhile_append, if_neg]
  intro hl
  have he : c.takeWhile (· ≠ '/') = c := (List.takeWhile_prefix _).eq_of_length hl
  have hs' : '/' ∈ c.takeWhile (· ≠ '/') := by rw [he]; exact hs
  have := List.mem_takeWhile_imp hs'
  simp at this

section Plain

variable {chunk : List Char} {last : Bool}

theorem matchChunk_plain (h : ∀ c ∈ chunk, c ≠ '[' ∧ c ≠ '\\') (s : Option (List Char)) :
    matchChunk chunk s = .ok (s.bind (matchLit chunk)) := by
  induction chunk generalizing s with
  | nil => cases s <;> simp [matchChunk, matchLit]
  | cons c cs ih =>
      have ih := ih fun x hx => h x (List.mem_cons_of_mem _ hx)
      obtain ⟨h1, h2⟩ := h c (List.mem_cons_self _ _)
      rw [matchChunk.eq_def]
      simp only [h1, h2, if_false]
      rcases s with _ | _ | ⟨r, s⟩
      · by_cases hq : c = '?' <;> simp [hq, ih, matchChunk.lit]
      · by_cases hq : c = '?' <;> simp [hq, ih, matchChunk.lit, matchLit]
      · by_cases hq : c = '?'
        · by_cases hr : r = '/' <;> simp [hq, hr, ih, matchLit]
        · by_cases hr : c = r
          · subst hr
            simp [hq, ih, matchChunk.lit, matchLit]
          · simp [hq, hr, ih, matchChunk.lit, matchLit]

theorem matchLit_self : ∀ c y : List Char, matchLit c (c ++ y) = some y
  | [], _ => rfl
  | c :: cs, y => by
      have : (c = '?' ∧ c ≠ '/') ∨ (c ≠ '?' ∧ c = c) := by
        by_cases h : c = '?' <;> simp [h]
      rw [List.cons_append, matchLit, if_pos this, matchLit_self cs y]

theorem matchLit_eq_some : ∀ {c n t : List Char}, matchLit c n = some t →
    ∃ p, n = p ++ t ∧ p.length = c.length
  | [], n, t, h => ⟨[], by simpa [matchLit] using h, rfl⟩
  | _ :: _, [], _, h => by simp [matchLit] at h
  | c :: cs, r :: n, t, h => by
      simp only [matchLit] at h
      split_ifs at h
      obtain ⟨p, rfl, hp⟩ := matchLit_eq_some h
      exact ⟨r :: p, rfl, by simp [hp]⟩

/-- A separator in a chunk matches the first separator of the name. -/
theorem matchLit_takeWhile : ∀ {c n t : List Char}, matchLit c n = some t → '/' ∈ c →
    (n.takeWhile (· ≠ '/')).length = (c.takeWhile (· ≠ '/')).length
  | [], _, _, _, hs => by simp at hs
  | _ :: _, [], _, h, _ => by simp [matchLit] at h
  | c :: cs, r :: n, t, h, hs => by
      simp only [matchLit] at h
      split_ifs at h with hcr
      by_cases hc : c = '/'
      · have : r = '/' := by rcases hcr with ⟨rfl, -⟩ | ⟨-, rfl⟩ <;> simp_all
        simp [hc, this]
      · have hr : r ≠ '/' := by rcases hcr with ⟨-, h⟩ | ⟨-, rfl⟩ <;> assumption
        have := matchLit_takeWhile h (by simpa [Ne.symm hc] using hs)
        rw [List.takeWhile_cons_of_pos (by simpa using hr), List.takeWhile_cons_of_pos (by simpa using hc)]
        simp only [List.length_cons, this]

theorem starLoop_plain (h : ∀ c ∈ chunk, c ≠ '[' ∧ c ≠ '\\') : ∀ name : List Char,
    starLoop chunk last name = .ok (match name with
      | [] => none
      | d :: name => if d = '/' then none else search chunk last name)
  | [] => rfl
  | d :: name => by
      have ih := starLoop_plain h name
      rw [starLoop]
      by_cases hd : d = '/'
      · simp [hd]
      · simp only [hd, if_false, matchChunk_plain h, Option.some_bind]
        rw [search.eq_def]
        rcases matchLit chunk name with _ | t
        · simp [ih]
        · cases last <;> by_cases ht : t = [] <;> simp [ht, Option.filter_some, ih]

theorem firstMatch_plain (h : ∀ c ∈ chunk, c ≠ '[' ∧ c ≠ '\\') (name : List Char) :
    firstMatch true chunk last name = .ok (search chunk last name) := by
  rw [firstMatch, matchChunk_plain h, Option.some_bind, search.eq_def]
  rcases matchLit chunk name with _ | t
  · simp [starLoop_plain h]
  · cases last <;> by_cases ht : t = [] <;> simp [ht, Option.filter_some, starLoop_plain h]

/-- **Committing to the first match loses nothing**: a chunk that is not the
last, searched for after a run of characters without a separator, is found,
and what is left of the name is again such a run followed by what followed
the chunk. -/
theorem search_slack (y : List Char) : ∀ {x : List Char}, '/' ∉ x →
    ∃ x', '/' ∉ x' ∧ search chunk false (x ++ chunk ++ y) = some (x' ++ y)
  | [], _ => ⟨[], by simp, by
      rw [List.nil_append, search.eq_def, matchLit_self]
      simp [Option.filter_some]⟩
  | d :: x, hx => by
      have hd : d ≠ '/' := fun e => hx (by simp [e])
      have hx' : '/' ∉ x := fun e => hx (List.mem_cons_of_mem _ e)
      rcases hm : matchLit chunk (d :: x ++ chunk ++ y) with _ | t
      · obtain ⟨x', hx'', hs⟩ := search_slack y hx'
        refine ⟨x', hx'', ?_⟩
        rw [search.eq_def, hm, Option.filter_none, Option.none_or]
        simpa only [List.cons_append, hd, if_false] using hs
      · obtain ⟨p, hp, hpl⟩ := matchLit_eq_some hm
        have hsep : '/' ∉ chunk := by
          intro hs
          have h1 := matchLit_takeWhile hm hs
          have hpos : ∀ a ∈ d :: x, decide (a ≠ '/') = true := fun a ha =>
            decide_eq_true fun (e : a = '/') => hx (e ▸ ha)
          rw [List.append_assoc, List.takeWhile_append_of_pos hpos, takeWhile_sep_append hs] at h1
          simp at h1
          omega
        have ht : t = (d :: x ++ chunk).drop chunk.length ++ y := by
          rw [← List.drop_append_of_le_length (by simp; omega), hp, List.drop_left' hpl]
        refine ⟨(d :: x ++ chunk).drop chunk.length, fun e => ?_, ?_⟩
        · rcases List.mem_append.mp (List.mem_of_mem_drop e) with e | e
          · exact hx e
          · exact hsep e
        · rw [search.eq_def, hm, ← ht]
          simp [Option.filter_some]

/-- The last chunk, searched for in a name that ends with it after a run of
characters without a separator, takes the whole name. -/
theorem search_last : ∀ {z : List Char}, '/' ∉ z → search chunk true (z ++ chunk) = some []
  | [], _ => by
      rw [List.nil_append, search.eq_def, show matchLit chunk chunk = some [] by
        simpa using matchLit_self chunk []]
      simp [Option.filter_some]
  | d :: z, hz => by
      have hd : d ≠ '/' := fun e => hz (by simp [e])
      have ih : search chunk true (z ++ chunk) = some [] :=
        search_last fun e => hz (List.mem_cons_of_mem _ e)
      rw [search.eq_def]
      rcases matchLit chunk (d :: z ++ chunk) with _ | t
      · simp [hd, ih]
      · by_cases ht : t = [] <;> simp [Option.filter_some, ht, hd, ih]

end Plain

/-! ### Scanning plain patterns -/

/-- Characters that are literal in a pattern and end no chunk. -/
def PlainChar (c : Char) : Prop := c ≠ '[' ∧ c ≠ '\\' ∧ c ≠ '*'

instance : DecidablePred PlainChar := fun _ => inferInstanceAs (Decidable (_ ∧ _))

theorem scan_plain {c1 : List Char} (hc : ∀ c ∈ c1, PlainChar c) (l : List Char) :
    scanChunk.scan false (c1 ++ l) = (c1 ++ (scanChunk.scan false l).1, (scanChunk.scan false l).2) := by
  induction c1 with
  | nil => rfl
  | cons c c1 ih =>
      obtain ⟨h1, h2, h3⟩ := hc c (List.mem_cons_self _ _)
      rw [List.cons_append, scanChunk.scan.eq_def]
      simp only [h1, h2, h3, false_and, if_false, ite_self,
        ih fun x hx => hc x (List.mem_cons_of_mem _ hx), List.cons_append]

theorem scan_chunk {c1 R : List Char} (hc : ∀ c ∈ c1, PlainChar c) (hr : ∀ d ∈ R.head?, d = '*') :
    scanChunk.scan false (c1 ++ R) = (c1, R) := by
  rw [scan_plain hc]
  rcases R with _ | ⟨d, R⟩
  · rw [show scanChunk.scan false [] = ([], []) from rfl, List.append_nil]
  · obtain rfl : d = '*' := hr d rfl
    rw [scanChunk.scan.eq_def]
    simp

theorem dropWhile_star_cons (l : List Char) : ('*' :: l).dropWhile (· = '*') = l.dropWhile (· = '*') :=
  List.dropWhile_cons_of_pos (by simp)

theorem scanChunk_chunk {c1 R : List Char} (hc : ∀ c ∈ c1, PlainChar c) (hr : ∀ d ∈ R.head?, d = '*')
    (hne : c1 ≠ []) : scanChunk (c1 ++ R) = (false, c1, R) := by
  obtain ⟨c, c1, rfl⟩ := List.exists_cons_of_ne_nil hne
  have h3 := (hc c (List.mem_cons_self _ _)).2.2
  have hd : (c :: c1 ++ R).dropWhile (· = '*') = c :: c1 ++ R :=
    List.dropWhile_cons_of_neg (by simpa using h3)
  rw [scanChunk, hd, scan_chunk hc hr]
  simp [h3]

theorem scanChunk_star_chunk {c1 R : List Char} (hc : ∀ c ∈ c1, PlainChar c)
    (hr : ∀ d ∈ R.head?, d = '*') (hne : c1 ≠ []) :
    scanChunk ('*' :: (c1 ++ R)) = (true, c1, R) := by
  obtain ⟨c, c1, rfl⟩ := List.exists_cons_of_ne_nil hne
  have h3 := (hc c (List.mem_cons_self _ _)).2.2
  have hd : (c :: c1 ++ R).dropWhile (· = '*') = c :: c1 ++ R :=
    List.dropWhile_cons_of_neg (by simpa using h3)
  rw [scanChunk, dropWhile_star_cons, hd, scan_chunk hc hr]
  simp

/-- More stars after a star change nothing. -/
theorem scanChunk_stars {s : List Char} (hs : ∀ c ∈ s, c = '*') (p : List Char) :
    scanChunk ('*' :: (s ++ p)) = scanChunk ('*' :: p) := by
  have hd : (s ++ p).dropWhile (· = '*') = p.dropWhile (· = '*') :=
    List.dropWhile_append_of_pos (by simpa using hs)
  simp only [scanChunk, dropWhile_star_cons, hd, List.head?_cons]

theorem scanChunk_star_star (p : List Char) : scanChunk ('*' :: '*' :: p) = scanChunk ('*' :: p) :=
  scanChunk_stars (by simp : ∀ c ∈ ['*'], c = '*') p

/-- A pattern without `[` and `\` is a chunk without a star, and a rest that is
empty or starts with one. -/
theorem plain_split {Q : List Char} (hQ : ∀ c ∈ Q, c ≠ '[' ∧ c ≠ '\\') :
    Q = Q.takeWhile (· ≠ '*') ++ Q.dropWhile (· ≠ '*') ∧
      (∀ c ∈ Q.takeWhile (· ≠ '*'), PlainChar c) ∧ ∀ d ∈ (Q.dropWhile (· ≠ '*')).head?, d = '*' := by
  refine ⟨(List.takeWhile_append_dropWhile _ _).symm, fun c hc => ?_, fun d hd => ?_⟩
  · have h := hQ c ((List.takeWhile_prefix _).subset hc)
    exact ⟨h.1, h.2, by simpa using List.mem_takeWhile_imp hc⟩
  · have := List.head?_dropWhile_not (fun c => decide (c ≠ '*')) Q
    rw [Option.mem_def.mp hd] at this
    simpa using this

theorem takeWhile_ne_star_ne_nil {c : Char} (hc : c ≠ '*') (Q : List Char) :
    (c :: Q).takeWhile (· ≠ '*') ≠ [] := by
  simp [List.takeWhile_cons, hc]

/-! ### Matching plain patterns -/

theorem filepathMatch_nil : filepathMatch [] [] = .ok true := by
  rw [filepathMatch]; rfl

/-- Two patterns that scan alike match alike. -/
theorem filepathMatch_congr {p q : List Char} (h : scanChunk p = scanChunk q) (hp : p ≠ []) (hq : q ≠ [])
    (name : List Char) : filepathMatch p name = filepathMatch q name := by
  conv_lhs => rw [filepathMatch, dif_neg hp]
  conv_rhs => rw [filepathMatch, dif_neg hq]
  rw [h]

/-- A chunk that matches leaves the rest of the pattern to the rest of the name. -/
theorem filepathMatch_step {pattern chunk rest name t : List Char} {star : Bool}
    (hs : scanChunk pattern = (star, chunk, rest)) (hc : chunk ≠ [])
    (hf : firstMatch star chunk (decide (rest = [])) name = .ok (some t)) :
    filepathMatch pattern name = filepathMatch rest t := by
  have hp : pattern ≠ [] := by
    rintro rfl
    simp [scanChunk, scanChunk.scan] at hs
    exact hc hs.2.1
  rw [filepathMatch, dif_neg hp]
  simp only [hs, hc, and_false, if_false, hf]

/-- A plain chunk that starts the pattern matches itself. -/
theorem firstMatch_self {chunk : List Char} (h : ∀ c ∈ chunk, c ≠ '[' ∧ c ≠ '\\') (y : List Char) :
    firstMatch false chunk false (chunk ++ y) = .ok (some y) := by
  rw [firstMatch, matchChunk_plain h, Option.some_bind, matchLit_self]
  simp

/-- A chunk that does not match at the start of the name ends the match. -/
theorem filepathMatch_error {pattern chunk rest name : List Char} {star : Bool} {e : String}
    (hs : scanChunk pattern = (star, chunk, rest)) (hc : chunk ≠ [])
    (he : matchChunk chunk (some name) = .error e) : filepathMatch pattern name = .error e := by
  have hp : pattern ≠ [] := by
    rintro rfl
    simp [scanChunk, scanChunk.scan] at hs
    exact hc hs.2.1
  rw [filepathMatch, dif_neg hp]
  simp only [hs, hc, and_false, if_false, firstMatch, he]

/-- `*σ` matches `ν` after any run of characters without a separator. -/
def TailOK (σ ν : List Char) : Prop :=
  ∀ x, '/' ∉ x → filepathMatch ('*' :: σ) (x ++ ν) = .ok true

/-- A last plain chunk after a star matches any name that ends with it. -/
theorem tailOK_last {c1 w : List Char} (hc : ∀ c ∈ c1, PlainChar c) (hne : c1 ≠ []) (hw : '/' ∉ w) :
    TailOK c1 (w ++ c1) := by
  intro x hx
  have hs : scanChunk ('*' :: c1) = (true, c1, []) := by
    simpa using scanChunk_star_chunk hc (by simp : ∀ d ∈ ([] : List Char).head?, d = '*') hne
  have hf : firstMatch true c1 (decide (([] : List Char) = [])) (x ++ (w ++ c1)) = .ok (some []) := by
    rw [firstMatch_plain (fun c h => ⟨(hc c h).1, (hc c h).2.1⟩), ← List.append_assoc,
      show decide (([] : List Char) = []) = true from rfl, search_last (by simp [hx, hw])]
  rw [filepathMatch_step hs hne hf, filepathMatch_nil]

theorem tailOK_slack {σ ν w : List Char} (h : TailOK σ ν) (hw : '/' ∉ w) : TailOK σ (w ++ ν) :=
  fun x hx => by
    rw [← List.append_assoc]
    exact h _ (by simp [hx, hw])

/-- The first chunk of a plain `Q` that does not start with a star, and what
follows it. -/
theorem plain_chunk {c : Char} {Q : List Char} (hc : c ≠ '*') (hQ : ∀ e ∈ c :: Q, e ≠ '[' ∧ e ≠ '\\') :
    ∃ c1 Q2, c :: Q = c1 ++ Q2 ∧ (∀ e ∈ c1, PlainChar e) ∧ c1 ≠ [] ∧ ∀ d ∈ Q2.head?, d = '*' := by
  obtain ⟨hsplit, hc1, hQ2⟩ := plain_split hQ
  exact ⟨_, _, hsplit, hc1, takeWhile_ne_star_ne_nil hc Q, hQ2⟩

/-- **A plain prefix before the tail**: `*Q*σ` matches `Q` followed by what `*σ`
matches, after any run of characters without a separator. -/
theorem tailOK_cons {σ ν : List Char} (hσ : TailOK σ ν) :
    ∀ Q : List Char, (∀ c ∈ Q, c ≠ '[' ∧ c ≠ '\\') → TailOK (Q ++ '*' :: σ) (Q ++ ν) := by
  intro Q
  induction Q using WellFounded.induction (InvImage.wf List.length Nat.lt_wfRel.wf) with
  | _ Q ih =>
  intro hQ x hx
  -- the stars that start `Q` join the star before it
  obtain ⟨s, Q0, rfl, hs, hQ0⟩ : ∃ s Q0, Q = s ++ Q0 ∧ (∀ c ∈ s, c = '*') ∧ ∀ d ∈ Q0.head?, d ≠ '*' :=
    ⟨_, _, (List.takeWhile_append_dropWhile (· = '*') Q).symm, fun c hc => by
      simpa using List.mem_takeWhile_imp hc, fun d hd => by
      have := List.head?_dropWhile_not (fun c => decide (c = '*')) Q
      rw [Option.mem_def.mp hd] at this
      simpa using this⟩
  have hy : '/' ∉ x ++ s := by
    simp only [List.mem_append, not_or]
    exact ⟨hx, fun h => by simpa using hs _ h⟩
  rw [show x ++ (s ++ Q0 ++ ν) = x ++ s ++ (Q0 ++ ν) by simp, List.append_assoc,
    filepathMatch_congr (scanChunk_stars hs _) (by simp) (by simp)]
  generalize x ++ s = y at hy
  have hQ0p : ∀ c ∈ Q0, c ≠ '[' ∧ c ≠ '\\' := fun c h => hQ c (List.mem_append_right _ h)
  rcases Q0 with _ | ⟨c, Q0⟩
  · -- `**σ` is `*σ`
    rw [List.nil_append, List.nil_append, filepathMatch_congr (scanChunk_star_star σ) (by simp) (by simp)]
    exact hσ y hy
  · obtain ⟨c1, Q2, hsplit, hc1, hne, hQ2⟩ := plain_chunk (hQ0 c rfl) hQ0p
    rw [hsplit]
    simp only [List.append_assoc]
    have hR : ∀ d ∈ (Q2 ++ '*' :: σ).head?, d = '*' := by
      rcases Q2 with _ | ⟨d, Q2⟩ <;> simp_all
    obtain ⟨x', hx', hfind⟩ : ∃ x', '/' ∉ x' ∧ search c1 false (y ++ c1 ++ (Q2 ++ ν)) = some (x' ++ (Q2 ++ ν)) :=
      search_slack _ hy
    have hf : firstMatch true c1 (decide (Q2 ++ '*' :: σ = [])) (y ++ (c1 ++ (Q2 ++ ν))) =
        .ok (some (x' ++ (Q2 ++ ν))) := by
      rw [firstMatch_plain (fun c h => ⟨(hc1 c h).1, (hc1 c h).2.1⟩)]
      simpa using hfind
    rw [filepathMatch_step (scanChunk_star_chunk hc1 hR hne) hne hf]
    rcases Q2 with _ | ⟨d, Q3⟩
    · exact hσ x' hx'
    · obtain rfl : d = '*' := hQ2 d rfl
      have hlen : Q3.length < (s ++ c :: Q0).length := by
        have := congrArg List.length hsplit
        simp only [List.length_append, List.length_cons] at this ⊢
        omega
      have hQ3 : ∀ e ∈ Q3, e ≠ '[' ∧ e ≠ '\\' := fun e he => hQ0p e (by
        rw [hsplit]; exact List.mem_append_right _ (List.mem_cons_of_mem _ he))
      simpa using ih Q3 hlen hQ3 (x' ++ ['*']) (by simp [hx'])

/-- **Plain patterns with a star**: `Q*σ` matches `Q` followed by any name that
`*σ` matches after a run of characters without a separator. -/
theorem match_of_tailOK {σ ν : List Char} (hσ : TailOK σ ν) {Q : List Char}
    (hQ : ∀ c ∈ Q, c ≠ '[' ∧ c ≠ '\\') : filepathMatch (Q ++ '*' :: σ) (Q ++ ν) = .ok true := by
  rcases Q with _ | ⟨c, Q⟩
  · simpa using hσ [] (by simp)
  · by_cases hc : c = '*'
    · subst hc
      simpa using tailOK_cons hσ Q (fun e he => hQ e (List.mem_cons_of_mem _ he)) ['*'] (by simp)
    · obtain ⟨c1, Q2, hsplit, hc1, hne, hQ2⟩ := plain_chunk hc hQ
      rw [hsplit, List.append_assoc, List.append_assoc]
      have hR : ∀ d ∈ (Q2 ++ '*' :: σ).head?, d = '*' := by
        rcases Q2 with _ | ⟨d, Q2⟩ <;> simp_all
      have hf := firstMatch_self (fun c h => ⟨(hc1 c h).1, (hc1 c h).2.1⟩) (Q2 ++ ν)
      rw [filepathMatch_step (scanChunk_chunk hc1 hR hne) hne (by simpa using hf)]
      rcases Q2 with _ | ⟨d, Q3⟩
      · simpa using hσ [] (by simp)
      · obtain rfl : d = '*' := hQ2 d rfl
        have hQ3 : ∀ e ∈ Q3, e ≠ '[' ∧ e ≠ '\\' := fun e he => hQ e (by
          rw [hsplit]; exact List.mem_append_right _ (List.mem_cons_of_mem _ he))
        simpa using tailOK_cons hσ Q3 hQ3 ['*'] (by simp)

/-! ## Patterns without classes or escapes are well formed -/

section WellFormed

theorem mem_scanChunk {pattern : List Char} {c : Char}
    (h : c ∈ (scanChunk pattern).2.1 ∨ c ∈ (scanChunk pattern).2.2) : c ∈ pattern := by
  have hs := scanChunk.scan_append false (pattern.dropWhile (· = '*'))
  have hm : c ∈ pattern.dropWhile (· = '*') := by
    rw [← hs]
    exact List.mem_append.mpr h
  exact (List.dropWhile_suffix _).subset hm

theorem plain_scanChunk {pattern : List Char} (h : ∀ c ∈ pattern, c ≠ '[' ∧ c ≠ '\\') :
    (∀ c ∈ (scanChunk pattern).2.1, c ≠ '[' ∧ c ≠ '\\') ∧ ∀ c ∈ (scanChunk pattern).2.2, c ≠ '[' ∧ c ≠ '\\' :=
  ⟨fun c hc => h c (mem_scanChunk (.inl hc)), fun c hc => h c (mem_scanChunk (.inr hc))⟩

theorem checkRest_plain : ∀ {pattern : List Char}, (∀ c ∈ pattern, c ≠ '[' ∧ c ≠ '\\') →
    checkRest pattern = .ok () := by
  intro pattern
  induction pattern using WellFounded.induction (InvImage.wf List.length Nat.lt_wfRel.wf) with
  | _ pattern ih =>
  intro h
  rw [checkRest]
  split_ifs with hp
  · rfl
  · obtain ⟨h1, h2⟩ := plain_scanChunk h
    rw [matchChunk_plain h1]
    exact ih _ (scanChunk_rest_lt hp) h2

end WellFormed

/-! ## A class that opens with `-`

`getEsc` rejects a `-` at the start of a range, so a pattern with `[-` after a
plain prefix is malformed, whatever the name: `matchChunk` goes on checking the
chunk after the name has stopped matching. -/

theorem matchChunk_bracket_dash {c1 : List Char} (hc : ∀ c ∈ c1, c ≠ '[' ∧ c ≠ '\\') (rest : List Char) :
    ∀ s, matchChunk (c1 ++ '[' :: '-' :: rest) s = .error errBadPattern := by
  induction c1 with
  | nil =>
      intro s
      have hr : ∀ r, matchRanges r 0 ('-' :: rest) = .error errBadPattern := fun r => by
        rw [matchRanges]; simp [getEsc]
      rw [List.nil_append, matchChunk.eq_def]
      simp only [if_true, classBody, List.head?_cons, reduceCtorEq, if_false]
      split <;> simp_all
  | cons c c1 ih =>
      intro s
      obtain ⟨h1, h2⟩ := hc c (List.mem_cons_self _ _)
      have ih := ih fun x hx => hc x (List.mem_cons_of_mem _ hx)
      rw [List.cons_append, matchChunk.eq_def]
      simp only [h1, h2, if_false]
      split_ifs <;> exact ih _

theorem dropWhile_star_of_head {l : List Char} (h : ∀ d ∈ l.head?, d ≠ '*') :
    l.dropWhile (· = '*') = l := by
  rcases l with _ | ⟨d, l⟩
  · rfl
  · exact List.dropWhile_cons_of_neg (by simpa using h d rfl)

/-- **`[-` after a plain prefix is `ErrBadPattern`** for every name. -/
theorem filepathMatch_bracket_dash {c1 : List Char} (hc : ∀ c ∈ c1, PlainChar c) (l name : List Char) :
    filepathMatch (c1 ++ '[' :: '-' :: l) name = .error errBadPattern := by
  have hhead : ∀ d ∈ (c1 ++ '[' :: '-' :: l).head?, d ≠ '*' := by
    rcases c1 with _ | ⟨c, c1⟩
    · simp
    · simpa using (hc c (List.mem_cons_self _ _)).2.2
  have hdash : scanChunk.scan true ('-' :: l) = ('-' :: (scanChunk.scan true l).1, (scanChunk.scan true l).2) := by
    conv_lhs => rw [scanChunk.scan.eq_def]
    simp
  have hscan : scanChunk.scan false ('[' :: '-' :: l) =
      ('[' :: '-' :: (scanChunk.scan true l).1, (scanChunk.scan true l).2) := by
    conv_lhs => rw [scanChunk.scan.eq_def]
    simp [hdash]
  have hne : (c1 ++ '[' :: '-' :: l).head? ≠ some '*' := fun h => hhead '*' h rfl
  have hs : scanChunk (c1 ++ '[' :: '-' :: l) =
      (false, c1 ++ '[' :: '-' :: (scanChunk.scan true l).1, (scanChunk.scan true l).2) := by
    rw [scanChunk, dropWhile_star_of_head hhead, scan_plain hc, hscan, decide_eq_false hne]
  exact filepathMatch_error hs (by simp)
    (matchChunk_bracket_dash (fun c h => ⟨(hc c h).1, (hc c h).2.1⟩) _ _)

end Dagu.Go
