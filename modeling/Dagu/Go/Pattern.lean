import Dagu.Go.Os

/-! # The language of a pattern

`Match` is an algorithm: it reads the pattern chunk by chunk and, after a star,
commits to the first start at which a chunk matches. What it decides is simpler
to say. A pattern without classes and escapes denotes a set of names: `*` any
run of characters other than the separator, `?` one such character, and any
other character itself (`denotes`). On such patterns `Match` never fails and
decides exactly that set (`filepathMatch_eq_denotes`), so `Glob` lists exactly
the files whose paths the pattern denotes (`glob_eq_denotes`).

The proof follows `Match`'s recursion. A chunk without a star denotes what
`matchLit` reads (`denotes_chunk`). After a star, committing to the first start
loses nothing: the rest of the pattern is empty, and the chunk must then take
the whole name, or it starts with a star again, which takes the characters
skipped (`starThen_chunk`).
-/

namespace Dagu.Go

/-- A star before a pattern whose names are `k`: a run of characters other than
the separator, then a name of `k`. -/
def starThen (k : List Char → Bool) : List Char → Bool
  | [] => k []
  | r :: rest => k (r :: rest) || (r != '/' && starThen k rest)

/-- The names a pattern without classes and escapes denotes: `*` any run of
characters other than the separator, `?` one such character, and any other
character itself. -/
def denotes : List Char → List Char → Bool
  | [], name => name.isEmpty
  | c :: p, name =>
      if c = '*' then starThen (denotes p) name
      else match name with
        | [] => false
        | r :: rest => (if c = '?' then r != '/' else c == r) && denotes p rest

example : denotes "a*.dat".toList "ab.dat".toList = true := by decide

example : denotes "a*.dat".toList "a/b.dat".toList = false := by decide

/-! ## The denotation -/

theorem starThen_iff {k : List Char → Bool} : ∀ {name : List Char},
    starThen k name = true ↔ ∃ x y, name = x ++ y ∧ '/' ∉ x ∧ k y = true
  | [] => ⟨fun h => ⟨[], [], rfl, by simp, h⟩, by
      rintro ⟨x, y, hxy, -, h⟩
      obtain ⟨rfl, rfl⟩ := List.append_eq_nil.mp hxy.symm
      exact h⟩
  | r :: rest => by
      rw [starThen, Bool.or_eq_true, Bool.and_eq_true, starThen_iff]
      constructor
      · rintro (h | ⟨hr, x, y, rfl, hx, hy⟩)
        · exact ⟨[], _, rfl, by simp, h⟩
        · have hr : r ≠ '/' := by simpa using hr
          exact ⟨r :: x, y, rfl, by simp [Ne.symm hr, hx], hy⟩
      · rintro ⟨_ | ⟨d, x⟩, y, h, hx, hy⟩
        · exact .inl (by rw [h]; exact hy)
        · obtain ⟨hd, rfl⟩ := List.cons.inj h
          subst hd
          have hr : r ≠ '/' := fun e => hx (by simp [e])
          exact .inr ⟨bne_iff_ne.mpr hr, x, y, rfl, fun e => hx (List.mem_cons_of_mem _ e), hy⟩

theorem denotes_star (p name : List Char) : denotes ('*' :: p) name = starThen (denotes p) name := by
  simp [denotes]

/-- A star takes any run without a separator before a name its pattern denotes. -/
theorem denotes_star_append {p x y : List Char} (hx : '/' ∉ x) (h : denotes ('*' :: p) y = true) :
    denotes ('*' :: p) (x ++ y) = true := by
  rw [denotes_star, starThen_iff] at h ⊢
  obtain ⟨x', y', rfl, hx', hy⟩ := h
  exact ⟨x ++ x', y', (List.append_assoc _ _ _).symm, by simp [hx, hx'], hy⟩

theorem denotes_star_star (p name : List Char) :
    denotes ('*' :: '*' :: p) name = denotes ('*' :: p) name := by
  rw [Bool.eq_iff_iff, denotes_star, starThen_iff]
  constructor
  · rintro ⟨x, y, rfl, hx, hy⟩
    exact denotes_star_append hx hy
  · intro h
    exact ⟨[], name, rfl, by simp, h⟩

/-- Stars after a star change nothing. -/
theorem denotes_stars {s : List Char} (hs : ∀ c ∈ s, c = '*') (p name : List Char) :
    denotes ('*' :: (s ++ p)) name = denotes ('*' :: p) name := by
  induction s with
  | nil => rfl
  | cons c s ih =>
      obtain rfl := hs c (List.mem_cons_self _ _)
      rw [List.cons_append, denotes_star_star, ih fun d hd => hs d (List.mem_cons_of_mem _ hd)]

/-- A star alone denotes the names without a separator. -/
theorem denotes_star_nil (name : List Char) : denotes ['*'] name = decide ('/' ∉ name) := by
  rw [Bool.eq_iff_iff, denotes_star, starThen_iff, decide_eq_true_iff]
  constructor
  · rintro ⟨x, y, rfl, hx, hy⟩
    simp only [denotes, List.isEmpty_iff] at hy
    simpa [hy] using hx
  · exact fun h => ⟨name, [], by simp, h, rfl⟩

/-- **A chunk denotes what `matchLit` reads**: a pattern that opens with a chunk
without a star denotes the names whose start the chunk reads, followed by a
name the rest denotes. -/
theorem denotes_chunk {chunk : List Char} (h : '*' ∉ chunk) (q : List Char) :
    ∀ name, denotes (chunk ++ q) name = (matchLit chunk name).any (denotes q) := by
  induction chunk with
  | nil => intro name; rfl
  | cons c cs ih =>
      have hc : c ≠ '*' := fun e => h (e ▸ List.mem_cons_self _ _)
      have ih := ih fun e => h (List.mem_cons_of_mem _ e)
      rintro (_ | ⟨r, rest⟩)
      · simp [denotes, hc, matchLit]
      · rw [List.cons_append, denotes, if_neg hc, matchLit, ih]
        by_cases hq : c = '?'
        · subst hq
          by_cases hr : r = '/' <;> simp [hr]
        · by_cases hr : c = r
          · subst hr
            simp [hq]
          · simp [hq, hr]

/-! ## Committing to the first start -/

theorem matchLit_sep : ∀ {c n t : List Char}, matchLit c n = some t → '/' ∉ c →
    ∃ p, n = p ++ t ∧ p.length = c.length ∧ '/' ∉ p
  | [], n, t, h, _ => ⟨[], by simpa [matchLit] using h, rfl, by simp⟩
  | _ :: _, [], _, h, _ => by simp [matchLit] at h
  | c :: cs, r :: n, t, h, hs => by
      simp only [matchLit] at h
      split_ifs at h with hcr
      obtain ⟨p, rfl, hp, hsep⟩ := matchLit_sep h fun e => hs (List.mem_cons_of_mem _ e)
      have hr : r ≠ '/' := by
        rcases hcr with ⟨-, h⟩ | ⟨-, rfl⟩
        · exact h
        · exact fun e => hs (e ▸ List.mem_cons_self _ _)
      exact ⟨r :: p, rfl, by simp [hp], by simp [Ne.symm hr, hsep]⟩

/-- What `search` finds is read by the chunk at a start up to the first
separator. -/
theorem search_sound {chunk : List Char} {last : Bool} : ∀ {name t : List Char},
    search chunk last name = some t →
      ∃ x n, name = x ++ n ∧ '/' ∉ x ∧ matchLit chunk n = some t ∧ (t = [] ∨ last = false)
  | name, t, h => by
      rw [search.eq_def] at h
      rcases hf : (matchLit chunk name).filter (fun t => decide (t = [] ∨ last = false)) with _ | t'
      · rw [hf, Option.none_or] at h
        rcases name with _ | ⟨d, name⟩
        · cases h
        · dsimp only at h
          split_ifs at h with hd
          obtain ⟨x, n, rfl, hx, hn, ht⟩ := search_sound h
          exact ⟨d :: x, n, rfl, by simp [Ne.symm hd, hx], hn, ht⟩
      · rw [hf, Option.or_some] at h
        cases h
        obtain ⟨hm, ht⟩ := Option.filter_eq_some.mp hf
        exact ⟨[], name, rfl, by simp, hm, by simpa using ht⟩

/-- **The first start loses nothing**: when the chunk reads `n` up to `y`
after a run without a separator, `search` finds a start, and leaves `y` after
a run without a separator. -/
theorem search_complete {chunk n y : List Char} (hn : matchLit chunk n = some y) :
    ∀ {x : List Char}, '/' ∉ x → ∃ x', '/' ∉ x' ∧ search chunk false (x ++ n) = some (x' ++ y)
  | [], _ => ⟨[], by simp, by rw [List.nil_append, search.eq_def, hn]; simp [Option.filter_some]⟩
  | d :: x, hx => by
      have hd : d ≠ '/' := fun e => hx (by simp [e])
      have hx' : '/' ∉ x := fun e => hx (List.mem_cons_of_mem _ e)
      rcases hm : matchLit chunk (d :: x ++ n) with _ | t
      · obtain ⟨x', hx'', hs⟩ := search_complete hn hx'
        refine ⟨x', hx'', ?_⟩
        rw [search.eq_def, hm, Option.filter_none, Option.none_or]
        simpa only [List.cons_append, hd, if_false] using hs
      · -- a chunk with a separator matches at one start only
        have hsep : '/' ∉ chunk := by
          intro hs
          have h1 := matchLit_takeWhile hm hs
          have h2 := matchLit_takeWhile hn hs
          have hpos : ∀ a ∈ d :: x, decide (a ≠ '/') = true := fun a ha =>
            decide_eq_true fun (e : a = '/') => hx (e ▸ ha)
          rw [List.takeWhile_append_of_pos hpos, List.length_append, h2] at h1
          simp at h1
        obtain ⟨p, rfl, hpl, hp⟩ := matchLit_sep hn hsep
        obtain ⟨q, hq, hql⟩ := matchLit_eq_some hm
        have ht : t = (d :: x ++ p).drop chunk.length ++ y := by
          have h1 : t = (q ++ t).drop chunk.length := by rw [List.drop_left' hql]
          rw [h1, ← hq, ← List.append_assoc, List.drop_append_of_le_length (by
            simp only [List.length_append, List.length_cons, hpl]; omega)]
        refine ⟨(d :: x ++ p).drop chunk.length, fun e => ?_, ?_⟩
        · rcases List.mem_append.mp (List.mem_of_mem_drop e) with e | e
          exacts [hx e, hp e]
        · rw [search.eq_def, hm, ← ht]
          simp [Option.filter_some]

/-- The last chunk, read up to the end after a run without a separator, is
found by `search` taking the whole name. -/
theorem search_complete_last {chunk n : List Char} (hn : matchLit chunk n = some []) :
    ∀ {x : List Char}, '/' ∉ x → search chunk true (x ++ n) = some []
  | [], _ => by rw [List.nil_append, search.eq_def, hn]; simp [Option.filter_some]
  | d :: x, hx => by
      have hd : d ≠ '/' := fun e => hx (by simp [e])
      have ih := search_complete_last hn fun e => hx (List.mem_cons_of_mem _ e)
      rw [search.eq_def]
      rcases matchLit chunk (d :: x ++ n) with _ | t
      · simp [hd, ih]
      · by_cases ht : t = [] <;> simp [Option.filter_some, ht, hd, ih]

/-- **After a star, a chunk denotes what `search` finds**, when the rest of the
pattern is empty or opens with a star. -/
theorem starThen_chunk {chunk rest : List Char} (hc : '*' ∉ chunk) (hr : ∀ d ∈ rest.head?, d = '*')
    (name : List Char) :
    starThen (denotes (chunk ++ rest)) name = (search chunk (decide (rest = [])) name).any (denotes rest) := by
  rw [Bool.eq_iff_iff, starThen_iff]
  constructor
  · rintro ⟨x, n, rfl, hx, hn⟩
    rw [denotes_chunk hc] at hn
    rcases hy : matchLit chunk n with _ | y
    · rw [hy] at hn
      cases hn
    rw [hy, Option.any_some] at hn
    rcases rest with _ | ⟨e, r⟩
    · obtain rfl : y = [] := by simpa [denotes] using hn
      rw [show decide (([] : List Char) = []) = true from rfl, search_complete_last hy hx]
      exact hn
    · obtain rfl : e = '*' := hr e rfl
      obtain ⟨x', hx', hs⟩ := search_complete hy hx
      rw [show decide ('*' :: r = []) = false from rfl, hs, Option.any_some]
      exact denotes_star_append hx' hn
  · intro h
    rcases hs : search chunk (decide (rest = [])) name with _ | t
    · rw [hs] at h
      cases h
    rw [hs, Option.any_some] at h
    obtain ⟨x, n, rfl, hx, hn, -⟩ := search_sound hs
    exact ⟨x, n, rfl, hx, by rw [denotes_chunk hc, hn]; exact h⟩

/-! ## `Match` decides the language -/

theorem filepathMatch_stars {s : List Char} (hs : ∀ c ∈ s, c = '*') (name : List Char) :
    filepathMatch ('*' :: s) name = .ok (decide ('/' ∉ name)) := by
  have hsc : scanChunk ('*' :: s) = (true, [], []) := by
    rw [← List.append_nil s, scanChunk_stars hs]
    rfl
  rw [filepathMatch, dif_neg (List.cons_ne_nil _ _)]
  simp only [hsc, and_self, if_true]

theorem firstMatch_start {chunk : List Char} (h : ∀ c ∈ chunk, c ≠ '[' ∧ c ≠ '\\') (last : Bool)
    (name : List Char) :
    firstMatch false chunk last name = .ok ((matchLit chunk name).filter fun t => decide (t = [] ∨ last = false)) := by
  rw [firstMatch, matchChunk_plain h, Option.some_bind]
  rcases matchLit chunk name with _ | t
  · rfl
  · by_cases ht : t = [] ∨ last = false <;> simp [ht, Option.filter_some]

/-- The chunk that starts a pattern, when it matches, leaves the rest of the
pattern to the rest of the name; when it does not, `Match` is false. -/
theorem filepathMatch_of_firstMatch {pattern chunk rest name : List Char} {star : Bool}
    {r : Option (List Char)} (hs : scanChunk pattern = (star, chunk, rest)) (hc : chunk ≠ [])
    (hrest : ∀ c ∈ rest, c ≠ '[' ∧ c ≠ '\\') (hf : firstMatch star chunk (decide (rest = [])) name = .ok r) :
    filepathMatch pattern name = match r with
      | some t => filepathMatch rest t
      | none => .ok false := by
  have hp : pattern ≠ [] := by
    rintro rfl
    simp [scanChunk, scanChunk.scan] at hs
    exact hc hs.2.1
  rw [filepathMatch, dif_neg hp]
  rcases r with _ | t <;> simp [hs, hc, hf, checkRest_plain hrest, Except.map]

theorem stars_split (Q : List Char) :
    ∃ s Q0, Q = s ++ Q0 ∧ (∀ c ∈ s, c = '*') ∧ ∀ d ∈ Q0.head?, d ≠ '*' :=
  ⟨_, _, (List.takeWhile_append_dropWhile (· = '*') Q).symm, fun c hc => by
    simpa using List.mem_takeWhile_imp hc, fun d hd => by
    have := List.head?_dropWhile_not (fun c => decide (c = '*')) Q
    rw [Option.mem_def.mp hd] at this
    simpa using this⟩

/-- **`Match` decides the language of the pattern**: for a pattern without
classes and escapes, `Match` never fails and reports whether the pattern
denotes the name. -/
theorem filepathMatch_eq_denotes : ∀ {pattern : List Char}, (∀ c ∈ pattern, c ≠ '[' ∧ c ≠ '\\') →
    ∀ name, filepathMatch pattern name = .ok (denotes pattern name) := by
  intro pattern
  induction pattern using WellFounded.induction (InvImage.wf List.length Nat.lt_wfRel.wf) with
  | _ pattern ih =>
  intro h name
  obtain ⟨s, Q0, rfl, hs, hQ0⟩ := stars_split pattern
  have hQ0p : ∀ c ∈ Q0, c ≠ '[' ∧ c ≠ '\\' := fun c hc => h c (List.mem_append_right _ hc)
  rcases Q0 with _ | ⟨c, Q0⟩
  · -- only stars
    rcases s with _ | ⟨d, s⟩
    · show filepathMatch [] name = .ok (denotes [] name)
      rw [filepathMatch, dif_pos rfl]
      cases name <;> rfl
    · obtain rfl := hs d (List.mem_cons_self _ _)
      have hs' : ∀ c ∈ s, c = '*' := fun c hc => hs c (List.mem_cons_of_mem _ hc)
      rw [List.append_nil, filepathMatch_stars hs', ← List.append_nil s, denotes_stars hs', denotes_star_nil]
  · obtain ⟨c1, Q2, hsplit, hc1, hne, hQ2⟩ := plain_chunk (hQ0 c rfl) hQ0p
    have hc1p : ∀ c ∈ c1, c ≠ '[' ∧ c ≠ '\\' := fun c h => ⟨(hc1 c h).1, (hc1 c h).2.1⟩
    have hstar : '*' ∉ c1 := fun e => (hc1 _ e).2.2 rfl
    have hQ2p : ∀ c ∈ Q2, c ≠ '[' ∧ c ≠ '\\' := fun e he => hQ0p e (hsplit ▸ List.mem_append_right _ he)
    rw [hsplit]
    -- the first chunk, found at the start or after the stars
    obtain ⟨star, r, hsc, hf, hden⟩ : ∃ star r, scanChunk (s ++ (c1 ++ Q2)) = (star, c1, Q2) ∧
        firstMatch star c1 (decide (Q2 = [])) name = .ok r ∧
        denotes (s ++ (c1 ++ Q2)) name = r.any (denotes Q2) := by
      rcases s with _ | ⟨d, s⟩
      · refine ⟨false, _, scanChunk_chunk hc1 hQ2 hne, firstMatch_start hc1p _ name, ?_⟩
        rw [List.nil_append, denotes_chunk hstar]
        rcases matchLit c1 name with _ | t
        · rfl
        · rcases Q2 with _ | ⟨e, Q3⟩
          · by_cases ht : t = [] <;> simp [Option.filter_some, ht, denotes]
          · simp [Option.filter_some]
      · obtain rfl := hs d (List.mem_cons_self _ _)
        have hs' : ∀ c ∈ s, c = '*' := fun c hc => hs c (List.mem_cons_of_mem _ hc)
        refine ⟨true, _, ?_, firstMatch_plain hc1p name, ?_⟩
        · rw [List.cons_append, scanChunk_stars hs', scanChunk_star_chunk hc1 hQ2 hne]
        · rw [List.cons_append, denotes_stars hs', denotes_star, starThen_chunk hstar hQ2]
    rw [filepathMatch_of_firstMatch hsc hne hQ2p hf, hden]
    rcases r with _ | t
    · rfl
    · have hlen : Q2.length < (s ++ c :: Q0).length := by
        have := List.length_pos.mpr hne
        rw [hsplit]
        simp only [List.length_append]
        omega
      exact ih Q2 hlen hQ2p t

/-- **`Glob` lists the files of the pattern's language**: for a pattern without
classes and escapes, `Glob` never fails, and it returns the files whose paths
the pattern denotes. -/
theorem glob_eq_denotes (fs : FS) {pattern : List Char} (h : ∀ c ∈ pattern, c ≠ '[' ∧ c ≠ '\\') :
    glob fs pattern = .ok ((fs.files.map Prod.fst).filter (denotes pattern)) := by
  have hm : isMatch pattern = denotes pattern := funext fun name => by
    rw [isMatch, filepathMatch_eq_denotes h]
  rw [glob, filepathMatch_eq_denotes h, hm]

end Dagu.Go
