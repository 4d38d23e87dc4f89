import Dagu.Go.Filepath

/-! # The rules of `Clean`

`filepath.Clean` is documented by four rules, applied until none applies:
replace multiple separators by one, drop each `.` element, drop each inner `..`
with the non-`..` element before it, and drop the `..` elements that begin a
rooted path. Read one element at a time, the rules keep a stack
(`Kept.push`), and `cleanSpec` writes out what is left.

The loop of `Clean` works on characters, with the output written so far and the
bound `dotdot`. Each turn of it reads one element as `push` does, and its state
is the stack written out (`Kept.Inv`), so it computes `cleanSpec`
(`clean_eq_cleanSpec`). What the history file names need follows from the
specification: `Clean` is idempotent (`clean_clean`), joining to a cleaned path
is joining to the path (`join_clean`), joining a name to a cleaned path adds
it as an element (`Kept.Valid.join_render`), and text added to the last element
of a cleaned path survives `Dir`, `Base` and `Join` (`join_dir_base`).
-/

namespace Dagu.Go

/-! ## The specification -/

/-- An element `Clean` keeps as a name: not empty, without a separator, neither
`.` nor `..`. -/
def IsName (e : List Char) : Prop := e ≠ [] ∧ '/' ∉ e ∧ e ≠ ['.'] ∧ e ≠ ['.', '.']

/-- What `Clean` has kept of the elements read so far: names, last first, above
`ups` leading `..` elements of a relative path. -/
structure Kept where
  names : List (List Char)
  ups : Nat
  deriving DecidableEq

/-- `Clean`'s rules for one element `e`. -/
def Kept.push (rooted : Bool) (k : Kept) (e : List Char) : Kept :=
  if e = [] ∨ e = ['.'] then k
  else if e = ['.', '.'] then
    match k.names with
    | _ :: ns => ⟨ns, k.ups⟩
    | [] => if rooted then k else ⟨[], k.ups + 1⟩
  else ⟨e :: k.names, k.ups⟩

/-- The kept elements, last first. -/
def Kept.stack (k : Kept) : List (List Char) := k.names ++ List.replicate k.ups ['.', '.']

/-- Elements given last first, written in order with a separator between two. -/
def joinRev : List (List Char) → List Char
  | [] => []
  | e :: es => (if es = [] then [] else joinRev es ++ ['/']) ++ e

/-- The path the kept elements make. -/
def Kept.render (rooted : Bool) (k : Kept) : List Char :=
  (if rooted then ['/'] else []) ++ joinRev k.stack

/-- The elements of `path`, read from the start under the rules. -/
def Kept.read (rooted : Bool) (path : List Char) : Kept :=
  (path.splitOn '/').foldl (Kept.push rooted) ⟨[], 0⟩

/-- **What `Clean` computes**: the elements of the path under the rules, written
out, or `.` if nothing is left. -/
def cleanSpec (path : List Char) : List Char :=
  let rooted := decide (path.head? = some '/')
  let out := (Kept.read rooted path).render rooted
  if out = [] then ['.'] else out

/-- The states `push` keeps: names are names, and a rooted path keeps no `..`. -/
structure Kept.Valid (rooted : Bool) (k : Kept) : Prop where
  names : ∀ n ∈ k.names, IsName n
  ups : rooted = true → k.ups = 0

section Spec

variable {rooted : Bool} {k : Kept} {e : List Char}

@[simp] theorem Kept.push_nil : k.push rooted [] = k := by simp [Kept.push]

@[simp] theorem Kept.push_dot : k.push rooted ['.'] = k := by simp [Kept.push]

theorem Kept.push_name (h : IsName e) : k.push rooted e = ⟨e :: k.names, k.ups⟩ := by
  obtain ⟨h1, -, h3, h4⟩ := h
  simp [Kept.push, h1, h3, h4]

theorem Kept.Valid.push (hk : k.Valid rooted) (he : '/' ∉ e) : (k.push rooted e).Valid rooted := by
  obtain ⟨names, ups⟩ := k
  unfold Kept.push
  by_cases h1 : e = [] ∨ e = ['.']
  · rw [if_pos h1]; exact hk
  rw [if_neg h1]
  by_cases h2 : e = ['.', '.']
  · rw [if_pos h2]
    cases names with
    | cons n ns => exact ⟨fun n hn => hk.names n (List.mem_cons_of_mem _ hn), hk.ups⟩
    | nil => cases rooted
             · exact ⟨by simp, by simp⟩
             · exact hk
  · rw [if_neg h2]
    push_neg at h1
    exact ⟨List.forall_mem_cons.mpr ⟨⟨h1.1, he, h1.2, h2⟩, hk.names⟩, hk.ups⟩

theorem Kept.valid_empty : (⟨[], 0⟩ : Kept).Valid rooted := ⟨by simp, fun _ => rfl⟩

@[simp] theorem joinRev_nil : joinRev [] = [] := rfl

@[simp] theorem joinRev_single (e : List Char) : joinRev [e] = e := by simp [joinRev]

theorem joinRev_cons {es : List (List Char)} (h : es ≠ []) (e : List Char) :
    joinRev (e :: es) = joinRev es ++ '/' :: e := by
  simp [joinRev, h]

theorem length_joinRev_cons (e : List Char) (es : List (List Char)) :
    (joinRev (e :: es)).length = (joinRev es).length + (if es = [] then 0 else 1) + e.length := by
  by_cases h : es = []
  · simp [h]
  · simp [joinRev_cons h, h]; omega

theorem length_joinRev_le (ns es : List (List Char)) : (joinRev es).length ≤ (joinRev (ns ++ es)).length := by
  induction ns with
  | nil => exact le_rfl
  | cons n ns ih => rw [List.cons_append, length_joinRev_cons]; omega

theorem joinRev_eq_nil {es : List (List Char)} (h : ∀ e ∈ es, e ≠ []) : joinRev es = [] ↔ es = [] := by
  cases es with
  | nil => simp
  | cons e es =>
      have h1 := length_joinRev_cons e es
      have h2 := List.length_pos.mpr (h e (List.mem_cons_self _ _))
      refine ⟨fun h0 => ?_, nofun⟩
      rw [h0, List.length_nil] at h1
      omega

/-- The elements of the path, split at separators. -/
theorem splitOn_append_sep (x y : List Char) :
    (x ++ '/' :: y).splitOn '/' = x.splitOn '/' ++ y.splitOn '/' := by
  induction x with
  | nil => simp [List.splitOn]
  | cons c x ih =>
      simp only [List.splitOn, List.cons_append, List.splitOnP_cons] at ih ⊢
      split_ifs
      · simp [ih]
      · rw [ih]
        obtain ⟨hd, tl, h⟩ := List.exists_cons_of_ne_nil (List.splitOnP_ne_nil (· == '/') x)
        simp [h]

theorem splitOn_of_not_mem {e : List Char} (h : '/' ∉ e) : e.splitOn '/' = [e] :=
  List.splitOnP_eq_single _ _ fun c hc hs => h (by rwa [eq_of_beq hs] at hc)

theorem sep_not_mem_of_mem_splitOn : ∀ {path e : List Char}, e ∈ path.splitOn '/' → '/' ∉ e
  | [], e, h => by simp_all
  | c :: cs, e, h => by
      simp only [List.splitOn, List.splitOnP_cons] at h
      have ih := @sep_not_mem_of_mem_splitOn cs
      simp only [List.splitOn] at ih
      split_ifs at h with hc
      · rcases List.mem_cons.mp h with rfl | h
        · simp
        · exact ih h
      · obtain ⟨hd, tl, hs⟩ := List.exists_cons_of_ne_nil (List.splitOnP_ne_nil (· == '/') cs)
        rw [hs] at h ih
        rcases List.mem_cons.mp h with rfl | h
        · simp only [List.mem_cons, not_or]
          exact ⟨fun e => hc (by simp [← e]), ih (List.mem_cons_self _ _)⟩
        · exact ih (List.mem_cons_of_mem _ h)

theorem splitOn_joinRev : ∀ {es : List (List Char)}, (∀ e ∈ es, '/' ∉ e) → es ≠ [] →
    (joinRev es).splitOn '/' = es.reverse
  | [], _, h => absurd rfl h
  | [e], h, _ => by simp [splitOn_of_not_mem (h e (List.mem_singleton_self e))]
  | e :: e' :: es, h, _ => by
      rw [joinRev_cons (List.cons_ne_nil _ _), splitOn_append_sep,
        splitOn_joinRev (fun x hx => h x (List.mem_cons_of_mem _ hx)) (List.cons_ne_nil _ _),
        splitOn_of_not_mem (h e (List.mem_cons_self _ _))]
      simp

theorem Kept.Valid.read (path : List Char) : (Kept.read rooted path).Valid rooted := by
  unfold Kept.read
  suffices ∀ (es : List (List Char)) (k : Kept), k.Valid rooted → (∀ e ∈ es, '/' ∉ e) →
      (es.foldl (Kept.push rooted) k).Valid rooted from
    this _ _ Kept.valid_empty fun _ => sep_not_mem_of_mem_splitOn
  intro es
  induction es with
  | nil => exact fun _ hk _ => hk
  | cons e es ih =>
      exact fun k hk h => ih _ (hk.push (h e (List.mem_cons_self _ _)))
        fun x hx => h x (List.mem_cons_of_mem _ hx)

theorem Kept.Valid.ne_nil (hk : k.Valid rooted) : ∀ x ∈ k.stack, x ≠ [] := by
  intro x hx
  rcases List.mem_append.mp hx with hx | hx
  · exact (hk.names x hx).1
  · rw [List.eq_of_mem_replicate hx]; simp

/-- Reading an element and what follows it: the element, then the rest. -/
theorem foldl_splitOn_elem (he : '/' ∉ e) {r : List Char} (hr : ∀ d ∈ r.head?, d = '/') (k : Kept) :
    ((e ++ r).splitOn '/').foldl (Kept.push rooted) k =
      (r.splitOn '/').foldl (Kept.push rooted) (k.push rooted e) := by
  cases r with
  | nil =>
      rw [List.append_nil, splitOn_of_not_mem he]
      simp [List.splitOn]
  | cons d r =>
      obtain rfl : d = '/' := hr d rfl
      rw [splitOn_append_sep, splitOn_of_not_mem he]
      simp [List.splitOn]

end Spec

/-! ## The loop of `Clean` -/

/-- How the loop of `Clean` stands for the kept elements: `out` is their
rendering, and `dotdot` the length of its `..` part (`1`, the root, in a rooted
path). -/
structure Kept.Inv (rooted : Bool) (k : Kept) (out : List Char) (dotdot : Nat)
    extends Kept.Valid rooted k : Prop where
  out : out = k.render rooted
  dotdot : dotdot = if rooted then 1 else (joinRev (List.replicate k.ups ['.', '.'])).length

section Loop

variable {rooted : Bool} {k : Kept} {out : List Char} {dotdot : Nat}

theorem backUp_append {y : List Char} (hy : dotdot < y.length) {n : List Char} (hn : '/' ∉ n) :
    backUp dotdot (y ++ n) = backUp dotdot y := by
  induction n using List.reverseRecOn with
  | nil => simp
  | append_singleton n c ih =>
      have hc : c ≠ '/' := fun h => hn (by simp [h])
      rw [← List.append_assoc, backUp, if_neg (by simp; omega), List.getLast?_concat,
        if_neg (by simpa using hc), List.dropLast_concat, ih (fun h => hn (by simp [h]))]

/-- `..` backs up over a name and its separator. -/
theorem backUp_sep {z n : List Char} (hz : dotdot ≤ z.length) (hn : '/' ∉ n) :
    backUp dotdot (z ++ '/' :: n) = z := by
  rw [show z ++ '/' :: n = (z ++ ['/']) ++ n by simp, backUp_append (by simp; omega) hn, backUp]
  by_cases h : (z ++ ['/']).length ≤ dotdot + 1
  · rw [if_pos h, List.dropLast_concat]
  · rw [if_neg h, if_pos (by simp), List.dropLast_concat]

/-- `..` backs up over a name right after the part it may not cross. -/
theorem backUp_name {y n : List Char} (hy : y.length = dotdot) (hn0 : n ≠ []) (hn : '/' ∉ n) :
    backUp dotdot (y ++ n) = y := by
  obtain ⟨c, n, rfl⟩ := List.exists_cons_of_ne_nil hn0
  rw [show y ++ c :: n = (y ++ [c]) ++ n by simp,
    backUp_append (by simp; omega) (fun h => hn (List.mem_cons_of_mem _ h)), backUp,
    if_pos (by simp; omega), List.dropLast_concat]

theorem Kept.Inv.lt_iff (h : k.Inv rooted out dotdot) : dotdot < out.length ↔ k.names ≠ [] := by
  rw [h.out, h.dotdot]
  obtain ⟨names, ups⟩ := k
  cases rooted
  · cases names with
    | nil => simp [Kept.render, Kept.stack]
    | cons n ns =>
        have hn := List.length_pos.mpr (h.names n (List.mem_cons_self _ _)).1
        have := length_joinRev_le ns (List.replicate ups ['.', '.'])
        have := length_joinRev_cons n (ns ++ List.replicate ups ['.', '.'])
        simp [Kept.render, Kept.stack]
        omega
  · obtain rfl : ups = 0 := h.ups rfl
    cases names with
    | nil => simp [Kept.render, Kept.stack]
    | cons n ns =>
        have hn := List.length_pos.mpr (h.names n (List.mem_cons_self _ _)).1
        have := length_joinRev_cons n ns
        simp [Kept.render, Kept.stack]
        omega

/-- A `..` after a name: the loop backs up over it, and the stack pops it. -/
theorem Kept.Inv.pop {n : List Char} {ns : List (List Char)} (h : k.Inv rooted out dotdot)
    (hn : k.names = n :: ns) : (⟨ns, k.ups⟩ : Kept).Inv rooted (backUp dotdot out) dotdot := by
  obtain ⟨names, ups⟩ := k
  obtain rfl : names = n :: ns := hn
  have hname := h.names n (List.mem_cons_self _ _)
  refine ⟨⟨fun x hx => h.names x (List.mem_cons_of_mem _ hx), h.ups⟩, ?_, h.dotdot⟩
  rw [h.out]
  simp only [Kept.render, Kept.stack, List.cons_append]
  by_cases hs : ns ++ List.replicate ups ['.', '.'] = []
  · rw [hs, joinRev_single]
    obtain ⟨rfl, hu⟩ := List.append_eq_nil.mp hs
    have hy : (if rooted = true then ['/'] else []).length = dotdot := by
      rw [h.dotdot]
      cases rooted
      · simp [(List.replicate_eq_nil_iff _).mp hu]
      · simp
    rw [backUp_name hy hname.1 hname.2.1]
    simp
  · have hz : dotdot ≤ ((if rooted = true then ['/'] else []) ++ joinRev (ns ++ List.replicate ups ['.', '.'])).length := by
      rw [h.dotdot]
      cases rooted
      · simpa using length_joinRev_le ns _
      · simp
    rw [joinRev_cons hs, ← List.append_assoc, backUp_sep hz hname.2.1]

/-- A `..` with no name to back up over, in a relative path: it is kept. -/
theorem Kept.Inv.up (h : k.Inv false out dotdot) (hn : k.names = []) :
    (⟨[], k.ups + 1⟩ : Kept).Inv false ((if out.length > 0 then out ++ ['/'] else out) ++ ['.', '.'])
      ((if out.length > 0 then out ++ ['/'] else out) ++ ['.', '.']).length := by
  have hr : (if out.length > 0 then out ++ ['/'] else out) ++ ['.', '.'] =
      (⟨[], k.ups + 1⟩ : Kept).render false := by
    rw [h.out]
    simp only [Kept.render, Kept.stack, hn, List.nil_append, List.replicate_succ, joinRev]
    by_cases hu : k.ups = 0
    · simp [hu]
    · have : joinRev (List.replicate k.ups ['.', '.']) ≠ [] := fun h0 =>
        hu (by simpa using (joinRev_eq_nil (by simp)).mp h0)
      simp [this, hu, List.length_pos]
  refine ⟨⟨by simp, nofun⟩, hr, ?_⟩
  rw [hr]
  simp [Kept.render, Kept.stack]

/-- A name: the loop writes a separator unless the output is empty or the root,
then the name; the stack pushes it. -/
theorem Kept.Inv.name {e : List Char} (h : k.Inv rooted out dotdot) (he : IsName e) :
    (⟨e :: k.names, k.ups⟩ : Kept).Inv rooted
      ((if (rooted && out.length ≠ 1) || (!rooted && out.length ≠ 0) then out ++ ['/'] else out) ++ e)
      dotdot := by
  refine ⟨⟨List.forall_mem_cons.mpr ⟨he, h.names⟩, h.ups⟩, ?_, h.dotdot⟩
  have hne : ∀ x ∈ k.names ++ List.replicate k.ups ['.', '.'], x ≠ [] := h.toValid.ne_nil
  rw [h.out]
  simp only [Kept.render, Kept.stack, List.cons_append]
  obtain ⟨S, hS⟩ : ∃ S, k.names ++ List.replicate k.ups ['.', '.'] = S := ⟨_, rfl⟩
  simp only [hS] at hne ⊢
  rcases S with _ | ⟨x, S⟩
  · cases rooted <;> simp
  · have hj : joinRev (x :: S) ≠ [] := fun h0 => nomatch (joinRev_eq_nil hne).mp h0
    rw [joinRev_cons (List.cons_ne_nil x S)]
    cases rooted <;> simp [hj]

theorem dotElem_cons {c : Char} {rest : List Char} (h : dotElem (c :: rest) = true) :
    c = '.' ∧ ∀ d ∈ rest.head?, d = '/' := by
  rcases rest with _ | ⟨d, ds⟩ <;> simp_all [dotElem]

theorem dotDotElem_cons {c : Char} {rest : List Char} (h : dotDotElem (c :: rest) = true) :
    c = '.' ∧ ∃ r, rest = '.' :: r ∧ ∀ d ∈ r.head?, d = '/' := by
  rcases rest with _ | ⟨d, _ | ⟨d', r⟩⟩ <;> simp_all [dotDotElem]

theorem dotElem_of {r : List Char} (hr : ∀ d ∈ r.head?, d = '/') : dotElem ('.' :: r) = true := by
  rcases r with _ | ⟨d, r⟩
  · rfl
  · obtain rfl := hr d rfl; simp [dotElem]

theorem dotDotElem_of {r : List Char} (hr : ∀ d ∈ r.head?, d = '/') :
    dotDotElem ('.' :: '.' :: r) = true := by
  rcases r with _ | ⟨d, r⟩
  · rfl
  · obtain rfl := hr d rfl; simp [dotDotElem]

theorem head?_dropWhile_sep : ∀ (l : List Char), ∀ d ∈ (l.dropWhile (· ≠ '/')).head?, d = '/'
  | [] => by simp
  | c :: l => by
      by_cases hc : c = '/'
      · simp [hc]
      · simpa [List.dropWhile_cons, hc] using head?_dropWhile_sep l

/-- The element the last case of the loop copies is a name. -/
theorem isName_of_loop {c : Char} {rest : List Char} (h1 : ¬c = '/') (h2 : ¬dotElem (c :: rest) = true)
    (h3 : ¬dotDotElem (c :: rest) = true) : IsName (c :: rest.takeWhile (· ≠ '/')) := by
  have hr := head?_dropWhile_sep rest
  have hs := (List.takeWhile_append_dropWhile (· ≠ '/') rest).symm
  refine ⟨List.cons_ne_nil _ _, ?_, fun he => ?_, fun he => ?_⟩
  · simp only [List.mem_cons, not_or]
    exact ⟨Ne.symm h1, fun h => by simpa using List.mem_takeWhile_imp h⟩
  · obtain ⟨rfl, ht⟩ := List.cons.inj he
    rw [ht, List.nil_append] at hs
    exact h2 (hs ▸ dotElem_of hr)
  · obtain ⟨rfl, ht⟩ := List.cons.inj he
    rw [ht] at hs
    exact h3 (hs ▸ dotDotElem_of hr)

/-- **The loop of `Clean` reads the elements under the rules**: from a state
standing for the stack `k`, it writes what `push` makes of `k` and the elements
left. -/
theorem clean.loop_eq {rest : List Char} (h : k.Inv rooted out dotdot) :
    clean.loop rooted rest out dotdot = ((rest.splitOn '/').foldl (Kept.push rooted) k).render rooted := by
  induction rest, out, dotdot using clean.loop.induct rooted generalizing k with
  | case1 out dotdot => simp [clean.loop, List.splitOn, h.out]
  | case2 out dotdot rest' ih =>
      rw [clean.loop, if_pos rfl, ih h]
      simp [List.splitOn]
  | case3 out dotdot c rest' h1 h2 ih =>
      obtain ⟨rfl, hr⟩ := dotElem_cons h2
      rw [clean.loop, if_neg h1, if_pos h2, ih h, show '.' :: rest' = ['.'] ++ rest' from rfl,
        foldl_splitOn_elem (by simp) hr, Kept.push_dot]
  | case4 out dotdot c rest' h1 h2 h3 h4 ih =>
      obtain ⟨n, ns, hn⟩ := List.exists_cons_of_ne_nil (h.lt_iff.mp h4)
      obtain ⟨rfl, r, rfl, hr⟩ := dotDotElem_cons h3
      rw [clean.loop, if_neg h1, if_neg h2, if_pos h3, if_pos h4, ih (h.pop hn), List.tail_cons,
        show '.' :: '.' :: r = ['.', '.'] ++ r from rfl, foldl_splitOn_elem (by simp) hr]
      simp [Kept.push, hn]
  | case5 out dotdot c rest' h1 h2 h3 h4 h5 o =>
      rename_i ih
      obtain rfl : rooted = false := by simpa using h5
      have hn : k.names = [] := by simpa using mt h.lt_iff.mpr h4
      obtain ⟨rfl, r, rfl, hr⟩ := dotDotElem_cons h3
      rw [clean.loop, if_neg h1, if_neg h2, if_pos h3, if_neg h4, if_pos h5]
      refine (ih (h.up hn)).trans ?_
      rw [List.tail_cons, show '.' :: '.' :: r = ['.', '.'] ++ r from rfl, foldl_splitOn_elem (by simp) hr]
      simp [Kept.push, hn]
  | case6 out dotdot c rest' h1 h2 h3 h4 h5 ih =>
      obtain rfl : rooted = true := by simpa using h5
      have hn : k.names = [] := by simpa using mt h.lt_iff.mpr h4
      obtain ⟨rfl, r, rfl, hr⟩ := dotDotElem_cons h3
      rw [clean.loop, if_neg h1, if_neg h2, if_pos h3, if_neg h4, if_neg h5, ih h, List.tail_cons,
        show '.' :: '.' :: r = ['.', '.'] ++ r from rfl, foldl_splitOn_elem (by simp) hr]
      simp [Kept.push, hn]
  | case7 out dotdot c rest' h1 h2 h3 o =>
      rename_i ih
      have he := isName_of_loop h1 h2 h3
      rw [clean.loop, if_neg h1, if_neg h2, if_neg h3]
      refine (ih (h.name he)).trans ?_
      conv_rhs => rw [← List.takeWhile_append_dropWhile (· ≠ '/') rest', ← List.cons_append]
      rw [foldl_splitOn_elem he.2.1 (head?_dropWhile_sep rest'), Kept.push_name he]

/-- **`Clean` meets its specification.** -/
theorem clean_eq_cleanSpec (path : List Char) : clean path = cleanSpec path := by
  unfold clean cleanSpec Kept.read
  rcases path with _ | ⟨c, cs⟩
  · simp [List.splitOn, Kept.render, Kept.stack]
  by_cases hc : c = '/'
  · subst hc
    simp only [reduceCtorEq, if_false, List.head?_cons, List.tail_cons, decide_True, if_true]
    have h0 : (⟨[], 0⟩ : Kept).Inv true ['/'] 1 := ⟨Kept.valid_empty, rfl, rfl⟩
    rw [clean.loop_eq h0]
    simp [List.splitOn]
  · simp only [reduceCtorEq, if_false, List.head?_cons, Option.some.injEq, hc, decide_False,
      Bool.false_eq_true]
    have h0 : (⟨[], 0⟩ : Kept).Inv false [] 0 := ⟨Kept.valid_empty, rfl, rfl⟩
    rw [clean.loop_eq h0]

end Loop

/-! ## What follows from the specification -/

section Facts

variable {rooted : Bool} {k : Kept} {x y : List Char}

theorem Kept.read_append_sep :
    Kept.read rooted (x ++ '/' :: y) = (y.splitOn '/').foldl (Kept.push rooted) (Kept.read rooted x) := by
  simp [Kept.read, splitOn_append_sep]

theorem Kept.foldl_ups (u v : Nat) :
    (List.replicate u ['.', '.']).foldl (Kept.push false) ⟨[], v⟩ = ⟨[], v + u⟩ := by
  induction u generalizing v with
  | zero => rfl
  | succ u ih => rw [List.replicate_succ, List.foldl_cons, show Kept.push false ⟨[], v⟩ ['.', '.'] = ⟨[], v + 1⟩ by
      simp [Kept.push], ih, Nat.add_assoc, Nat.add_comm 1 u]

theorem Kept.foldl_names {ns : List (List Char)} (h : ∀ n ∈ ns, IsName n) (m : List (List Char)) (u : Nat) :
    ns.reverse.foldl (Kept.push rooted) ⟨m, u⟩ = ⟨ns ++ m, u⟩ := by
  induction ns with
  | nil => rfl
  | cons n ns ih =>
      rw [List.reverse_cons, List.foldl_append, ih fun x hx => h x (List.mem_cons_of_mem _ hx),
        List.foldl_cons, List.foldl_nil, Kept.push_name (h n (List.mem_cons_self _ _))]
      rfl

/-- Reading the kept elements back, bottom first, rebuilds the stack. -/
theorem Kept.Valid.foldl_stack (hk : k.Valid rooted) :
    k.stack.reverse.foldl (Kept.push rooted) ⟨[], 0⟩ = k := by
  obtain ⟨names, ups⟩ := k
  have hups : (List.replicate ups ['.', '.']).foldl (Kept.push rooted) ⟨[], 0⟩ = ⟨[], ups⟩ := by
    cases rooted
    · simpa using Kept.foldl_ups ups 0
    · obtain rfl : ups = 0 := hk.ups rfl
      rfl
  rw [Kept.stack, List.reverse_append, List.reverse_replicate, List.foldl_append, hups,
    Kept.foldl_names hk.names, List.append_nil]

theorem head?_joinRev : ∀ {es : List (List Char)}, (∀ e ∈ es, e ≠ [] ∧ '/' ∉ e) →
    (joinRev es).head? ≠ some '/'
  | [], _ => by simp
  | [e], h => by
      obtain ⟨c, e, rfl⟩ := List.exists_cons_of_ne_nil (h _ (List.mem_singleton_self _)).1
      intro hc
      simp only [joinRev_single, List.head?_cons, Option.some.injEq] at hc
      exact (h _ (List.mem_singleton_self _)).2 (by simp [hc])
  | e :: e' :: es, h => by
      have h' : ∀ x ∈ e' :: es, x ≠ [] ∧ '/' ∉ x := fun x hx => h x (List.mem_cons_of_mem _ hx)
      have hne : joinRev (e' :: es) ≠ [] := fun h0 =>
        nomatch (joinRev_eq_nil fun x hx => (h' x hx).1).mp h0
      obtain ⟨c, t, hct⟩ := List.exists_cons_of_ne_nil hne
      have := head?_joinRev h'
      rw [joinRev_cons (List.cons_ne_nil _ _), hct]
      rw [hct] at this
      simpa using this

/-- A rendering starts with a separator exactly when it is rooted. -/
theorem Kept.Valid.rooted_render (hk : k.Valid rooted) :
    decide ((k.render rooted).head? = some '/') = rooted := by
  cases rooted
  · simpa [Kept.render] using head?_joinRev fun e he => ⟨hk.ne_nil e he, fun hs => by
      rcases List.mem_append.mp he with he | he
      · exact (hk.names e he).2.1 hs
      · rw [List.eq_of_mem_replicate he] at hs; simp at hs⟩
  · simp [Kept.render]

/-- **Reading a rendering back gives the stack.** -/
theorem Kept.Valid.read_render (hk : k.Valid rooted) : Kept.read rooted (k.render rooted) = k := by
  have hs : ∀ e ∈ k.stack, '/' ∉ e := fun e he hs => by
    rcases List.mem_append.mp he with he | he
    · exact (hk.names e he).2.1 hs
    · rw [List.eq_of_mem_replicate he] at hs; simp at hs
  by_cases h0 : k.stack = []
  · obtain ⟨names, ups⟩ := k
    obtain ⟨rfl, hu⟩ := List.append_eq_nil.mp h0
    obtain rfl : ups = 0 := (List.replicate_eq_nil_iff _).mp hu
    cases rooted <;> simp [Kept.render, Kept.stack, Kept.read, List.splitOn]
  · have hsplit := splitOn_joinRev hs h0
    cases rooted
    · simpa [Kept.render, Kept.read, hsplit] using hk.foldl_stack
    · simp only [Kept.render, Kept.read, if_true, List.singleton_append]
      rw [show '/' :: joinRev k.stack = [] ++ '/' :: joinRev k.stack from rfl, splitOn_append_sep, hsplit]
      simpa [List.splitOn] using hk.foldl_stack

theorem Kept.Valid.cleanSpec_render (hk : k.Valid rooted) (h : k.render rooted ≠ []) :
    cleanSpec (k.render rooted) = k.render rooted := by
  simp only [cleanSpec, hk.rooted_render, hk.read_render, h, if_false]

theorem Kept.render_eq_nil (hk : k.Valid rooted) (h : k.render rooted = []) :
    rooted = false ∧ k = ⟨[], 0⟩ := by
  cases rooted
  · obtain ⟨names, ups⟩ := k
    have h0 := (joinRev_eq_nil hk.ne_nil).mp (by simpa [Kept.render] using h)
    obtain ⟨rfl, hu⟩ := List.append_eq_nil.mp h0
    obtain rfl : ups = 0 := (List.replicate_eq_nil_iff _).mp hu
    exact ⟨rfl, rfl⟩
  · simp [Kept.render] at h

/-- `Clean` never returns the empty path. -/
theorem clean_ne_nil (path : List Char) : clean path ≠ [] := by
  rw [clean_eq_cleanSpec, cleanSpec]
  split_ifs with h
  · simp
  · exact h

/-- **`Clean` is idempotent.** -/
theorem clean_clean (path : List Char) : clean (clean path) = clean path := by
  have hk : (Kept.read (decide (path.head? = some '/')) path).Valid (decide (path.head? = some '/')) :=
    Kept.Valid.read path
  rw [clean_eq_cleanSpec path, cleanSpec]
  split_ifs with h
  · rw [clean_eq_cleanSpec]; simp [cleanSpec, Kept.read, List.splitOn, Kept.render, Kept.stack]
  · rw [clean_eq_cleanSpec, hk.cleanSpec_render h]

theorem rooted_clean (path : List Char) :
    decide ((clean path).head? = some '/') = decide (path.head? = some '/') := by
  have hk : (Kept.read (decide (path.head? = some '/')) path).Valid (decide (path.head? = some '/')) :=
    Kept.Valid.read path
  rw [clean_eq_cleanSpec, cleanSpec]
  split_ifs with h
  · rw [(Kept.render_eq_nil hk h).1]; rfl
  · exact hk.rooted_render

/-- A cleaned path reads as the path. -/
theorem Kept.read_clean (path : List Char) :
    Kept.read (decide (path.head? = some '/')) (clean path) =
      Kept.read (decide (path.head? = some '/')) path := by
  have hk : (Kept.read (decide (path.head? = some '/')) path).Valid (decide (path.head? = some '/')) :=
    Kept.Valid.read path
  rw [clean_eq_cleanSpec, cleanSpec]
  split_ifs with h
  · rw [(Kept.render_eq_nil hk h).2]
    simp [Kept.read, List.splitOn]
  · exact hk.read_render

/-- **Joining to a cleaned path is joining to the path.** -/
theorem join_clean (hx : x ≠ []) (y : List Char) : join (clean x) y = join x y := by
  have hr : ∀ z : List Char, z ≠ [] → (z ++ '/' :: y).head? = z.head? := fun z hz => by
    obtain ⟨c, z, rfl⟩ := List.exists_cons_of_ne_nil hz; rfl
  simp only [join, ne_eq, clean_ne_nil, hx, not_false_eq_true, if_true]
  rw [clean_eq_cleanSpec (clean x ++ '/' :: y), clean_eq_cleanSpec (x ++ '/' :: y)]
  simp only [cleanSpec, hr _ (clean_ne_nil x), hr _ hx, rooted_clean, Kept.read_append_sep,
    Kept.read_clean]

theorem joinRev_cons_append (e v : List Char) (es : List (List Char)) :
    joinRev (e :: es) ++ v = joinRev ((e ++ v) :: es) := by
  simp [joinRev]

theorem isName_append {e v : List Char} (he : e ≠ []) (hs : '/' ∉ e) (hv : IsName v) :
    IsName (e ++ v) := by
  refine ⟨by simp [he], List.not_mem_append hs hv.2.1, fun h => ?_, fun h => ?_⟩
  · have h1 := congrArg List.length h
    have := List.length_pos.mpr he
    have := List.length_pos.mpr hv.1
    simp only [List.length_append, List.length_singleton] at h1
    omega
  · obtain ⟨c, e, rfl⟩ := List.exists_cons_of_ne_nil he
    obtain ⟨d, v, rfl⟩ := List.exists_cons_of_ne_nil hv.1
    rcases e with _ | ⟨c', e⟩
    · simp only [List.nil_append, List.cons_append, List.cons.injEq] at h
      obtain ⟨rfl, rfl, rfl⟩ := h
      exact hv.2.2.1 rfl
    · simp at h

theorem Kept.Valid.render_ne_nil {v : List Char} {ns : List (List Char)} {u : Nat}
    (hk : (⟨v :: ns, u⟩ : Kept).Valid rooted) : (⟨v :: ns, u⟩ : Kept).render rooted ≠ [] := by
  have := List.length_pos.mpr (hk.names v (List.mem_cons_self _ _)).1
  intro h
  have h0 := congrArg List.length h
  rw [Kept.render, Kept.stack, List.length_append, List.cons_append, length_joinRev_cons] at h0
  simp only [List.length_nil] at h0
  omega

/-- Text added to the last element of a rendering makes another rendering. -/
theorem Kept.Valid.exists_append {v : List Char} (hk : k.Valid rooted) (h : k.render rooted ≠ [])
    (hv : IsName v) :
    ∃ n ns u, (⟨n :: ns, u⟩ : Kept).Valid rooted ∧ (⟨n :: ns, u⟩ : Kept).render rooted = k.render rooted ++ v := by
  obtain ⟨names, ups⟩ := k
  rcases names with _ | ⟨n, ns⟩
  · rcases ups with _ | u
    · cases rooted
      · simp [Kept.render, Kept.stack] at h
      · exact ⟨v, [], 0, ⟨by simpa using hv, fun _ => rfl⟩, by simp [Kept.render, Kept.stack]⟩
    · have hr : rooted = false := by
        cases rooted
        · rfl
        · exact absurd (hk.ups rfl) (Nat.succ_ne_zero u)
      subst hr
      refine ⟨['.', '.'] ++ v, [], u,
        ⟨by simpa using isName_append (show ['.', '.'] ≠ [] by simp) (by simp) hv, nofun⟩, ?_⟩
      simp only [Kept.render, Kept.stack, List.nil_append, List.replicate_succ, List.singleton_append,
        List.append_assoc, joinRev_cons_append]
  · have hn := hk.names n (List.mem_cons_self _ _)
    refine ⟨n ++ v, ns, ups, ⟨List.forall_mem_cons.mpr ⟨isName_append hn.1 hn.2.1 hv,
      fun x hx => hk.names x (List.mem_cons_of_mem _ hx)⟩, hk.ups⟩, ?_⟩
    simp only [Kept.render, Kept.stack, List.cons_append, List.append_assoc, joinRev_cons_append]

/-- **Joining a name to a rendering pushes it.** -/
theorem Kept.Valid.join_render {e : List Char} (hk : k.Valid rooted) (h : k.render rooted ≠ [])
    (he : IsName e) : join (k.render rooted) e = (⟨e :: k.names, k.ups⟩ : Kept).render rooted := by
  have hk' : (⟨e :: k.names, k.ups⟩ : Kept).Valid rooted :=
    ⟨List.forall_mem_cons.mpr ⟨he, hk.names⟩, hk.ups⟩
  have hr : (k.render rooted ++ '/' :: e).head? = (k.render rooted).head? := by
    obtain ⟨c, z, hz⟩ := List.exists_cons_of_ne_nil h
    rw [hz]; rfl
  rw [join, if_pos h, clean_eq_cleanSpec]
  simp only [cleanSpec, hr, hk.rooted_render, Kept.read_append_sep, hk.read_render,
    splitOn_of_not_mem he.2.1, List.foldl_cons, List.foldl_nil, Kept.push_name he, hk'.render_ne_nil,
    if_false]

/-- **A name added to the last element of a cleaned path is kept by `Clean`.** -/
theorem clean_append_name {v : List Char} (y : List Char) (hv : IsName v) :
    clean (clean y ++ v) = clean y ++ v := by
  have hk : (Kept.read (decide (y.head? = some '/')) y).Valid (decide (y.head? = some '/')) :=
    Kept.Valid.read y
  rw [clean_eq_cleanSpec y, cleanSpec]
  split_ifs with h
  · have hd : (⟨['.' :: v], 0⟩ : Kept).Valid false :=
      ⟨by simpa using isName_append (show ['.'] ≠ [] by simp) (by simp) hv, nofun⟩
    have := hd.cleanSpec_render hd.render_ne_nil
    simpa [clean_eq_cleanSpec, Kept.render, Kept.stack] using this
  · obtain ⟨n, ns, u, hk', hr⟩ := hk.exists_append h hv
    rw [← hr, clean_eq_cleanSpec, hk'.cleanSpec_render hk'.render_ne_nil]

end Facts

/-! ## `Dir`, `Base` and `Join` of a cleaned path -/

section Split

variable {x w : List Char}

theorem split_append (hw : '/' ∉ w) (x : List Char) :
    split (x ++ w) = ((split x).1, (split x).2 ++ w) := by
  have h : ∀ c ∈ w.reverse, decide (c ≠ '/') = true := fun c hc =>
    decide_eq_true fun e => hw (by rw [← e]; exact List.mem_reverse.mp hc)
  simp only [split, List.reverse_append, List.dropWhile_append_of_pos h,
    List.takeWhile_append_of_pos h, List.reverse_reverse]

theorem split_eq (x : List Char) : (split x).1 ++ (split x).2 = x := by
  simp only [split, ← List.reverse_append, List.takeWhile_append_dropWhile, List.reverse_reverse]

theorem sep_not_mem_split (x : List Char) : '/' ∉ (split x).2 := fun h => by
  simpa using List.mem_takeWhile_imp (List.mem_reverse.mp h)

/-- The directory part of a path is empty or ends in a separator. -/
theorem split_fst (x : List Char) : (split x).1 = [] ∨ ∃ d, (split x).1 = d ++ ['/'] := by
  have := head?_dropWhile_sep x.reverse
  simp only [split]
  rcases hd : x.reverse.dropWhile (· ≠ '/') with _ | ⟨c, d⟩
  · exact .inl rfl
  · rw [hd] at this
    obtain rfl := this c rfl
    exact .inr ⟨d.reverse, by simp⟩

theorem base_append (hw : '/' ∉ w) (hw0 : w ≠ []) (x : List Char) :
    base (x ++ w) = (split x).2 ++ w := by
  obtain ⟨w, c, rfl⟩ : ∃ w' c, w = w' ++ [c] := ⟨_, _, (List.dropLast_append_getLast hw0).symm⟩
  have hc : ¬c = '/' := fun h => hw (by simp [h])
  have hr : ((x ++ (w ++ [c])).reverse.dropWhile (· = '/')).reverse = x ++ (w ++ [c]) := by
    rw [List.reverse_append, List.reverse_concat, List.cons_append,
      List.dropWhile_cons_of_neg (by simpa using hc), ← List.cons_append, ← List.reverse_concat,
      ← List.reverse_append, List.reverse_reverse]
  simp only [base, hr, split_append hw, List.append_eq_nil, hw0, and_false, if_false]

theorem dir_append (hw : '/' ∉ w) (x : List Char) : dir (x ++ w) = clean (split x).1 := by
  rw [dir, split_append hw]

theorem clean_nil : clean [] = ['.'] := by simp [clean]

/-- A doubled separator reads as one. -/
theorem clean_sep_sep (d z : List Char) : clean (d ++ '/' :: '/' :: z) = clean (d ++ '/' :: z) := by
  have hh : (d ++ '/' :: '/' :: z).head? = (d ++ '/' :: z).head? := by cases d <;> rfl
  rw [clean_eq_cleanSpec, clean_eq_cleanSpec]
  simp only [cleanSpec, hh, Kept.read_append_sep]
  simp [List.splitOn]

/-- A leading `.` element reads as nothing. -/
theorem clean_dot_sep {z : List Char} (hz : z.head? ≠ some '/') : clean ('.' :: '/' :: z) = clean z := by
  have h1 : decide (z.head? = some '/') = false := by simpa using hz
  have h2 : decide (('.' :: '/' :: z).head? = some '/') = false := by simp
  rw [clean_eq_cleanSpec, clean_eq_cleanSpec]
  simp only [cleanSpec, h1, h2, show '.' :: '/' :: z = ['.'] ++ '/' :: z from rfl, Kept.read_append_sep]
  simp [Kept.read, List.splitOn]

/-- **`Dir`, `Base` and `Join` put a cleaned path back together**: joining the
directory of a cleaned path to its last element with a name added gives the
path with the name added. -/
theorem join_dir_base {v : List Char} (y : List Char) (hv : IsName v) :
    join (clean (split (clean y)).1) ((split (clean y)).2 ++ v) = clean y ++ v := by
  have hx := split_eq (clean y)
  have hm := sep_not_mem_split (clean y)
  rw [← clean_append_name y hv]
  generalize (split (clean y)).2 = m at hx hm ⊢
  rcases split_fst (clean y) with hd | ⟨d, hd⟩ <;> rw [hd] at hx ⊢ <;> rw [← hx]
  · obtain ⟨c, t, hct⟩ := List.exists_cons_of_ne_nil (show m ++ v ≠ [] by simp [hv.1])
    have hc : c ≠ '/' := fun e => List.not_mem_append hm hv.2.1 (by simp [hct, e])
    rw [join, if_pos (clean_ne_nil _), clean_nil, List.nil_append, List.singleton_append,
      clean_dot_sep (by simp [hct, hc])]
  · rw [join_clean (by simp), join, if_pos (by simp),
      show d ++ ['/'] ++ '/' :: (m ++ v) = d ++ '/' :: '/' :: (m ++ v) by simp, clean_sep_sep,
      show d ++ ['/'] ++ m ++ v = d ++ '/' :: (m ++ v) by simp]

end Split

end Dagu.Go
