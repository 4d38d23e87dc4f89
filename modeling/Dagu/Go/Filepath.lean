import Mathlib.Data.List.Basic

/-! # `path/filepath` and `strings`

The functions of `path/filepath` (Unix) and `strings` that build and take apart
the history file names: `Clean`, `Join`, `Base`, `Ext`, `Dir`, `Split`,
`strings.TrimSuffix` and `strings.Replace`. A Go string is a `List Char`, its
runes: these functions compare bytes only with the ASCII `'/'` and `'.'`, which
no other rune's UTF-8 bytes contain.

`Clean` is its loop over the path, with the output written so far and the
length `dotdot` that `..` may not back up over. What the proofs use of it is
what it writes: only characters of its input, `'/'` and `'.'`
(`mem_clean`).
-/

namespace Dagu.Go

/-- The `..` case of `Clean`: back up over the last element of `out`, but not
below `dotdot` (`out.w--` and the loop after it). -/
def backUp (dotdot : Nat) (out : List Char) : List Char :=
  if out.length ≤ dotdot + 1 then out.dropLast
  else if out.getLast? = some '/' then out.dropLast
  else backUp dotdot out.dropLast
termination_by out.length
decreasing_by simp_wf; omega

/-- `rest` starts a path element `.` (it is `.`, or `.` and a separator). -/
def dotElem (rest : List Char) : Bool := rest = ['.'] || rest.take 2 = ['.', '/']

/-- `rest` starts a path element `..`. -/
def dotDotElem (rest : List Char) : Bool := rest = ['.', '.'] || rest.take 3 = ['.', '.', '/']

/-- The loop of `Clean` from what is left of the path, `rest`. -/
def clean.loop (rooted : Bool) (rest out : List Char) (dotdot : Nat) : List Char :=
  match rest with
  | [] => out
  | c :: rest' =>
      if c = '/' then clean.loop rooted rest' out dotdot
      else if dotElem (c :: rest') then clean.loop rooted rest' out dotdot
      else if dotDotElem (c :: rest') then
        if dotdot < out.length then clean.loop rooted rest'.tail (backUp dotdot out) dotdot
        else if !rooted then
          let out' := (if out.length > 0 then out ++ ['/'] else out) ++ ['.', '.']
          clean.loop rooted rest'.tail out' out'.length
        else clean.loop rooted rest'.tail out dotdot
      else
        let out' := if (rooted && out.length ≠ 1) || (!rooted && out.length ≠ 0) then out ++ ['/'] else out
        clean.loop rooted (rest'.dropWhile (· ≠ '/')) (out' ++ c :: rest'.takeWhile (· ≠ '/')) dotdot
termination_by rest.length
decreasing_by
  all_goals simp_wf
  all_goals first
    | omega
    | (have : (rest'.dropWhile fun x => !decide (x = '/')).length ≤ rest'.length :=
        (List.dropWhile_suffix _).length_le
       omega)

/-- `filepath.Clean`: the shortest path naming the same file, by purely lexical
processing. -/
def clean (path : List Char) : List Char :=
  if path = [] then ['.']
  else
    let rooted := path.head? = some '/'
    let out := if rooted then clean.loop true path.tail ['/'] 1 else clean.loop false path [] 0
    if out = [] then ['.'] else out

/-- `filepath.Join` of two elements: the non-empty ones joined by a separator,
and cleaned. -/
def join (a b : List Char) : List Char :=
  if a ≠ [] then clean (a ++ '/' :: b) else if b ≠ [] then clean b else []

/-- `filepath.Split`: the path up to and including its last separator, and the
rest. -/
def split (path : List Char) : List Char × List Char :=
  ((path.reverse.dropWhile (· ≠ '/')).reverse, (path.reverse.takeWhile (· ≠ '/')).reverse)

/-- `filepath.Base`: the last element, trailing separators removed; `.` for the
empty path and `/` for a path of separators. -/
def base (path : List Char) : List Char :=
  if path = [] then ['.']
  else
    let elem := (split (path.reverse.dropWhile (· = '/')).reverse).2
    if elem = [] then ['/'] else elem

/-- `filepath.Ext`: the suffix of the last element from its last `.`, or empty. -/
def ext (path : List Char) : List Char :=
  let elem := (split path).2
  if '.' ∈ elem then '.' :: (elem.reverse.takeWhile (· ≠ '.')).reverse else []

/-- `filepath.Dir`: the path without its last element, cleaned. -/
def dir (path : List Char) : List Char := clean (split path).1

/-- `strings.TrimSuffix`. -/
def trimSuffix (s suffix : List Char) : List Char :=
  if suffix <:+ s then s.take (s.length - suffix.length) else s

/-- `strings.Replace(s, old, new, 1)`: the first occurrence of `old` replaced;
an empty `old` matches at the start. -/
def replaceFirst : List Char → List Char → List Char → List Char
  | s, old, new =>
      if old <+: s then new ++ s.drop old.length
      else match s with
        | [] => []
        | c :: s' => c :: replaceFirst s' old new

end Dagu.Go

namespace Dagu.Go

/-! ## What `Clean` and `Join` write -/

section Chars

variable {p : Char → Prop}

theorem prefix_backUp (dotdot : Nat) (out : List Char) : backUp dotdot out <+: out := by
  induction out using backUp.induct dotdot with
  | case1 x h => rw [backUp, if_pos h]; exact List.dropLast_prefix x
  | case2 x h h' => rw [backUp, if_neg h, if_pos h']; exact List.dropLast_prefix x
  | case3 x h h' ih => rw [backUp, if_neg h, if_neg h']; exact ih.trans <| List.dropLast_prefix x

theorem forall_mem_sep {b : Prop} [Decidable b] (hs : p '/') {out : List Char}
    (ho : ∀ c ∈ out, p c) : ∀ c ∈ (if b then out ++ ['/'] else out), p c := by
  split_ifs
  · intro c hc
    rcases List.mem_append.mp hc with hc | hc
    · exact ho c hc
    · rw [List.mem_singleton.mp hc]; exact hs
  · exact ho

theorem clean.loop_forall (hs : p '/') (hd : p '.') (rooted : Bool) (rest out : List Char) (dotdot : Nat)
    (hr : ∀ c ∈ rest, p c) (ho : ∀ c ∈ out, p c) : ∀ c ∈ clean.loop rooted rest out dotdot, p c := by
  induction rest, out, dotdot using clean.loop.induct rooted with
  | case1 out dotdot => rw [clean.loop]; exact ho
  | case2 out dotdot rest' ih =>
      rw [clean.loop, if_pos rfl]
      exact ih (fun c hc => hr c (.tail _ hc)) ho
  | case3 out dotdot c rest' h1 h2 ih =>
      rw [clean.loop, if_neg h1, if_pos h2]
      exact ih (fun c hc => hr c (.tail _ hc)) ho
  | case4 out dotdot c rest' h1 h2 h3 h4 ih =>
      rw [clean.loop, if_neg h1, if_neg h2, if_pos h3, if_pos h4]
      exact ih (fun c hc => hr c (.tail _ (List.mem_of_mem_tail hc)))
        (fun c hc => ho c ((prefix_backUp dotdot out).subset hc))
  | case5 out dotdot c rest' h1 h2 h3 h4 h5 o ih =>
      rw [clean.loop, if_neg h1, if_neg h2, if_pos h3, if_neg h4, if_pos h5]
      refine ih (fun c hc => hr c (.tail _ (List.mem_of_mem_tail hc))) fun c hc => ?_
      rcases List.mem_append.mp hc with hc | hc
      · exact forall_mem_sep hs ho c hc
      · rcases List.mem_pair.mp hc with rfl | rfl <;> exact hd
  | case6 out dotdot c rest' h1 h2 h3 h4 h5 ih =>
      rw [clean.loop, if_neg h1, if_neg h2, if_pos h3, if_neg h4, if_neg h5]
      exact ih (fun c hc => hr c (.tail _ (List.mem_of_mem_tail hc))) ho
  | case7 out dotdot c rest' h1 h2 h3 o ih =>
      rw [clean.loop, if_neg h1, if_neg h2, if_neg h3]
      refine ih (fun c hc => hr c (.tail _ ((List.dropWhile_suffix _).subset hc))) fun c hc => ?_
      rcases List.mem_append.mp hc with hc | hc
      · exact forall_mem_sep hs ho c hc
      · rcases List.mem_cons.mp hc with rfl | hc
        · exact hr _ (List.mem_cons_self _ _)
        · exact hr c (.tail _ (List.takeWhile_subset _ hc))

/-- `Clean` writes only characters of its input, separators and dots. -/
theorem forall_mem_clean (hs : p '/') (hd : p '.') {path : List Char} (h : ∀ c ∈ path, p c) :
    ∀ c ∈ clean path, p c := by
  intro c hc
  unfold clean at hc
  simp only at hc
  split_ifs at hc
  all_goals first
    | (rw [List.mem_singleton.mp hc]; exact hd)
    | exact clean.loop_forall hs hd _ _ _ _ (fun c hc => h c (List.mem_of_mem_tail hc))
        (by simpa using hs) c hc
    | exact clean.loop_forall hs hd _ _ _ _ h (by simp) c hc

theorem forall_mem_join (hs : p '/') (hd : p '.') {a b : List Char} (ha : ∀ c ∈ a, p c)
    (hb : ∀ c ∈ b, p c) : ∀ c ∈ join a b, p c := by
  unfold join
  split_ifs
  · refine forall_mem_clean hs hd fun c hc => ?_
    rcases List.mem_append.mp hc with hc | hc
    · exact ha c hc
    · rcases List.mem_cons.mp hc with rfl | hc
      · exact hs
      · exact hb c hc
  · exact forall_mem_clean hs hd hb
  · simp

theorem forall_mem_split_snd {path : List Char} (h : ∀ c ∈ path, p c) : ∀ c ∈ (split path).2, p c :=
  fun c hc => h c (List.mem_reverse.mp (List.takeWhile_subset _ (List.mem_reverse.mp hc)))

theorem forall_mem_base (hs : p '/') (hd : p '.') {path : List Char} (h : ∀ c ∈ path, p c) :
    ∀ c ∈ base path, p c := by
  intro c hc
  unfold base at hc
  simp only at hc
  split_ifs at hc
  · rw [List.mem_singleton.mp hc]; exact hd
  · rw [List.mem_singleton.mp hc]; exact hs
  · refine forall_mem_split_snd (fun c hc => h c ?_) c hc
    exact List.mem_reverse.mp ((List.dropWhile_suffix _).subset (List.mem_reverse.mp hc))

theorem forall_mem_trimSuffix {s suffix : List Char} (h : ∀ c ∈ s, p c) :
    ∀ c ∈ trimSuffix s suffix, p c := by
  intro c hc
  unfold trimSuffix at hc
  split_ifs at hc
  · exact h c (List.mem_of_mem_take hc)
  · exact h c hc

end Chars

end Dagu.Go
