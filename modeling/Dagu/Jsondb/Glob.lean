import Dagu.Jsondb.Compact

/-! # What the history readers glob

The readers find status files with `filepath.Glob` on patterns built from the
prefix the writer names them with: `globPattern` for `ReadStatusRecent`,
`FindByRequestID`, `RemoveOld` and `Rename`, and the two patterns of
`latestToday`. Neither the location nor the DAG file name is escaped before it
becomes part of a pattern.

Without `[` and `\` in them the prefix is a plain pattern that matches itself,
and each pattern matches every name `newFile` writes and the name `Compact`
derives from it (`readers_match_newFile`). A DAG file named `[.yaml` makes the
prefix open a class with `-`, and every glob of its history fails with
`ErrBadPattern` (`globPattern_bracket`).
-/

namespace Dagu.Jsondb

open Dagu.Go

/-! ## The prefix -/

theorem join_ne_nil (a : List Char) {b : List Char} (hb : b ≠ []) : join a b ≠ [] := by
  unfold join
  split_ifs
  · exact clean_ne_nil _
  · exact clean_ne_nil _

/-- The prefix is a cleaned path. -/
theorem JSONDB.prefixWithDirectory_eq_clean (s : JSONDB) (dagFile : List Char) :
    s.prefixWithDirectory dagFile =
      clean (s.getDirectory dagFile (prefixOf dagFile) ++ '/' :: prefixOf dagFile) := by
  have h : s.getDirectory dagFile (prefixOf dagFile) ≠ [] := join_ne_nil _ (by simp)
  rw [JSONDB.prefixWithDirectory, join, if_pos h]

theorem sep_not_mem_hash (name : List Char) :
    '/' ∉ hexEncodeToString (md5Sum (name.flatMap String.utf8EncodeChar)) :=
  fun h => absurd (hexEncodeToString_mem h) (by decide)

/-- The name of a history directory, `<prefix>-<hash>`, is a name. -/
theorem isName_hashDir {pfx hex : List Char} (hp : '/' ∉ pfx) (hh : '/' ∉ hex) : IsName (pfx ++ '-' :: hex) := by
  have hm : '-' ∈ pfx ++ '-' :: hex := by simp
  refine ⟨by simp, by simp [hp, hh], fun h => ?_, fun h => ?_⟩ <;> rw [h] at hm <;> simp at hm

/-- Under the location `/h`, the history of a DAG is in `/h/<prefix>-<hash>`. -/
theorem getDirectory_h (b : Bool) {name pfx : List Char} (hp : '/' ∉ pfx) :
    (⟨"/h".toList, b⟩ : JSONDB).getDirectory name pfx =
      (⟨[pfx ++ '-' :: hexEncodeToString (md5Sum (name.flatMap String.utf8EncodeChar)), ['h']], 0⟩ : Kept).render
        true := by
  have k0 : (⟨[['h']], 0⟩ : Kept).Valid true := ⟨by simp [IsName], fun _ => rfl⟩
  rw [JSONDB.getDirectory, show "/h".toList = (⟨[['h']], 0⟩ : Kept).render true from rfl]
  exact k0.join_render (by decide) (isName_hashDir hp (sep_not_mem_hash name))

/-- Under the location `/h`, the files of a DAG whose prefix is a name start
with `/h/<prefix>-<hash>/<prefix>`. -/
theorem prefixWithDirectory_h (b : Bool) {name : List Char} (hn : IsName (prefixOf name)) :
    (⟨"/h".toList, b⟩ : JSONDB).prefixWithDirectory name =
      ['/', 'h', '/'] ++ (prefixOf name ++ '-' :: hexEncodeToString (md5Sum (name.flatMap String.utf8EncodeChar))) ++
        '/' :: prefixOf name := by
  have hX := isName_hashDir hn.2.1 (sep_not_mem_hash name)
  have k1 : (⟨[prefixOf name ++ '-' :: hexEncodeToString (md5Sum (name.flatMap String.utf8EncodeChar)), ['h']], 0⟩ :
      Kept).Valid true := ⟨List.forall_mem_cons.mpr ⟨hX, by simp [IsName]⟩, fun _ => rfl⟩
  rw [JSONDB.prefixWithDirectory, getDirectory_h b hn.2.1, k1.join_render (by simp [Kept.render]) hn]
  simp [Kept.render, Kept.stack, joinRev]

/-! ## Matching -/

/-- `*.dat` matches what ends with `.dat` after a run without a separator. -/
theorem tailOK_dat {v : List Char} (hv : '/' ∉ v) : TailOK ".dat".toList (v ++ ".dat".toList) :=
  tailOK_last (by decide) (by decide) hv

/-- **The readers' patterns match the writer's names**: with a plain prefix
`P`, each of `P*.dat`, `P.<date>*.*.dat` and `P.*.*.dat` matches
`P.<date>.<v>.dat` when neither the date nor `v` holds a separator. -/
theorem patterns_match {P date v : List Char} (hP : ∀ c ∈ P, c ≠ '[' ∧ c ≠ '\\')
    (hdate : ∀ c ∈ date, c ≠ '/' ∧ c ≠ '[' ∧ c ≠ '\\') (hv : '/' ∉ v) :
    filepathMatch (P ++ '*' :: ".dat".toList) (P ++ '.' :: date ++ '.' :: v ++ ".dat".toList) = .ok true ∧
      filepathMatch (P ++ '.' :: date ++ "*.*.dat".toList) (P ++ '.' :: date ++ '.' :: v ++ ".dat".toList) =
        .ok true ∧
      filepathMatch (P ++ ".*.*.dat".toList) (P ++ '.' :: date ++ '.' :: v ++ ".dat".toList) = .ok true := by
  have hd : '/' ∉ date := fun h => (hdate _ h).1 rfl
  have hσ : TailOK (['.'] ++ '*' :: ".dat".toList) (['.'] ++ (v ++ ".dat".toList)) :=
    tailOK_cons (tailOK_dat hv) ['.'] (by decide)
  have h1 : "*.*.dat".toList = '*' :: (['.'] ++ '*' :: ".dat".toList) := rfl
  have h2 : ".*.*.dat".toList = ['.'] ++ '*' :: (['.'] ++ '*' :: ".dat".toList) := rfl
  refine ⟨?_, ?_, ?_⟩
  · have ht : TailOK ".dat".toList (('.' :: date ++ '.' :: v) ++ ".dat".toList) :=
      tailOK_dat (by simp [hd, hv])
    simpa only [List.cons_append, List.append_assoc] using match_of_tailOK ht hP
  · have hQ : ∀ c ∈ P ++ '.' :: date, c ≠ '[' ∧ c ≠ '\\' := by
      simp only [List.mem_append, List.mem_cons]
      rintro c (hc | rfl | hc)
      exacts [hP c hc, by decide, (hdate c hc).2]
    have h := match_of_tailOK hσ hQ
    rw [h1]
    simpa only [List.cons_append, List.append_assoc, List.singleton_append] using h
  · have hQ : ∀ c ∈ P ++ ['.'], c ≠ '[' ∧ c ≠ '\\' := by
      simp only [List.mem_append, List.mem_singleton]
      rintro c (hc | rfl)
      exacts [hP c hc, by decide]
    have h := match_of_tailOK (tailOK_slack hσ hd) hQ
    rw [h2]
    simpa only [List.cons_append, List.append_assoc, List.singleton_append] using h

/-- Without `[` and `\` in the location and the DAG file name, the prefix is a
plain pattern. -/
theorem JSONDB.plain_prefixWithDirectory {s : JSONDB} {dagFile : List Char}
    (hl : ∀ c ∈ s.location, c ≠ '[' ∧ c ≠ '\\') (hd : ∀ c ∈ dagFile, c ≠ '[' ∧ c ≠ '\\') :
    ∀ c ∈ s.prefixWithDirectory dagFile, c ≠ '[' ∧ c ≠ '\\' :=
  forall_mem_prefixWithDirectory (by decide) (by decide) (by decide) (by decide) hl hd

/-- **The history readers find every file the writer names**: when neither the
location nor the DAG file name holds `[` or `\`, and the request id holds no
separator, `globPattern` and the pattern of `latestToday`, for the day of the
run or for every day, match the name `newFile` returns and the name `Compact`
derives from it. -/
theorem readers_match_newFile {s : JSONDB} {dagFile requestIDSafe name : List Char} {t : Time}
    (hl : ∀ c ∈ s.location, c ≠ '[' ∧ c ≠ '\\') (hd : ∀ c ∈ dagFile, c ≠ '[' ∧ c ≠ '\\')
    (hr : '/' ∉ requestIDSafe) (hn : s.newFile dagFile t requestIDSafe = .ok name)
    (latestStatusToday : Bool) :
    ∀ f ∈ [name, compactFile name],
      filepathMatch (s.globPattern dagFile) f = .ok true ∧
        filepathMatch (s.latestTodayPattern dagFile t latestStatusToday) f = .ok true := by
  have hname : name = s.statusFile dagFile t requestIDSafe := by
    unfold JSONDB.newFile at hn
    split_ifs at hn
    exact (Except.ok.inj hn).symm
  have hdate : ∀ c ∈ t.formatDate, c ≠ '/' ∧ c ≠ '[' ∧ c ≠ '\\' :=
    Time.forall_mem_formatDate (by decide) (by decide) t
  have hclock : ∀ c ∈ t.formatClock, c ≠ '/' :=
    Time.forall_mem_formatClock (by decide) (by decide) (by decide) (by decide) t
  have hclock : '/' ∉ t.formatClock := fun h => hclock _ h rfl
  -- both names are the prefix, the date and some `v` without a separator, and `.dat`
  have key : ∀ v, '/' ∉ v →
      filepathMatch (s.globPattern dagFile)
          (s.prefixWithDirectory dagFile ++ '.' :: t.formatDate ++ '.' :: v ++ ".dat".toList) = .ok true ∧
        filepathMatch (s.latestTodayPattern dagFile t latestStatusToday)
          (s.prefixWithDirectory dagFile ++ '.' :: t.formatDate ++ '.' :: v ++ ".dat".toList) = .ok true := by
    intro v hv
    obtain ⟨g, today, all⟩ := patterns_match (JSONDB.plain_prefixWithDirectory hl hd) hdate hv
    refine ⟨g, ?_⟩
    cases latestStatusToday
    · exact all
    · exact today
  have hs : s.statusFile dagFile t requestIDSafe =
      clean (s.getDirectory dagFile (prefixOf dagFile) ++ '/' :: prefixOf dagFile) ++
        ('.' :: t.formatStamp ++ '.' :: requestIDSafe) ++ ".dat".toList := by
    rw [JSONDB.statusFile, JSONDB.prefixWithDirectory_eq_clean]
    simp only [List.append_assoc, List.cons_append]
  have hdt : '/' ∉ t.formatDate := fun h => (hdate _ h).1 rfl
  have hu : '/' ∉ '.' :: t.formatStamp ++ '.' :: requestIDSafe := by
    simp [Time.formatStamp_eq_date, hclock, hr, hdt]
  have hc : "_c.dat".toList = ['_', 'c'] ++ ".dat".toList := rfl
  intro f hf
  simp only [List.mem_cons, List.not_mem_nil, or_false] at hf
  rcases hf with rfl | rfl
  · have := key (t.formatClock ++ '.' :: requestIDSafe) (by simp [hclock, hr])
    simpa [hname, JSONDB.statusFile, Time.formatStamp_eq_date] using this
  · have := key (t.formatClock ++ '.' :: requestIDSafe ++ ['_', 'c']) (by simp [hclock, hr])
    rw [hname, hs, compactFile_append _ hu, hc, ← JSONDB.prefixWithDirectory_eq_clean]
    simpa [Time.formatStamp_eq_date] using this

/-- 2 January 2024, 03:04:05, the start of a run. -/
def startedAt : Time :=
  ⟨2024, 1, 2, 3, 4, 5, 0, by decide, by decide, by decide, by decide, by decide, by decide, by decide,
    by decide⟩

theorem readers_match_sample :
    filepathMatch ((⟨"/h".toList, false⟩ : JSONDB).globPattern "a.yaml".toList)
        ((⟨"/h".toList, false⟩ : JSONDB).statusFile "a.yaml".toList startedAt "r".toList) = .ok true ∧
      filepathMatch ((⟨"/h".toList, false⟩ : JSONDB).latestTodayPattern "a.yaml".toList startedAt true)
        ((⟨"/h".toList, false⟩ : JSONDB).statusFile "a.yaml".toList startedAt "r".toList) = .ok true :=
  readers_match_newFile (by decide) (by decide) (by decide) (if_neg (by decide)) true _ (List.mem_cons_self _ _)

/-! ## A DAG file named `[.yaml` -/

theorem prefixOf_bracket : prefixOf "[.yaml".toList = ['['] := by decide

/-- **A DAG file named `[.yaml`**: its prefix `[` is followed by `-` in the name
of its directory, so the pattern opens a class with `-` and `Glob` fails with
`ErrBadPattern` on the history of the DAG. -/
theorem globPattern_bracket :
    ∃ name, (⟨"/h".toList, false⟩ : JSONDB).newFile "[.yaml".toList startedAt "r".toList = .ok name ∧
      filepathMatch ((⟨"/h".toList, false⟩ : JSONDB).globPattern "[.yaml".toList) name =
        .error errBadPattern := by
  refine ⟨_, if_neg (by decide), ?_⟩
  have hP := prefixWithDirectory_h false (show IsName (prefixOf "[.yaml".toList) by
    rw [prefixOf_bracket]; simp [IsName])
  rw [JSONDB.globPattern, hP, prefixOf_bracket]
  simp only [List.append_assoc, List.singleton_append, List.cons_append]
  exact filepathMatch_bracket_dash (by decide : ∀ c ∈ ['/', 'h', '/'], PlainChar c) _ _

end Dagu.Jsondb
