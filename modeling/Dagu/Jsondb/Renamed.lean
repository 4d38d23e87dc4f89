import Dagu.Jsondb.Readers

/-! # The history after `Rename`

A file of a history is the history's directory, a separator, and a name that
starts with the prefix and ends in `.dat` (`historyFile_eq_dir`). Two DAGs whose
history directories differ share no file (`historyDir_eq_of_historyFile`), and
no file of a history is the directory of another: a history directory ends in
its hash or in `-`, a file in `t` (`historyFile_ne_historyDir`). So the
destinations of `Rename` are fresh. When no `os.MkdirAll` and no `os.Rename`
fails, every file of the old history is moved into the new one with its
contents, and a request `FindByRequestID` found under the old name before, it
finds under the new name after (`rename_find`).
-/

namespace Dagu.Jsondb

open Dagu.Go

/-! ## Where the files of a history are -/

theorem split_fst_append_sep {x w : List Char} (hw : '/' ∉ w) : (split (x ++ '/' :: w)).1 = x ++ ['/'] := by
  rw [show x ++ '/' :: w = x ++ ['/'] ++ w by simp, split_append hw]
  simpa [split_snd_sep] using split_eq (x ++ ['/'])

/-- A path splits at its last separator in one way. -/
theorem append_sep_inj {a b u v : List Char} (hu : '/' ∉ u) (hv : '/' ∉ v) (h : a ++ '/' :: u = b ++ '/' :: v) :
    a = b := by
  have := congrArg (fun p => (split p).1) h
  simp only [split_fst_append_sep hu, split_fst_append_sep hv] at this
  exact List.append_cancel_right this

theorem Kept.render_cons (rooted : Bool) (e : List Char) (ns : List (List Char)) (u : Nat) :
    ∃ r, (⟨e :: ns, u⟩ : Kept).render rooted = r ++ e := by
  simp only [Kept.render, Kept.stack, List.cons_append, joinRev]
  exact ⟨_, (List.append_assoc _ _ _).symm⟩

section Place

variable {s : JSONDB} (hloc : s.location ≠ [])
include hloc

theorem JSONDB.prefixWithDirectory_eq_historyDir {name : List Char} (hn : IsName (prefixOf name)) :
    s.prefixWithDirectory name = s.historyDir name ++ '/' :: prefixOf name := by
  rw [JSONDB.prefixWithDirectory_render hloc hn, Kept.render_cons_cons, ← JSONDB.historyDir_render hloc hn]

/-- A file of a history is in the history's directory. -/
theorem JSONDB.historyFile_eq_dir {name p : List Char} (hn : IsName (prefixOf name)) (h : s.HistoryFile name p) :
    ∃ w, '/' ∉ w ∧ p = s.historyDir name ++ '/' :: w := by
  obtain ⟨x, hx, rfl⟩ := h
  refine ⟨prefixOf name ++ x ++ ".dat".toList, by simp [hn.2.1, hx], ?_⟩
  rw [JSONDB.prefixWithDirectory_eq_historyDir hloc hn]
  simp

/-- Two histories that share a file share their directory. -/
theorem JSONDB.historyDir_eq_of_historyFile {name name' p : List Char} (hn : IsName (prefixOf name))
    (hn' : IsName (prefixOf name')) (h : s.HistoryFile name p) (h' : s.HistoryFile name' p) :
    s.historyDir name = s.historyDir name' := by
  obtain ⟨w, hw, rfl⟩ := JSONDB.historyFile_eq_dir hloc hn h
  obtain ⟨w', hw', he⟩ := JSONDB.historyFile_eq_dir hloc hn' h'
  exact append_sep_inj hw hw' he

/-- No file of a history is a history directory: the one ends in `t`, the other
in a hex digit or `-`. -/
theorem JSONDB.historyFile_ne_historyDir {name name' p : List Char} (hn : IsName (prefixOf name))
    (h : s.HistoryFile name' p) : p ≠ s.historyDir name := by
  obtain ⟨x, -, rfl⟩ := h
  obtain ⟨r, hr⟩ := Kept.render_cons s.rooted (hashDir name) s.locationKept.names s.locationKept.ups
  rw [JSONDB.historyDir_render hloc hn, hr, hashDir]
  intro he
  -- the last character of both sides
  have hlast := congrArg List.getLast? he
  rw [show s.prefixWithDirectory name' ++ x ++ ".dat".toList = (s.prefixWithDirectory name' ++ x ++ ".da".toList) ++ ['t']
    by simp, List.getLast?_concat, ← List.append_assoc, List.getLast?_append_of_ne_nil _ (List.cons_ne_nil _ _)] at hlast
  have ht : 't' ∈ '-' :: hexEncodeToString (md5Sum (name.flatMap String.utf8EncodeChar)) :=
    List.mem_of_getLast?_eq_some hlast.symm
  rcases List.mem_cons.mp ht with ht | ht
  · exact absurd ht (by decide)
  · exact absurd (hexEncodeToString_mem ht) (by decide)

end Place

/-! ## `Rename` with no failure -/

section Rename

variable {σ : Type} {statusFromJSON : List UInt8 → Option σ} {requestIDOf : σ → List Char}
  {sortSlice : (List Char → List Char → Bool) → List (List Char) → List (List Char)} {errs : Errors}
  {fa : Faults} {addYamlExtension : List Char → List Char} {s : JSONDB} {fs : FS} {oldID newID : List Char}

/-- When `os.MkdirAll` does not fail, `Rename` of a history whose directory
exists runs its loop over the files of the old history, on a file system with
the same files, and then at most removes the old directory. -/
theorem JSONDB.rename_loop (newID : List Char) (hl : ∀ c ∈ s.location, Literal c) (ho : ∀ c ∈ addYamlExtension oldID, Literal c)
    (hex : fs.exists (s.historyDir (addYamlExtension oldID)) = true) (hmk : ∀ p, fa.mkdirAll p = none) :
    ∃ fs1 : FS, fs1.files = fs.files ∧ ∀ p, p ≠ s.historyDir (addYamlExtension oldID) →
      (s.rename fa addYamlExtension fs oldID newID).1.lookup p =
        (renameAll fa (s.renameTarget (addYamlExtension oldID) (addYamlExtension newID)) fs1
          ((fs1.files.map Prod.fst).filter (denotes (s.globPattern (addYamlExtension oldID))))).lookup p := by
  unfold JSONDB.rename
  dsimp only
  rw [if_neg (by simp [hex])]
  obtain ⟨fs1, hm, hfiles⟩ : ∃ fs1, (if fs.exists (s.historyDir (addYamlExtension newID)) then (fs, none)
      else osMkdirAll fa fs (s.historyDir (addYamlExtension newID))) = (fs1, none) ∧ fs1.files = fs.files := by
    split_ifs
    · exact ⟨fs, rfl, rfl⟩
    · exact ⟨fs.addDir (s.historyDir (addYamlExtension newID)), by simp [osMkdirAll, hmk], rfl⟩
  rw [hm]
  dsimp only
  rw [JSONDB.glob_globPattern fs1 hl ho]
  refine ⟨fs1, hfiles, fun p hp => ?_⟩
  dsimp only
  split_ifs
  · rw [lookup_osRemove, if_neg fun h => hp h.1]
  · rfl

/-- **`Rename` keeps the runs of a DAG findable under its new name.** Take a
plain store, DAG names without metacharacters whose prefixes are names,
distinct history directories, and an old history directory that exists. When
no `os.MkdirAll` and no `os.Rename` fails, and `FindByRequestID` found a status
of a request under the old name before `Rename`, it finds one under the new
name after. -/
theorem JSONDB.rename_find (hperm : Permutes sortSlice) (s : PlainDB) (ho : ∀ c ∈ addYamlExtension oldID, Literal c)
    (hn : ∀ c ∈ addYamlExtension newID, Literal c)
    (hpo : IsName (prefixOf (addYamlExtension oldID))) (hpn : IsName (prefixOf (addYamlExtension newID)))
    (hdir : s.historyDir (addYamlExtension oldID) ≠ s.historyDir (addYamlExtension newID))
    (hex : fs.exists (s.historyDir (addYamlExtension oldID)) = true)
    (hrn : ∀ o n, fa.rename o n = none) (hmk : ∀ p, fa.mkdirAll p = none) {requestID : List Char}
    (hr : requestID ≠ [])
    (hf : ∃ r, s.findByRequestID statusFromJSON requestIDOf sortSlice errs fs (addYamlExtension oldID) requestID =
      .ok r) :
    ∃ r, s.findByRequestID statusFromJSON requestIDOf sortSlice errs (s.rename fa addYamlExtension fs oldID newID).1
      (addYamlExtension newID) requestID = .ok r := by
  have hloc := s.location_ne_nil
  have hl := s.location_literal
  obtain ⟨⟨f, status⟩, hf⟩ := hf
  obtain ⟨hsome, ⟨x, hx, rfl⟩, hp, hid⟩ := JSONDB.findByRequestID_sound hperm hl ho hf
  obtain ⟨fs1, hfiles, hrun⟩ := JSONDB.rename_loop newID hl ho hex hmk
  set ms := (fs1.files.map Prod.fst).filter (denotes (s.globPattern (addYamlExtension oldID)))
  set tgt := s.renameTarget (addYamlExtension oldID) (addYamlExtension newID)
  set src := s.prefixWithDirectory (addYamlExtension oldID) ++ x ++ ".dat".toList
  have hmem : ∀ m, m ∈ ms ↔ (fs.lookup m).isSome ∧ s.HistoryFile (addYamlExtension oldID) m := fun m => by
    rw [JSONDB.mem_glob_globPattern fs1 hl ho, FS.lookup_of_files hfiles]
  have htarget : ∀ y, '/' ∉ y → s.HistoryFile (addYamlExtension newID)
      (tgt (s.prefixWithDirectory (addYamlExtension oldID) ++ y ++ ".dat".toList)) :=
    fun y hy => ⟨y, hy, JSONDB.renameTarget_append hloc hpo hpn hy⟩
  -- the destinations are new files of the new history, one for each file
  have hfresh : FreshTargets tgt ms := by
    intro a ha b hb
    obtain ⟨-, y, hy, rfl⟩ := (hmem a).mp ha
    obtain ⟨-, hb⟩ := (hmem b).mp hb
    refine ⟨fun he => hdir (JSONDB.historyDir_eq_of_historyFile hloc hpo hpn hb (he ▸ htarget y hy)), fun he => ?_⟩
    obtain ⟨z, hz, rfl⟩ := hb
    dsimp only [tgt] at he
    rw [JSONDB.renameTarget_append hloc hpo hpn hy, JSONDB.renameTarget_append hloc hpo hpn hz] at he
    rw [List.append_cancel_left (List.append_cancel_right he)]
  have hmo : MovedOrKept fa fs1 (renameAll fa tgt fs1 ms) src (tgt src) :=
    renameAll_moves (fs1.nodup.filter _) hfresh _ ((hmem _).mpr ⟨hsome, x, hx, rfl⟩)
  have hlk : (s.rename fa addYamlExtension fs oldID newID).1.lookup (tgt src) = fs.lookup src := by
    rw [hrun _ (JSONDB.historyFile_ne_historyDir hloc hpo (htarget x hx)), ← FS.lookup_of_files hfiles]
    rcases hmo with ⟨-, hmoved, -⟩ | ⟨-, hfail | hnone⟩
    · exact hmoved
    · exact absurd (hrn _ _) hfail
    · rw [← FS.lookup_of_files hfiles, hnone] at hsome
      cases hsome
  -- the moved file holds the contents, so it parses to the status
  obtain ⟨c, hc⟩ := Option.isSome_iff_exists.mp hsome
  have hparse : parseFileAt statusFromJSON (s.rename fa addYamlExtension fs oldID newID).1 (tgt src) = .ok status := by
    rw [← hp]
    unfold parseFileAt osReadFile
    rw [hlk, hc]
  exact JSONDB.findByRequestID_complete hperm hl hn hr ⟨by rw [hlk]; exact hsome, htarget x hx, hparse, hid⟩

end Rename

/-! ## A history of `a.yaml` with one status line -/

/-- The history of `a.yaml`: one status line in `fileA`, in the directory of
`a.yaml`. -/
def historyR : FS := ⟨[(fileA, [65, 10])], [storeH.historyDir "a.yaml".toList], by simp⟩

theorem requestFile_historyR :
    storeH.RequestFile anyLine (fun _ => "r".toList) historyR "a.yaml".toList "r".toList fileA () := by
  have hlk : historyR.lookup fileA = some [65, 10] := by simp [historyR, FS.lookup]
  refine ⟨by rw [hlk]; rfl, ⟨".1".toList, by decide, by rw [fileA, List.append_assoc]; rfl⟩, ?_, rfl⟩
  rw [parseFileAt, osReadFile, hlk]
  simp [parseFile_line, Except.mapError]

theorem historyDir_a_ne_b : storeH.historyDir "a.yaml".toList ≠ storeH.historyDir "b.yaml".toList := by
  rw [historyDir_a, storeH, JSONDB.historyDir, show prefixOf "b.yaml".toList = ['b'] by decide,
    getDirectory_h false (by simp)]
  simp [Kept.render, Kept.stack, joinRev]

theorem rename_find_historyR :
    plainH.historyDir "a.yaml".toList ≠ plainH.historyDir "b.yaml".toList ∧
      historyR.exists (plainH.historyDir "a.yaml".toList) = true ∧
      (∃ r, plainH.findByRequestID anyLine (fun _ => "r".toList) insertionSort ⟨"", "", ""⟩ historyR
        "a.yaml".toList "r".toList = .ok r) ∧
      ∃ r, plainH.findByRequestID anyLine (fun _ => "r".toList) insertionSort ⟨"", "", ""⟩
        (plainH.rename noFaults id historyR "a.yaml".toList "b.yaml".toList).1 "b.yaml".toList "r".toList = .ok r := by
  have hpa : IsName (prefixOf (id "a.yaml".toList)) := by
    rw [id, show prefixOf "a.yaml".toList = ['a'] by decide]; simp [IsName]
  have hpb : IsName (prefixOf (id "b.yaml".toList)) := by
    rw [id, show prefixOf "b.yaml".toList = ['b'] by decide]; simp [IsName]
  have hex : historyR.exists (plainH.historyDir "a.yaml".toList) = true := by simp [FS.exists, historyR, plainH]
  have hf : ∃ r, plainH.findByRequestID anyLine (fun _ => "r".toList) insertionSort ⟨"", "", ""⟩ historyR
      "a.yaml".toList "r".toList = .ok r :=
    JSONDB.findByRequestID_complete insertionSort_permutes (by decide) (by decide) (by decide) requestFile_historyR
  have hfind : ∃ r, plainH.findByRequestID anyLine (fun _ => "r".toList) insertionSort ⟨"", "", ""⟩
      (plainH.rename noFaults id historyR "a.yaml".toList "b.yaml".toList).1 (id "b.yaml".toList) "r".toList = .ok r :=
    JSONDB.rename_find insertionSort_permutes plainH (by decide) (by decide) hpa hpb
      historyDir_a_ne_b hex (fun _ _ => rfl) (fun _ => rfl) (by decide) hf
  exact ⟨historyDir_a_ne_b, hex, hf, hfind⟩

end Dagu.Jsondb
