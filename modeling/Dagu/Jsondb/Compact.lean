import Dagu.Jsondb.Names
import Dagu.Jsondb.ParseFile
import Dagu.Go.Clean
import Dagu.Go.Os

/-! # `Compact`

`Compact(_, original)` (lines 224–249) parses a status file, writes the status
it read to `<base>_c.dat` beside it (`compactFile`, `compactFile_append`), and
removes the original. The writer (`writer.go`) is not part of the model: its
`open` and `write` are parameters that may fail, that touch no file but their
target, and of which a failed `open` changes nothing (`Writer`). The deferred
`w.close()` has its error discarded and changes no file.

A call ends in one of four ways (`compact_cases`): `ParseFile` fails and nothing
changes; opening `<base>_c.dat` fails; writing it fails and `Compact` removes
it; or the write succeeds and `Compact` returns what `os.Remove(original)`
returns. The errors of the two `os.Remove` calls decide what is left behind:
when the last one fails, `Compact` returns its error with both the original and
`<base>_c.dat` holding the status (`compact_keeps_both`), although the branch of
a failed write removes `<base>_c.dat` so as not to leave it.
-/

namespace Dagu.Jsondb

open Dagu.Go

/-! ## The compacted name -/

theorem ext_append_dat (x : List Char) : ext (x ++ ".dat".toList) = ".dat".toList := by
  have hd : ".dat".toList = ['.', 'd', 'a', 't'] := rfl
  simp [ext, hd, split_append]

theorem trimSuffix_append (a s : List Char) : trimSuffix (a ++ s) s = a := by
  rw [trimSuffix, if_pos (List.suffix_append a s)]
  simp

/-- **`Compact` writes beside the file it compacts**: for a cleaned path with
text `u` and `.dat` added to its last element, `<base>_c.dat` is the path with
`u` and `_c.dat` added. -/
theorem compactFile_append (y : List Char) {u : List Char} (hu : '/' ∉ u) :
    compactFile (clean y ++ u ++ ".dat".toList) = clean y ++ u ++ "_c.dat".toList := by
  have hd : ".dat".toList = ['.', 'd', 'a', 't'] := rfl
  have hc : "_c.dat".toList = ['_', 'c', '.', 'd', 'a', 't'] := rfl
  have hw : '/' ∉ u ++ ".dat".toList := by simp [hd, hu]
  have hv : IsName (u ++ "_c.dat".toList) := by
    refine ⟨by simp [hc], by simp [hc, hu], fun h => ?_, fun h => ?_⟩ <;>
      simpa [hc] using congrArg List.length h
  rw [compactFile, ext_append_dat, List.append_assoc (clean y), dir_append hw, base_append hw (by simp [hd]),
    ← List.append_assoc _ u, trimSuffix_append, List.append_assoc _ u]
  exact (join_dir_base y hv).trans (List.append_assoc _ _ _).symm

/-! ## The call -/

/-- The text of `io.EOF` and `bufio.ErrBufferFull`. -/
def ReadErr.error : ReadErr → String
  | .eof => "EOF"
  | .bufferFull => "bufio: buffer full"

variable {σ : Type} (statusFromJSON : List UInt8 → Option σ)

/-- `ParseFile(file)` on a file system: opening a missing file fails. -/
def parseFileAt (fs : FS) (file : List Char) : Except String σ :=
  match osReadFile fs file with
  | .error e => .error e
  | .ok content => (parseFile statusFromJSON content).mapError ReadErr.error

/-- The writer of a status file: `w.open()` and `w.write(status)` on its target,
each of which may fail. Neither touches a file but the target, and a failed
`open` changes nothing. -/
structure Writer (σ : Type) where
  openW : FS → List Char → FS × Option String
  writeW : FS → List Char → σ → FS × Option String
  openW_failed : ∀ fs target, (openW fs target).2 ≠ none → (openW fs target).1 = fs
  openW_frame : ∀ fs target p, p ≠ target → (openW fs target).1.lookup p = fs.lookup p
  writeW_frame : ∀ fs target st p, p ≠ target → (writeW fs target st).1.lookup p = fs.lookup p

/-- `ParseFile` reads back the status the writer opened its target for and wrote. -/
def Writer.RoundTrip (w : Writer σ) : Prop :=
  ∀ fs target st, (w.openW fs target).2 = none → (w.writeW (w.openW fs target).1 target st).2 = none →
    parseFileAt statusFromJSON (w.writeW (w.openW fs target).1 target st).1 target = .ok st

variable (w : Writer σ) (fa : Faults)

/-- `Compact(_, original)` (lines 224–249): the file system after the call, and
the error it returns. -/
def compact (fs : FS) (original : List Char) : FS × Option String :=
  match parseFileAt statusFromJSON fs original with
  | .error e => (fs, some e)
  | .ok status =>
      match w.openW fs (compactFile original) with
      | (fs1, some e) => (fs1, some e)
      | (fs1, none) =>
          match w.writeW fs1 (compactFile original) status with
          | (fs2, some e) => ((osRemove fa fs2 (compactFile original)).1, some e)
          | (fs2, none) => osRemove fa fs2 original

/-- **The ways `Compact` ends.** -/
theorem compact_cases (fs : FS) (original : List Char) :
    (∃ e, parseFileAt statusFromJSON fs original = .error e ∧ compact statusFromJSON w fa fs original = (fs, some e)) ∨
    ∃ st, parseFileAt statusFromJSON fs original = .ok st ∧
      ((∃ e, (w.openW fs (compactFile original)).2 = some e ∧
          compact statusFromJSON w fa fs original = (fs, some e)) ∨
        (w.openW fs (compactFile original)).2 = none ∧
        ((∃ e, (w.writeW (w.openW fs (compactFile original)).1 (compactFile original) st).2 = some e ∧
            compact statusFromJSON w fa fs original =
              ((osRemove fa (w.writeW (w.openW fs (compactFile original)).1 (compactFile original) st).1
                (compactFile original)).1, some e)) ∨
          (w.writeW (w.openW fs (compactFile original)).1 (compactFile original) st).2 = none ∧
            compact statusFromJSON w fa fs original =
              osRemove fa (w.writeW (w.openW fs (compactFile original)).1 (compactFile original) st).1 original)) := by
  unfold compact
  split
  · rename_i e hp
    exact .inl ⟨e, hp, rfl⟩
  rename_i st hp
  refine .inr ⟨st, hp, ?_⟩
  split
  · rename_i fs1 e ho
    have h1 : fs1 = fs := by simpa [ho] using w.openW_failed fs (compactFile original) (by simp [ho])
    exact .inl ⟨e, by simp [ho], by simp [h1]⟩
  rename_i fs1 ho
  refine .inr ⟨by simp [ho], ?_⟩
  simp only [ho]
  split
  · rename_i fs2 e hw
    exact .inl ⟨e, by simp [hw], by simp [hw]⟩
  · rename_i fs2 hw
    exact .inr ⟨by simp [hw], by simp [hw]⟩

/-! ## What a call leaves -/

section Spec

variable {statusFromJSON w fa} {fs : FS} {original : List Char}

theorem parseFileAt_congr {fs' : FS} {file : List Char} (h : fs'.lookup file = fs.lookup file) :
    parseFileAt statusFromJSON fs' file = parseFileAt statusFromJSON fs file := by
  simp only [parseFileAt, osReadFile, h]

theorem lookup_writeW_openW {target p : List Char} (st : σ) (hp : p ≠ target) :
    (w.writeW (w.openW fs target).1 target st).1.lookup p = fs.lookup p := by
  rw [w.writeW_frame _ _ _ _ hp, w.openW_frame _ _ _ hp]

theorem parseFileAt_ok {file : List Char} {st : σ} (h : parseFileAt statusFromJSON fs file = .ok st) :
    (fs.lookup file).isSome := by
  unfold parseFileAt osReadFile at h
  cases hl : fs.lookup file
  · simp [hl] at h
  · rfl

/-- **`Compact` can fail with the run in two files.** Let `<base>_c.dat` differ
from the original and the writer's file read back what it wrote. When
`ParseFile`, `open` and `write` succeed but the last `os.Remove(original)` fails,
`Compact` returns that error, yet the original and `<base>_c.dat` both exist and
`ParseFile` reads the run's status from each. The branch where the write fails
removes `<base>_c.dat` before it returns; this branch does not. -/
theorem compact_keeps_both (hf : compactFile original ≠ original) (hrt : w.RoundTrip statusFromJSON) {st : σ}
    {e : String} (hp : parseFileAt statusFromJSON fs original = .ok st)
    (ho : (w.openW fs (compactFile original)).2 = none)
    (hw : (w.writeW (w.openW fs (compactFile original)).1 (compactFile original) st).2 = none)
    (hrm : fa.remove original = some e) :
    (compact statusFromJSON w fa fs original).2 = some e ∧
      parseFileAt statusFromJSON (compact statusFromJSON w fa fs original).1 original = .ok st ∧
      parseFileAt statusFromJSON (compact statusFromJSON w fa fs original).1 (compactFile original) = .ok st := by
  have hc : compact statusFromJSON w fa fs original =
      ((w.writeW (w.openW fs (compactFile original)).1 (compactFile original) st).1, some e) := by
    rcases compact_cases statusFromJSON w fa fs original with ⟨e', he, -⟩ | ⟨st', hp', hcase⟩
    · rw [hp] at he; cases he
    rw [hp] at hp'
    cases hp'
    rcases hcase with ⟨e', he, -⟩ | ⟨-, ⟨e', he, -⟩ | ⟨-, hc⟩⟩
    · rw [ho] at he; cases he
    · rw [hw] at he; cases he
    · rw [hc, osRemove, hrm]
  rw [hc]
  refine ⟨rfl, ?_, hrt fs (compactFile original) st ho hw⟩
  rw [← hp]
  exact parseFileAt_congr (lookup_writeW_openW _ (Ne.symm hf))

end Spec

/-! ## When `os.Remove(original)` fails -/

/-- A writer that writes the status line `A` and a newline to its target. -/
def lineWriter : Writer Unit where
  openW fs _ := (fs, none)
  writeW fs target _ := (fs.write target [65, 10], none)
  openW_failed _ _ h := absurd rfl h
  openW_frame _ _ _ _ := rfl
  writeW_frame _ _ _ _ hp := by simp [hp]

/-- A decoder that reads a status from every line. -/
def anyLine : List UInt8 → Option Unit := fun _ => some ()

theorem parseFile_line : parseFile anyLine [65, 10] = .ok () := by
  have h := parseFile_eq anyLine (Or.inr (rfl : ([65, 10] : List UInt8).getLast? = some 10)) (List.not_mem_nil 10)
  rw [List.append_nil] at h
  rw [h]
  rfl

theorem lineWriter_roundTrip : lineWriter.RoundTrip anyLine := by
  intro fs target st _ _
  simp [lineWriter, parseFileAt, osReadFile, parseFile_line, Except.mapError]

/-- A history of one status file, `/h/a.dat`, holding one line. -/
def statusHistory : FS := ⟨[("/h/a.dat".toList, [65, 10])], [], by decide⟩

/-- Every call succeeds but `os.Remove` of `/h/a.dat`. -/
def removeOriginalFails : Faults :=
  ⟨fun p => if p = "/h/a.dat".toList then some (pathError "remove" p "permission denied") else none,
    fun _ _ => none, fun _ => none⟩

/-- `Compact` of `/h/a.dat` when removing it fails. -/
def compactRun : FS × Option String :=
  compact anyLine lineWriter removeOriginalFails statusHistory "/h/a.dat".toList

theorem compactFile_a : compactFile "/h/a.dat".toList = "/h/a_c.dat".toList := by
  have hc : clean "/h/a".toList = "/h/a".toList := by rw [clean_eq_cleanSpec]; decide
  have := compactFile_append "/h/a".toList (List.not_mem_nil '/')
  rw [hc] at this
  exact this

theorem parseFileAt_statusHistory : parseFileAt anyLine statusHistory "/h/a.dat".toList = .ok () := by
  rw [parseFileAt, osReadFile, show statusHistory.lookup "/h/a.dat".toList = some [65, 10] by decide]
  simp [parseFile_line, Except.mapError]

theorem compact_remove_fails :
    compactFile "/h/a.dat".toList ≠ "/h/a.dat".toList ∧
      parseFileAt anyLine statusHistory "/h/a.dat".toList = .ok () ∧
      removeOriginalFails.remove "/h/a.dat".toList = some (pathError "remove" "/h/a.dat".toList "permission denied") ∧
      compactRun.2 = some (pathError "remove" "/h/a.dat".toList "permission denied") ∧
      parseFileAt anyLine compactRun.1 "/h/a.dat".toList = .ok () ∧
      parseFileAt anyLine compactRun.1 (compactFile "/h/a.dat".toList) = .ok () := by
  have hf : compactFile "/h/a.dat".toList ≠ "/h/a.dat".toList := by rw [compactFile_a]; decide
  have hrm : removeOriginalFails.remove "/h/a.dat".toList =
      some (pathError "remove" "/h/a.dat".toList "permission denied") := by
    simp only [removeOriginalFails, if_true]
  exact ⟨hf, parseFileAt_statusHistory, hrm,
    compact_keeps_both hf lineWriter_roundTrip parseFileAt_statusHistory rfl rfl hrm⟩

end Dagu.Jsondb
