import Dagu.Go.Match
import Dagu.Go.Filepath

/-! # The file system and the calls of `os`

The history store reads and changes the file system through `os.Open`,
`os.Remove`, `os.Rename`, `os.MkdirAll`, `os.Stat`, `os.ReadDir` and
`filepath.Glob`. A file system here is the files that exist, each once and
with its contents, and the directories. Which calls fail is a parameter
(`Faults`): a result stated for every `Faults` holds for every combination of
failures. A call that fails changes nothing, and `os.Remove` and `os.Rename`
fail on a path that does not exist.

`filepath.Glob` lists the directory of the pattern and matches the last element
of the pattern against each name in it; for a pattern whose directory part has
no metacharacters that is matching the whole path, since `*` and `?` do not
match a separator. The model lists the files of the file system in its own
order, where Go sorts the names of a directory, so results proved for every file
system hold for Go's order; directories are not listed.
-/

namespace Dagu.Go

/-- The files of a file system with their contents, each path once, and its
directories. -/
structure FS where
  files : List (List Char × List UInt8)
  dirs : List (List Char)
  nodup : (files.map Prod.fst).Nodup

namespace FS

/-- The contents of the file `p`, if it exists. -/
def lookup (fs : FS) (p : List Char) : Option (List UInt8) :=
  (fs.files.find? fun e => e.1 = p).map Prod.snd

/-- The file system without the file `p`. -/
def erase (fs : FS) (p : List Char) : FS :=
  ⟨fs.files.filter (fun e => e.1 ≠ p), fs.dirs,
    fs.nodup.sublist ((List.filter_sublist _).map _)⟩

theorem not_mem_erase (fs : FS) (p : List Char) : p ∉ (fs.erase p).files.map Prod.fst := by
  simp [erase]

/-- The file system with the file `p` holding `c`. -/
def write (fs : FS) (p : List Char) (c : List UInt8) : FS :=
  ⟨(p, c) :: (fs.erase p).files, fs.dirs, List.nodup_cons.mpr ⟨fs.not_mem_erase p, (fs.erase p).nodup⟩⟩

theorem find?_filter_ne (l : List (List Char × List UInt8)) (p q : List Char) :
    ((l.filter fun e => e.1 ≠ p).find? fun e => e.1 = q) = if q = p then none else l.find? fun e => e.1 = q := by
  rw [List.find?_filter]
  split_ifs with h
  · subst h
    exact List.find?_eq_none.mpr fun a _ => by by_cases ha : a.1 = q <;> simp [ha]
  · congr 1
    funext a
    by_cases ha : a.1 = q
    · subst ha; simp [h]
    · simp [ha]

@[simp] theorem lookup_erase (fs : FS) (p q : List Char) :
    (fs.erase p).lookup q = if q = p then none else fs.lookup q := by
  simp only [lookup, erase, find?_filter_ne]
  split_ifs <;> rfl

@[simp] theorem lookup_write (fs : FS) (p q : List Char) (c : List UInt8) :
    (fs.write p c).lookup q = if q = p then some c else fs.lookup q := by
  by_cases h : q = p
  · subst h; simp [lookup, write]
  · have := lookup_erase fs p q
    simp only [lookup, write, erase, List.find?_cons, Ne.symm h, decide_False] at this ⊢
    simpa [h] using this

@[simp] theorem erase_dirs (fs : FS) (p : List Char) : (fs.erase p).dirs = fs.dirs := rfl

@[simp] theorem write_dirs (fs : FS) (p : List Char) (c : List UInt8) : (fs.write p c).dirs = fs.dirs := rfl

theorem mem_paths {fs : FS} {p : List Char} : p ∈ fs.files.map Prod.fst ↔ (fs.lookup p).isSome := by
  rw [lookup, Option.isSome_map', List.find?_isSome]
  simp

/-- `os.Stat(p)` succeeds: a file or a directory is there. -/
def «exists» (fs : FS) (p : List Char) : Bool := (fs.lookup p).isSome || decide (p ∈ fs.dirs)

/-- The entries of the directory `d`: the files and directories in it. -/
def readDir (fs : FS) (d : List Char) : List (List Char) :=
  ((fs.files.map Prod.fst ++ fs.dirs).filter fun p => dir p = d).map base

/-- The file system without the directory `d`. -/
def removeDir (fs : FS) (d : List Char) : FS := ⟨fs.files, fs.dirs.filter (· ≠ d), fs.nodup⟩

@[simp] theorem lookup_removeDir (fs : FS) (d p : List Char) : (fs.removeDir d).lookup p = fs.lookup p := rfl

/-- The file system with the directory `d`. -/
def addDir (fs : FS) (d : List Char) : FS := ⟨fs.files, d :: fs.dirs, fs.nodup⟩

@[simp] theorem lookup_addDir (fs : FS) (d p : List Char) : (fs.addDir d).lookup p = fs.lookup p := rfl

@[simp] theorem files_addDir (fs : FS) (d : List Char) : (fs.addDir d).files = fs.files := rfl

end FS

/-- Which calls of `os` fail, and with what error. -/
structure Faults where
  remove : List Char → Option String
  rename : List Char → List Char → Option String
  mkdirAll : List Char → Option String

/-- A `*PathError`: the call, the path and the reason. -/
def pathError (op : String) (path : List Char) (reason : String) : String :=
  op ++ " " ++ String.mk path ++ ": " ++ reason

/-- `syscall.ENOENT`. -/
def enoent : String := "no such file or directory"

/-- `syscall.ENOTEMPTY`. -/
def enotempty : String := "directory not empty"

variable (fa : Faults)

/-- `os.Open(name)` and reading the file: its contents. -/
def osReadFile (fs : FS) (name : List Char) : Except String (List UInt8) :=
  match fs.lookup name with
  | some c => .ok c
  | none => .error (pathError "open" name enoent)

/-- `os.Remove(name)`: a file, or an empty directory. -/
def osRemove (fs : FS) (name : List Char) : FS × Option String :=
  match fa.remove name with
  | some e => (fs, some e)
  | none =>
      if (fs.lookup name).isSome then (fs.erase name, none)
      else if name ∈ fs.dirs then
        if fs.readDir name = [] then (fs.removeDir name, none)
        else (fs, some (pathError "remove" name enotempty))
      else (fs, some (pathError "remove" name enoent))

/-- `os.Rename(oldpath, newpath)` of a file: `newpath` is replaced. -/
def osRename (fs : FS) (oldpath newpath : List Char) : FS × Option String :=
  match fa.rename oldpath newpath with
  | some e => (fs, some e)
  | none =>
      match fs.lookup oldpath with
      | some c => ((fs.erase oldpath).write newpath c, none)
      | none => (fs, some ("rename " ++ String.mk oldpath ++ " " ++ String.mk newpath ++ ": " ++ enoent))

/-- `os.MkdirAll(path, perm)`. -/
def osMkdirAll (fs : FS) (path : List Char) : FS × Option String :=
  match fa.mkdirAll path with
  | some e => (fs, some e)
  | none => (fs.addDir path, none)

/-- A name `Match` accepts. -/
def isMatch (pattern name : List Char) : Bool :=
  match filepathMatch pattern name with
  | .ok b => b
  | .error _ => false

/-- `filepath.Glob(pattern)`: `ErrBadPattern` for a malformed pattern, otherwise
the files whose paths match. -/
def glob (fs : FS) (pattern : List Char) : Except String (List (List Char)) :=
  match filepathMatch pattern [] with
  | .error e => .error e
  | .ok _ => .ok ((fs.files.map Prod.fst).filter (isMatch pattern))

/-! ## What the calls change -/

section Frame

variable {fa} {fs : FS}

/-- `os.Remove` removes at most its file. -/
theorem lookup_osRemove (name p : List Char) :
    (osRemove fa fs name).1.lookup p = if p = name ∧ (osRemove fa fs name).2 = none then none
      else fs.lookup p := by
  unfold osRemove
  rcases fa.remove name with _ | e
  · by_cases h : (fs.lookup name).isSome
    · by_cases hp : p = name <;> simp [h, hp]
    · by_cases hd : name ∈ fs.dirs
      · by_cases he : fs.readDir name = []
        · have hn : fs.lookup name = none := by simpa using h
          by_cases hp : p = name
          · subst hp; simp [h, hd, he, hn]
          · simp [h, hd, he, hp]
        · simp [h, hd, he]
      · simp [h, hd]
  · simp

/-- `os.Rename` of `oldpath` to `newpath` moves its contents or changes nothing. -/
theorem lookup_osRename (oldpath newpath p : List Char) :
    (osRename fa fs oldpath newpath).1.lookup p =
      if (osRename fa fs oldpath newpath).2 = none then
        (if p = newpath then fs.lookup oldpath else if p = oldpath then none else fs.lookup p)
      else fs.lookup p := by
  unfold osRename
  rcases fa.rename oldpath newpath with _ | e
  · rcases ho : fs.lookup oldpath with _ | c
    · simp
    · by_cases hn : p = newpath
      · simp [hn]
      · by_cases hp : p = oldpath <;> simp [hn, hp]
  · simp

theorem osRename_error {oldpath newpath : List Char} (h : fs.lookup oldpath = none) :
    (osRename fa fs oldpath newpath).2 ≠ none := by
  unfold osRename
  rcases fa.rename oldpath newpath with _ | e <;> simp [h]

end Frame

end Dagu.Go
