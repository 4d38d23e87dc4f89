import Dagu.Go.Filepath
import Dagu.Go.Md5
import Dagu.Go.Time

/-! # History file names

`JSONDB` keeps the status files of a DAG in a directory of its location named
after the DAG file's prefix and the MD5 sum of its name (`getDirectory`), as
`<prefix>.<start time>.<request id>.dat` (`newFile`). The readers find them with
glob patterns built from the same prefix (`globPattern`, the patterns of
`latestToday`), and `Compact` writes `<base>_c.dat` beside the file it compacts.

What the proofs use of a name built here is which characters it can hold: those
of the location and of the DAG file name, hex digits, `-`, `.` and `/`
(`forall_mem_prefixWithDirectory`).
-/

namespace Dagu.Jsondb

open Dagu.Go

/-- The fields of `JSONDB` the history files depend on. -/
structure JSONDB where
  location : List Char
  latestStatusToday : Bool

/-- `getDirectory` (lines 291–297): `<location>/<prefix>-<hex of the MD5 sum of
the name>`. -/
def JSONDB.getDirectory (s : JSONDB) (name pfx : List Char) : List Char :=
  join s.location (pfx ++ '-' :: hexEncodeToString (md5Sum (name.flatMap String.utf8EncodeChar)))

/-- `prefix` (lines 442–444): the DAG file's base name without its extension. -/
def prefixOf (dagFile : List Char) : List Char := trimSuffix (base dagFile) (ext dagFile)

/-- `prefixWithDirectory` (lines 358–361). -/
def JSONDB.prefixWithDirectory (s : JSONDB) (dagFile : List Char) : List Char :=
  join (s.getDirectory dagFile (prefixOf dagFile)) (prefixOf dagFile)

/-- The name `newFile` formats (lines 307–312). `requestIDSafe` is
`util.TruncString(requestID, requestIDLenSafe)`; the `util` package is not part
of the model, and its result is the argument. -/
def JSONDB.statusFile (s : JSONDB) (dagFile : List Char) (t : Time) (requestIDSafe : List Char) :
    List Char :=
  s.prefixWithDirectory dagFile ++ '.' :: t.formatStamp ++ '.' :: requestIDSafe ++ ".dat".toList

/-- `errDAGFileEmpty`. -/
def errDAGFileEmpty : String := "dagFile is empty"

/-- `newFile` (lines 301–313). -/
def JSONDB.newFile (s : JSONDB) (dagFile : List Char) (t : Time) (requestIDSafe : List Char) :
    Except String (List Char) :=
  if dagFile = [] then .error errDAGFileEmpty else .ok (s.statusFile dagFile t requestIDSafe)

/-- `globPattern` (lines 354–356), the pattern of `ReadStatusRecent`,
`FindByRequestID`, `RemoveOld` and `Rename`. -/
def JSONDB.globPattern (s : JSONDB) (dagFile : List Char) : List Char :=
  s.prefixWithDirectory dagFile ++ '*' :: ".dat".toList

/-- The pattern `latestToday` globs (lines 324–331): the files of `day`, or of
every day. -/
def JSONDB.latestTodayPattern (s : JSONDB) (dagFile : List Char) (day : Time)
    (latestStatusToday : Bool) : List Char :=
  if latestStatusToday then s.prefixWithDirectory dagFile ++ '.' :: day.formatDate ++ "*.*.dat".toList
  else s.prefixWithDirectory dagFile ++ ".*.*.dat".toList

/-- The file `Compact` writes for `original` (lines 230–232). -/
def compactFile (original : List Char) : List Char :=
  join (dir original) (trimSuffix (base original) (ext original) ++ "_c.dat".toList)

/-! ## Characters of the names -/

section Chars

variable {p : Char → Prop}

theorem forall_mem_prefixOf (hs : p '/') (hd : p '.') {dagFile : List Char} (h : ∀ c ∈ dagFile, p c) :
    ∀ c ∈ prefixOf dagFile, p c :=
  forall_mem_trimSuffix (forall_mem_base hs hd h)

/-- A prefix with its directory holds characters of the location and the DAG
file name, and separators, dots, `-` and hex digits. -/
theorem forall_mem_prefixWithDirectory (hs : p '/') (hd : p '.') (hm : p '-')
    (hx : ∀ c ∈ hextable, p c) {s : JSONDB} {dagFile : List Char} (hl : ∀ c ∈ s.location, p c)
    (h : ∀ c ∈ dagFile, p c) : ∀ c ∈ s.prefixWithDirectory dagFile, p c := by
  have hp := forall_mem_prefixOf hs hd h
  refine forall_mem_join hs hd (forall_mem_join hs hd hl fun c hc => ?_) hp
  rcases List.mem_append.mp hc with hc | hc
  · exact hp c hc
  · rcases List.mem_cons.mp hc with rfl | hc
    · exact hm
    · exact hx c (hexEncodeToString_mem hc)

end Chars

end Dagu.Jsondb
