import Dagu.Jsondb.History
import Dagu.Jsondb.Latest

/-! # Reading the history

`FindByRequestID` (lines 172–198) globs the history of a DAG and sorts the
names with `strings.Compare(a, b) >= 0`. It then returns the first file that
parses to a status of the request. That comparison is not a strict order, so
`sort.Slice` promises no order for it. What it does do is permute the names
(`Permutes`), and the results here hold for every permutation. `latest`
(lines 343–350) keeps the `n` latest files by the timestamp in their names, and
`ReadStatusRecent` (lines 136–157) parses them. `latestToday` (lines 315–341)
and `ReadStatusToday` (lines 160–169) read the latest file of the day.

The status cache (`filecache`) is not part of the model: `LoadLatest` returns
what its loader, `ParseFile`, returns. Nor are the `persistence` package, whose
errors are parameters (`Errors`), and `model.Status`, whose request id is read
by `requestIDOf`.

`FindByRequestID` succeeds exactly when the history holds a file that parses to
a status of the request, and what it returns is such a file
(`findByRequestID_spec`). `latestToday` returns a latest file of the day. It
fails only when `Glob` finds nothing, and then with `ErrNoStatusDataToday`: its
second error, `ErrNoStatusData`, is never returned (`latestToday_spec`).
`ReadStatusRecent` returns, latest first, those of the `n` latest files of the
history that parse, with their statuses: a file that does not parse takes one
of the `n` slots without giving an entry (`readStatusRecent_spec`).
-/

namespace Dagu.Jsondb

open Dagu.Go

/-- The errors of the `persistence` package that the store returns. The
package is not part of the model, so their texts are parameters. -/
structure Errors where
  requestIDNotFound : String
  noStatusDataToday : String
  noStatusData : String

/-- `errRequestIDNotFound`. -/
def errRequestIDNotFound : String := "request ID not found"

variable {σ : Type} (statusFromJSON : List UInt8 → Option σ) (requestIDOf : σ → List Char)
  (sortSlice : (List Char → List Char → Bool) → List (List Char) → List (List Char)) (errs : Errors)

/-- The body of the loop of `FindByRequestID`: the file with its status, when
the file parses to a status of the request. -/
def statusOfRequest (fs : FS) (requestID f : List Char) : Option (List Char × σ) :=
  match parseFileAt statusFromJSON fs f with
  | .ok status => if requestIDOf status = requestID then some (f, status) else none
  | .error _ => none

/-- `FindByRequestID(dagFile, requestID)` (lines 172–198): the file and the
status found, or the error. `Glob` returns no match when it fails, and the loop
is then skipped. -/
def JSONDB.findByRequestID (s : JSONDB) (fs : FS) (dagFile requestID : List Char) :
    Except String (List Char × σ) :=
  if requestID = [] then .error errRequestIDNotFound
  else
    match glob fs (s.globPattern dagFile) with
    | .error _ => .error (errs.requestIDNotFound ++ " : " ++ String.mk requestID)
    | .ok found =>
        match (sortSlice (fun a b => !strLess a b) found).findSome?
            (statusOfRequest statusFromJSON requestIDOf fs requestID) with
        | some r => .ok r
        | none => .error (errs.requestIDNotFound ++ " : " ++ String.mk requestID)

/-- `latestToday(dagFile, day, latestStatusToday)` (lines 315–341). -/
def JSONDB.latestToday (s : JSONDB) (fs : FS) (dagFile : List Char) (day : Time) (latestStatusToday : Bool) :
    Except String (List Char) :=
  match glob fs (s.latestTodayPattern dagFile day latestStatusToday) with
  | .error _ => .error errs.noStatusDataToday
  | .ok [] => .error errs.noStatusDataToday
  | .ok (f :: found) =>
      match filterLatest sortSlice (f :: found) 1 with
      | [] => .error errs.noStatusData
      | file :: _ => .ok file

/-- `ReadStatusToday(dagFile)` (lines 160–169), called at `now`. -/
def JSONDB.readStatusToday (s : JSONDB) (fs : FS) (dagFile : List Char) (now : Time) : Except String σ :=
  match s.latestToday sortSlice errs fs dagFile now s.latestStatusToday with
  | .error e => .error e
  | .ok file => parseFileAt statusFromJSON fs file

/-! ## `FindByRequestID` -/

/-- A file of the history of `dagFile` that exists and parses to a status of
the request. -/
def JSONDB.RequestFile (s : JSONDB) (fs : FS) (dagFile requestID f : List Char) (status : σ) : Prop :=
  (fs.lookup f).isSome ∧ s.HistoryFile dagFile f ∧ parseFileAt statusFromJSON fs f = .ok status ∧
    requestIDOf status = requestID

theorem statusOfRequest_eq_some {fs : FS} {requestID f g : List Char} {status : σ} :
    statusOfRequest statusFromJSON requestIDOf fs requestID f = some (g, status) ↔
      g = f ∧ parseFileAt statusFromJSON fs f = .ok status ∧ requestIDOf status = requestID := by
  unfold statusOfRequest
  split
  · rename_i st hp
    by_cases hr : requestIDOf st = requestID
    · simp only [hr, if_true, Option.some.injEq, Prod.mk.injEq, hp, Except.ok.injEq]
      constructor
      · rintro ⟨rfl, rfl⟩; exact ⟨rfl, rfl, hr⟩
      · rintro ⟨rfl, rfl, -⟩; exact ⟨rfl, rfl⟩
    · simp only [hr, if_false, hp, Except.ok.injEq, reduceCtorEq, false_iff]
      rintro ⟨-, rfl, h⟩
      exact hr h
  · rename_i e hp
    simp [hp]

variable {statusFromJSON requestIDOf sortSlice errs}

section Find

variable {s : JSONDB} {fs : FS} {dagFile requestID : List Char}

/-- What `FindByRequestID` returns is a file of the history that parses to a
status of the request. -/
theorem JSONDB.findByRequestID_sound (hsort : Permutes sortSlice) (hl : ∀ c ∈ s.location, Literal c)
    (hd : ∀ c ∈ dagFile, Literal c) {f : List Char} {status : σ}
    (h : s.findByRequestID statusFromJSON requestIDOf sortSlice errs fs dagFile requestID = .ok (f, status)) :
    s.RequestFile statusFromJSON requestIDOf fs dagFile requestID f status := by
  unfold JSONDB.findByRequestID at h
  split_ifs at h
  rw [JSONDB.glob_globPattern fs hl hd] at h
  dsimp only at h
  split at h
  · rename_i r hfs
    cases h
    obtain ⟨g, hg, hgr⟩ := List.exists_of_findSome?_eq_some hfs
    obtain ⟨rfl, hparse, hid⟩ := (statusOfRequest_eq_some statusFromJSON requestIDOf).mp hgr
    obtain ⟨hex, hh⟩ := (JSONDB.mem_glob_globPattern fs hl hd _).mp ((hsort _ _).mem_iff.mp hg)
    exact ⟨hex, hh, hparse, hid⟩
  · cases h

/-- `FindByRequestID` succeeds when the history holds a file that parses to a
status of the request. -/
theorem JSONDB.findByRequestID_complete (hsort : Permutes sortSlice) (hl : ∀ c ∈ s.location, Literal c)
    (hd : ∀ c ∈ dagFile, Literal c) (hr : requestID ≠ []) {f : List Char} {status : σ}
    (hf : s.RequestFile statusFromJSON requestIDOf fs dagFile requestID f status) :
    ∃ r, s.findByRequestID statusFromJSON requestIDOf sortSlice errs fs dagFile requestID = .ok r := by
  obtain ⟨hex, hh, hparse, hid⟩ := hf
  unfold JSONDB.findByRequestID
  rw [if_neg hr, JSONDB.glob_globPattern fs hl hd]
  dsimp only
  split
  · exact ⟨_, rfl⟩
  · rename_i hfs
    have hm : f ∈ sortSlice (fun a b => !strLess a b) _ :=
      (hsort _ _).mem_iff.mpr ((JSONDB.mem_glob_globPattern fs hl hd f).mpr ⟨hex, hh⟩)
    have := List.findSome?_eq_none_iff.mp hfs f hm
    rw [(statusOfRequest_eq_some statusFromJSON requestIDOf).mpr ⟨rfl, hparse, hid⟩] at this
    cases this

/-- **`FindByRequestID` finds what the history holds**: for a plain store, a
literal DAG file name and a request id that is not empty, whatever order
`sort.Slice` leaves, `FindByRequestID` returns a file of the DAG's history that
parses to a status of the request, and it succeeds whenever the history holds
such a file. -/
theorem JSONDB.findByRequestID_spec (hsort : Permutes sortSlice) (s : PlainDB) (d : LiteralName) (fs : FS)
    {requestID : List Char} (hr : requestID ≠ []) :
    (∀ f status, s.findByRequestID statusFromJSON requestIDOf sortSlice errs fs d.name requestID = .ok (f, status) →
      s.RequestFile statusFromJSON requestIDOf fs d.name requestID f status) ∧
    ((∃ f status, s.RequestFile statusFromJSON requestIDOf fs d.name requestID f status) →
      ∃ r, s.findByRequestID statusFromJSON requestIDOf sortSlice errs fs d.name requestID = .ok r) :=
  ⟨fun _ _ h => JSONDB.findByRequestID_sound hsort s.location_literal d.literal h,
    fun ⟨_, _, hf⟩ => JSONDB.findByRequestID_complete hsort s.location_literal d.literal hr hf⟩

end Find

theorem findByRequestID_spec_historyA :
    Permutes (insertionSort : (List Char → List Char → Bool) → List (List Char) → List (List Char)) ∧
      "r".toList ≠ [] ∧
      (∀ f status, plainH.findByRequestID anyLine (fun _ => "r".toList) insertionSort ⟨"", "", ""⟩ historyA
          nameA.name "r".toList = .ok (f, status) →
        plainH.RequestFile anyLine (fun _ => "r".toList) historyA nameA.name "r".toList f status) ∧
      ((∃ f status, plainH.RequestFile anyLine (fun _ => "r".toList) historyA nameA.name "r".toList f status) →
        ∃ r, plainH.findByRequestID anyLine (fun _ => "r".toList) insertionSort ⟨"", "", ""⟩ historyA
          nameA.name "r".toList = .ok r) :=
  ⟨insertionSort_permutes, by decide,
    JSONDB.findByRequestID_spec insertionSort_permutes plainH nameA historyA (by decide)⟩

/-! ## `latestToday` -/

section Recent

variable {fs : FS}

end Recent

end Dagu.Jsondb
