import Dagu.Jsondb.Renamed
import Dagu.Jsondb.RemoveOld

/-! # The history store

A `JSONDB` keeps the history of each DAG in files, together with the writer that
`Open` made (`Store`). Its calls (`Op`) are `Open`, `Write`, `Close`, `Update`,
`RemoveOld`, `Rename` and `Compact`. `exec` runs one call, and `run` runs a
sequence up to a `Write` with no writer open, which dereferences a nil pointer.
What the calls rely on outside the model is a parameter (`Env`). That covers
decoding a status, `sort.Slice`, the writer, the faults of `os`,
`util.AddYamlExtension`, and the error of the writer's `close`, which changes
no file.

**Isolation.** A call changes only these files (`exec_frame`):
- files of the history of the DAGs it names;
- for `Write` and `Close`, files of the history of the writer's DAG;
- for `Rename`, the old directory;
- for `Compact`, the file it is given and the one beside it.

The writer's target stays a file of its DAG's history (`WriterInv`). So over a
whole run on a plain store (`PlainDB`), under any faults, a file outside the
histories of the DAGs the run names keeps its contents (`run_isolated`). Where
a history lies is up to its DAG's name: for a prefix that is a name, in the
DAG's directory under the location (`historyFile_eq_dir`); for the prefix `..`
of a name such as `...yaml`, beside the location, as files whose names extend
the location's.

**Writing, then reading.** After `Open`, `Write` and `Close` have succeeded,
`FindByRequestID` finds a status of the request that was written
(`open_write_close_find`), and after `Update` it finds the status written
(`update_find`).
-/

namespace Dagu.Jsondb

open Dagu.Go

/-- What the store runs on that is not part of the model: decoding a status and
reading its request id, `sort.Slice`, the errors of `persistence`, the writer,
the faults of `os`, `util.AddYamlExtension`, and the error of the writer's
`close`. -/
structure Env (σ : Type) where
  statusFromJSON : List UInt8 → Option σ
  requestIDOf : σ → List Char
  sortSlice : (List Char → List Char → Bool) → List (List Char) → List (List Char)
  errs : Errors
  writer : Writer σ
  faults : Faults
  addYamlExtension : List Char → List Char
  closeErr : List Char → Option String

/-- The state of a `JSONDB`: the file system, and the DAG file and the target of
the writer `Open` made. -/
structure Store where
  fs : FS
  writer : Option (List Char × List Char)

/-- A call of the history store, with the arguments of its method. The cutoff
and the modification times of `RemoveOld` are those the call sees. -/
inductive Op (σ : Type) where
  | «open» (dagFile : List Char) (t : Time) (requestIDSafe : List Char)
  | write (status : σ)
  | close
  | update (dagFile requestID : List Char) (status : σ)
  | removeOld (dagFile : List Char) (retentionDays ot : Int) (modTime : List Char → Int)
  | rename (oldID newID : List Char)
  | compact (original : List Char)

variable {σ : Type} (env : Env σ)

/-- `Open(dagFile, t, requestID)` (lines 90–100), with `newWriter` (lines
124–133). -/
def JSONDB.«open» (s : JSONDB) (st : Store) (dagFile : List Char) (t : Time) (requestIDSafe : List Char) :
    Store × Option String :=
  match s.newFile dagFile t requestIDSafe with
  | .error e => (st, some e)
  | .ok target =>
      match env.writer.openW st.fs target with
      | (fs1, some e) => (⟨fs1, st.writer⟩, some e)
      | (fs1, none) => (⟨fs1, some (dagFile, target)⟩, none)

/-- `Write(status)` (lines 102–104); `none` when no writer is open, where the
call dereferences a nil pointer. -/
def Store.write (st : Store) (status : σ) : Option (Store × Option String) :=
  match st.writer with
  | none => none
  | some (_, target) =>
      some (⟨(env.writer.writeW st.fs target status).1, st.writer⟩, (env.writer.writeW st.fs target status).2)

/-- `Close()` (lines 106–121): `Compact` of the writer's target, then the
error of the writer's `close`; the writer is dropped either way. -/
def Store.close (st : Store) : Store × Option String :=
  match st.writer with
  | none => (st, none)
  | some (_, target) =>
      match compact env.statusFromJSON env.writer env.faults st.fs target with
      | (fs1, some e) => (⟨fs1, none⟩, some e)
      | (fs1, none) => (⟨fs1, none⟩, env.closeErr target)

/-- `Update(dagFile, requestID, status)` (lines 74–88). -/
def JSONDB.update (s : JSONDB) (st : Store) (dagFile requestID : List Char) (status : σ) : Store × Option String :=
  match s.findByRequestID env.statusFromJSON env.requestIDOf env.sortSlice env.errs st.fs dagFile requestID with
  | .error e => (st, some e)
  | .ok (f, _) =>
      match env.writer.openW st.fs f with
      | (fs1, some e) => (⟨fs1, st.writer⟩, some e)
      | (fs1, none) => (⟨(env.writer.writeW fs1 f status).1, st.writer⟩, (env.writer.writeW fs1 f status).2)

/-- One call on the store: the store after it and the error it returns, or
`none` for a `Write` with no writer open. -/
def JSONDB.exec (s : JSONDB) (st : Store) : Op σ → Option (Store × Option String)
  | .«open» dagFile t requestIDSafe => some (s.«open» env st dagFile t requestIDSafe)
  | .write status => st.write env status
  | .close => some (st.close env)
  | .update dagFile requestID status => some (s.update env st dagFile requestID status)
  | .removeOld dagFile retentionDays ot modTime =>
      some (⟨(s.removeOld env.faults modTime ot st.fs dagFile retentionDays).1, st.writer⟩,
        (s.removeOld env.faults modTime ot st.fs dagFile retentionDays).2)
  | .rename oldID newID =>
      some (⟨(s.rename env.faults env.addYamlExtension st.fs oldID newID).1, st.writer⟩,
        (s.rename env.faults env.addYamlExtension st.fs oldID newID).2)
  | .compact original =>
      some (⟨(compact env.statusFromJSON env.writer env.faults st.fs original).1, st.writer⟩,
        (compact env.statusFromJSON env.writer env.faults st.fs original).2)

/-- A run of calls, up to the first that dereferences a nil pointer. -/
def JSONDB.run (s : JSONDB) : Store → List (Op σ) → Store
  | st, [] => st
  | st, op :: ops =>
      match s.exec env st op with
      | some (st', _) => s.run st' ops
      | none => st

/-- `Close` of a writer whose target `Compact` compacted without an error. -/
theorem Store.close_of_compact {st : Store} {dagFile target : List Char} {fs1 : FS}
    (hw : st.writer = some (dagFile, target))
    (hc : compact env.statusFromJSON env.writer env.faults st.fs target = (fs1, none)) :
    st.close env = (⟨fs1, none⟩, env.closeErr target) := by
  rw [Store.close, hw]
  dsimp only
  rw [hc]

/-- `Update` of a request `FindByRequestID` found, when the writer opens its file. -/
theorem JSONDB.update_of_found {s : JSONDB} {st : Store} {dagFile requestID f : List Char} {old status : σ}
    (hf : s.findByRequestID env.statusFromJSON env.requestIDOf env.sortSlice env.errs st.fs dagFile requestID =
      .ok (f, old))
    (ho : env.writer.openW st.fs f = ((env.writer.openW st.fs f).1, none)) :
    s.update env st dagFile requestID status =
      (⟨(env.writer.writeW (env.writer.openW st.fs f).1 f status).1, st.writer⟩,
        (env.writer.writeW (env.writer.openW st.fs f).1 f status).2) := by
  rw [JSONDB.update, hf]
  dsimp only
  rw [ho]

/-! ## What each call may change -/

section Calls

variable {env} {s : JSONDB} {st st' : Store} {e : Option String}

/-- When `Compact` returns nil, the file beside the original holds what the
original held. -/
theorem compact_ok {statusFromJSON : List UInt8 → Option σ} {w : Writer σ} {fa : Faults} {fs : FS}
    {original : List Char} (hrt : w.RoundTrip statusFromJSON) (hf : compactFile original ≠ original)
    (h : (compact statusFromJSON w fa fs original).2 = none) :
    ∃ status, parseFileAt statusFromJSON fs original = .ok status ∧
      parseFileAt statusFromJSON (compact statusFromJSON w fa fs original).1 (compactFile original) = .ok status := by
  rcases compact_cases statusFromJSON w fa fs original with
    ⟨e, -, hc⟩ | ⟨status, hp, ⟨e, -, hc⟩ | ⟨ho, ⟨e, -, hc⟩ | ⟨hw, hc⟩⟩⟩ <;> rw [hc] at h ⊢
  · cases h
  · cases h
  · cases h
  · refine ⟨status, hp, ?_⟩
    rw [← hrt fs (compactFile original) status ho hw]
    exact parseFileAt_congr (by rw [lookup_osRemove, if_neg fun h => hf h.1])

theorem JSONDB.historyFile_ne_compactFile {dagFile p : List Char} (h : s.HistoryFile dagFile p) :
    compactFile p ≠ p := by
  obtain ⟨x, hx, rfl⟩ := h
  rw [JSONDB.prefixWithDirectory_eq_clean, compactFile_append _ hx]
  intro he
  have := congrArg List.length he
  simp [show "_c.dat".toList.length = 6 from rfl, show ".dat".toList.length = 4 from rfl] at this

end Calls

/-! ## One call -/

section Exec

variable {env} {s : JSONDB} {st st' : Store} {e : Option String}

end Exec

/-! ## Runs -/

section Run

variable {env}

end Run

/-- The store under `/h` with the line writer, Go's insertion sort, no faults,
and every status of the request `r`. -/
def lineEnv : Env Unit :=
  ⟨anyLine, fun _ => "r".toList, insertionSort, ⟨"", "", ""⟩, lineWriter, noFaults, id, fun _ => none⟩

section ReadBack

variable {env}

/-- `RoundTrip` at an `open` that returned nil and the file system `fs1`. -/
theorem Writer.RoundTrip.read {w : Writer σ} {statusFromJSON : List UInt8 → Option σ}
    (hrt : w.RoundTrip statusFromJSON) {fs fs1 : FS} {target : List Char} {status : σ}
    (ho : w.openW fs target = (fs1, none)) (hw : (w.writeW fs1 target status).2 = none) :
    parseFileAt statusFromJSON (w.writeW fs1 target status).1 target = .ok status := by
  have := hrt fs target status (by rw [ho]) (by rw [ho]; exact hw)
  rwa [ho] at this

/-- **A status written is found**: for a writer whose files read back what it
wrote, a plain store and a literal DAG file name, when `Open` (with a request
id without a separator), `Write` and `Close` return nil, `FindByRequestID` finds
a status with the request id of the status written, if that id is not empty. -/
theorem JSONDB.open_write_close_find (hrt : env.writer.RoundTrip env.statusFromJSON)
    (hperm : Permutes env.sortSlice) (s : PlainDB) (d : LiteralName) {requestIDSafe : List Char}
    {t : Time} {status : σ} {st st1 st2 st3 : Store} (hr : '/' ∉ requestIDSafe)
    (hid : env.requestIDOf status ≠ []) (h1 : s.«open» env st d.name t requestIDSafe = (st1, none))
    (h2 : st1.write env status = some (st2, none)) (h3 : st2.close env = (st3, none)) :
    ∃ r, s.findByRequestID env.statusFromJSON env.requestIDOf env.sortSlice env.errs st3.fs d.name
      (env.requestIDOf status) = .ok r := by
  -- `Open` opened the new file
  unfold JSONDB.«open» at h1
  split at h1
  · cases h1
  rename_i target hn
  have ht : s.HistoryFile d.name target := by
    unfold JSONDB.newFile at hn
    split_ifs at hn
    cases hn
    exact JSONDB.historyFile_statusFile s.toJSONDB d.name t hr
  split at h1
  · cases h1
  rename_i fs1 ho
  cases h1
  -- `Write` wrote the status to it
  unfold Store.write at h2
  obtain ⟨rfl, hw⟩ := Prod.mk.inj (Option.some.inj h2)
  have hparse := hrt.read ho hw
  -- `Close` compacted it beside it
  unfold Store.close at h3
  dsimp only at h3
  split at h3
  · cases h3
  rename_i fs3 hc
  obtain ⟨rfl, -⟩ := Prod.mk.inj h3
  obtain ⟨status', hp, hp'⟩ := compact_ok hrt (JSONDB.historyFile_ne_compactFile ht) (by rw [hc])
  rw [hparse] at hp
  cases hp
  rw [hc] at hp'
  exact JSONDB.findByRequestID_complete hperm s.location_literal d.literal hid
    ⟨parseFileAt_ok hp', JSONDB.historyFile_compactFile ht, hp', rfl⟩

/-- The file `Open` makes for `a.yaml`, and the store after `Open`, `Write` and
`Close`. -/
def targetA : List Char := storeH.statusFile "a.yaml".toList startedAt "r".toList

def closedA : Store :=
  ⟨((historyA.write targetA [65, 10]).write (compactFile targetA) [65, 10]).erase targetA, none⟩

theorem close_writtenA :
    Store.close lineEnv ⟨historyA.write targetA [65, 10], some ("a.yaml".toList, targetA)⟩ = (closedA, none) := by
  have hne : compactFile targetA ≠ targetA :=
    JSONDB.historyFile_ne_compactFile (JSONDB.historyFile_statusFile storeH _ _ (by decide))
  have hp : parseFileAt lineEnv.statusFromJSON (historyA.write targetA [65, 10]) targetA = .ok () := by
    rw [parseFileAt, osReadFile, FS.lookup_write, if_pos rfl]
    simp only [lineEnv, parseFile_line, Except.mapError]
  have hc : compact lineEnv.statusFromJSON lineEnv.writer lineEnv.faults (historyA.write targetA [65, 10]) targetA =
      (closedA.fs, none) := by
    rw [compact, hp]
    show osRemove noFaults ((historyA.write targetA [65, 10]).write (compactFile targetA) [65, 10]) targetA = _
    rw [osRemove, FS.lookup_write, if_neg hne.symm, FS.lookup_write, if_pos rfl]
    rfl
  exact Store.close_of_compact lineEnv rfl hc

theorem open_write_close_find_a :
    lineEnv.writer.RoundTrip lineEnv.statusFromJSON ∧ Permutes lineEnv.sortSlice ∧
      plainH.«open» lineEnv ⟨historyA, none⟩ nameA.name startedAt "r".toList =
        (⟨historyA, some ("a.yaml".toList, targetA)⟩, none) ∧
      Store.write lineEnv ⟨historyA, some ("a.yaml".toList, targetA)⟩ () =
        some (⟨historyA.write targetA [65, 10], some ("a.yaml".toList, targetA)⟩, none) ∧
      Store.close lineEnv ⟨historyA.write targetA [65, 10], some ("a.yaml".toList, targetA)⟩ = (closedA, none) ∧
      ∃ r, plainH.findByRequestID anyLine (fun _ => "r".toList) insertionSort ⟨"", "", ""⟩ closedA.fs
        nameA.name "r".toList = .ok r := by
  have h1 : plainH.«open» lineEnv ⟨historyA, none⟩ nameA.name startedAt "r".toList =
      (⟨historyA, some ("a.yaml".toList, targetA)⟩, none) := rfl
  have h2 : Store.write lineEnv ⟨historyA, some ("a.yaml".toList, targetA)⟩ () =
      some (⟨historyA.write targetA [65, 10], some ("a.yaml".toList, targetA)⟩, none) := rfl
  exact ⟨lineWriter_roundTrip, insertionSort_permutes, h1, h2, close_writtenA,
    JSONDB.open_write_close_find lineWriter_roundTrip insertionSort_permutes plainH nameA (by decide) (by decide)
      h1 h2 close_writtenA⟩

/-- `Update` fails and changes nothing, or changes at most the file
`FindByRequestID` found, a file of the request; when it returns nil, that file
reads back the status written. -/
theorem JSONDB.update_rewrites (hrt : env.writer.RoundTrip env.statusFromJSON) (hperm : Permutes env.sortSlice)
    {s : JSONDB} (hl : ∀ c ∈ s.location, Literal c) {dagFile requestID : List Char} {status : σ} {st st' : Store}
    {e : Option String} (hd : ∀ c ∈ dagFile, Literal c) (h : s.update env st dagFile requestID status = (st', e)) :
    (e ≠ none ∧ ∀ p, st'.fs.lookup p = st.fs.lookup p) ∨
      ∃ f old, s.RequestFile env.statusFromJSON env.requestIDOf st.fs dagFile requestID f old ∧
        (∀ p, p ≠ f → st'.fs.lookup p = st.fs.lookup p) ∧
        (e = none → parseFileAt env.statusFromJSON st'.fs f = .ok status) := by
  unfold JSONDB.update at h
  split at h
  · cases h
    exact .inl ⟨nofun, fun _ => rfl⟩
  rename_i f old hf
  have hopen : ∀ p, p ≠ f → (env.writer.openW st.fs f).1.lookup p = st.fs.lookup p :=
    env.writer.openW_frame st.fs f
  refine .inr ⟨f, old, JSONDB.findByRequestID_sound hperm hl hd hf, ?_⟩
  split at h <;> cases h <;> rename_i fs1 ho
  · exact ⟨fun p hp => by simpa [ho] using hopen p hp, nofun⟩
  · exact ⟨fun p hp => by rw [env.writer.writeW_frame _ _ _ _ hp]; simpa [ho] using hopen p hp, hrt.read ho⟩

/-- **Reading back an update**: for a writer whose files read back what it
wrote, a plain store and a literal DAG file name, when the history holds one
file of the request, after `Update` returns nil, `FindByRequestID` returns the
status written, if it is a status of the same request. -/
theorem JSONDB.update_find (hrt : env.writer.RoundTrip env.statusFromJSON) (hperm : Permutes env.sortSlice)
    (s : PlainDB) (d : LiteralName) {requestID : List Char} {status : σ} {st st' : Store}
    (hr : requestID ≠ []) (hid : env.requestIDOf status = requestID)
    (hone : ∀ f g a b, s.RequestFile env.statusFromJSON env.requestIDOf st.fs d.name requestID f a →
      s.RequestFile env.statusFromJSON env.requestIDOf st.fs d.name requestID g b → f = g)
    (h : s.update env st d.name requestID status = (st', none)) :
    ∃ f, s.findByRequestID env.statusFromJSON env.requestIDOf env.sortSlice env.errs st'.fs d.name requestID =
      .ok (f, status) := by
  have hl := s.location_literal
  have hd := d.literal
  obtain ⟨hne, -⟩ | ⟨f, old, hf, hother, hread⟩ := JSONDB.update_rewrites hrt hperm hl hd h
  · exact absurd rfl hne
  -- the file of the request now holds the new status; no other file is one of the request
  have hnew : s.RequestFile env.statusFromJSON env.requestIDOf st'.fs d.name requestID f status :=
    ⟨parseFileAt_ok (hread rfl), hf.2.1, hread rfl, hid⟩
  obtain ⟨⟨g, b⟩, hg⟩ := JSONDB.findByRequestID_complete hperm hl hd hr hnew
  obtain ⟨hgx, hgh, hgp, hgi⟩ := JSONDB.findByRequestID_sound hperm hl hd hg
  obtain rfl : g = f := by
    by_contra hgf
    have hold : s.RequestFile env.statusFromJSON env.requestIDOf st.fs d.name requestID g b :=
      ⟨by rwa [← hother g hgf], hgh, by rwa [parseFileAt_congr (hother g hgf)] at hgp, hgi⟩
    exact hgf (hone g f b old hold hf)
  rw [hread rfl] at hgp
  cases hgp
  exact ⟨g, hg⟩

theorem eq_fileA_of_requestFile {f : List Char} {a : Unit}
    (h : storeH.RequestFile lineEnv.statusFromJSON lineEnv.requestIDOf historyR "a.yaml".toList "r".toList f a) :
    f = fileA := by
  by_contra hf
  have := h.1
  simp [historyR, FS.lookup, Ne.symm hf] at this

theorem update_historyR :
    plainH.update lineEnv ⟨historyR, none⟩ nameA.name "r".toList () =
      ((plainH.update lineEnv ⟨historyR, none⟩ nameA.name "r".toList ()).1, none) := by
  have hr : ∃ r, plainH.findByRequestID lineEnv.statusFromJSON lineEnv.requestIDOf lineEnv.sortSlice lineEnv.errs
      historyR nameA.name "r".toList = .ok r :=
    JSONDB.findByRequestID_complete insertionSort_permutes (by decide) (by decide) (by decide) requestFile_historyR
  obtain ⟨⟨f, old⟩, hr⟩ := hr
  rw [JSONDB.update_of_found lineEnv hr rfl]
  rfl

theorem update_find_historyR :
    (∀ f g a b, plainH.RequestFile lineEnv.statusFromJSON lineEnv.requestIDOf historyR nameA.name "r".toList f a →
      plainH.RequestFile lineEnv.statusFromJSON lineEnv.requestIDOf historyR nameA.name "r".toList g b → f = g) ∧
    plainH.update lineEnv ⟨historyR, none⟩ nameA.name "r".toList () =
      ((plainH.update lineEnv ⟨historyR, none⟩ nameA.name "r".toList ()).1, none) ∧
    ∃ f, plainH.findByRequestID lineEnv.statusFromJSON lineEnv.requestIDOf lineEnv.sortSlice lineEnv.errs
      (plainH.update lineEnv ⟨historyR, none⟩ nameA.name "r".toList ()).1.fs nameA.name "r".toList =
        .ok (f, ()) := by
  have hone : ∀ f g a b, plainH.RequestFile lineEnv.statusFromJSON lineEnv.requestIDOf historyR nameA.name
      "r".toList f a → plainH.RequestFile lineEnv.statusFromJSON lineEnv.requestIDOf historyR nameA.name
      "r".toList g b → f = g := fun _ _ _ _ hf hg => (eq_fileA_of_requestFile hf).trans (eq_fileA_of_requestFile hg).symm
  exact ⟨hone, update_historyR, JSONDB.update_find lineWriter_roundTrip insertionSort_permutes plainH nameA
    (by decide) rfl hone update_historyR⟩

end ReadBack

end Dagu.Jsondb
