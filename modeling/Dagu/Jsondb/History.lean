import Dagu.Jsondb.Rename
import Dagu.Go.Pattern

/-! # The files of a DAG's history

The history of the DAG `dagFile` is the set of files named by its prefix with
the directory, a text without a separator, and `.dat` (`JSONDB.HistoryFile`).
`newFile` names such a file (`historyFile_statusFile`), and `Compact` writes one
beside each (`historyFile_compactFile`). Suppose the location and the DAG file
name hold no character that a pattern reads as a metacharacter (`Literal`).
Then `globPattern`, the pattern of the readers, of `RemoveOld` and of `Rename`,
matches exactly these files (`globPattern_matches_iff`), and `Glob` lists the
files of the history that exist (`mem_glob_globPattern`). A store whose location
is such a path carries the fact with it (`PlainDB`), and so does a DAG file name
(`LiteralName`).
-/

namespace Dagu.Jsondb

open Dagu.Go

/-- A character that a pattern reads as itself. -/
def Literal (c : Char) : Prop := c ≠ '[' ∧ c ≠ '\\' ∧ c ≠ '*' ∧ c ≠ '?'

instance : DecidablePred Literal := fun _ => inferInstanceAs (Decidable (_ ∧ _))

/-- A history store whose names a pattern can carry as they are: its location
is a path that is not empty and holds no metacharacter of `filepath.Match`. -/
structure PlainDB extends JSONDB where
  location_ne_nil : location ≠ []
  location_literal : ∀ c ∈ location, Literal c

/-- A DAG file name that holds no metacharacter of `filepath.Match`. -/
structure LiteralName where
  name : List Char
  literal : ∀ c ∈ name, Literal c

/-- A file of the history of `dagFile`: its prefix with the directory, a text
without a separator, and `.dat`. -/
def JSONDB.HistoryFile (s : JSONDB) (dagFile p : List Char) : Prop :=
  ∃ x, '/' ∉ x ∧ p = s.prefixWithDirectory dagFile ++ x ++ ".dat".toList

/-- The text between the prefix and `.dat` in a file of the history. -/
def JSONDB.historyMiddle (s : JSONDB) (dagFile p : List Char) : List Char :=
  (p.drop (s.prefixWithDirectory dagFile).length).take (p.length - (s.prefixWithDirectory dagFile).length - 4)

theorem JSONDB.historyFile_iff {s : JSONDB} {dagFile p : List Char} :
    s.HistoryFile dagFile p ↔
      '/' ∉ s.historyMiddle dagFile p ∧ p = s.prefixWithDirectory dagFile ++ s.historyMiddle dagFile p ++ ".dat".toList := by
  constructor
  · rintro ⟨x, hx, rfl⟩
    have hm : s.historyMiddle dagFile (s.prefixWithDirectory dagFile ++ x ++ ".dat".toList) = x := by
      simp [JSONDB.historyMiddle, show ".dat".toList.length = 4 from rfl]
    rw [hm]
    exact ⟨hx, rfl⟩
  · exact fun h => ⟨_, h⟩

instance (s : JSONDB) (dagFile p : List Char) : Decidable (s.HistoryFile dagFile p) :=
  decidable_of_iff _ JSONDB.historyFile_iff.symm

/-! ## Literal patterns -/

theorem matchLit_literal : ∀ {L : List Char}, (∀ c ∈ L, c ≠ '?') → ∀ {n t : List Char},
    matchLit L n = some t ↔ n = L ++ t
  | [], _, n, t => by simp [matchLit, eq_comm]
  | _ :: _, _, [], _ => by simp [matchLit]
  | c :: L, h, r :: n, t => by
      have hc := h c (List.mem_cons_self _ _)
      have ih := matchLit_literal (fun d hd => h d (List.mem_cons_of_mem _ hd)) (n := n) (t := t)
      simp only [matchLit, hc, false_and, false_or, ne_eq, not_false_eq_true, true_and, List.cons_append,
        List.cons.injEq]
      split_ifs with hr
      · subst hr
        simpa using ih
      · simp [Ne.symm hr]

/-- A literal text, a star, and a literal suffix denote the names made of the
text, a run without a separator, and the suffix. -/
theorem denotes_literal_star {L S : List Char} (hL : ∀ c ∈ L, c ≠ '*' ∧ c ≠ '?')
    (hS : ∀ c ∈ S, c ≠ '*' ∧ c ≠ '?') (n : List Char) :
    denotes (L ++ '*' :: S) n = true ↔ ∃ x, '/' ∉ x ∧ n = L ++ x ++ S := by
  have hlit : ∀ {L : List Char}, (∀ c ∈ L, c ≠ '*' ∧ c ≠ '?') → ∀ {n t : List Char},
      matchLit L n = some t ↔ n = L ++ t := fun h => matchLit_literal fun c hc => (h c hc).2
  have hsuf : ∀ y, denotes S y = true ↔ y = S := by
    intro y
    have h := denotes_chunk (fun e => (hS _ e).1 rfl) [] y
    rw [List.append_nil] at h
    rw [h]
    rcases hm : matchLit S y with _ | t
    · exact ⟨nofun, fun e => by simp [e, (hlit hS).mpr (List.append_nil S).symm] at hm⟩
    · rw [Option.any_some, (hlit hS).mp hm]
      simp [denotes]
  rw [denotes_chunk (fun e => (hL _ e).1 rfl)]
  rcases hm : matchLit L n with _ | t
  · refine ⟨nofun, fun ⟨x, _, hn⟩ => ?_⟩
    rw [(hlit hL).mpr (hn.trans (List.append_assoc _ _ _))] at hm
    cases hm
  · rw [Option.any_some, denotes_star, starThen_iff, (hlit hL).mp hm]
    constructor
    · rintro ⟨x, y, rfl, hx, hy⟩
      exact ⟨x, hx, by rw [(hsuf y).mp hy, List.append_assoc]⟩
    · rintro ⟨x, hx, hn⟩
      exact ⟨x, S, List.append_cancel_left (hn.trans (List.append_assoc _ _ _)), hx, (hsuf S).mpr rfl⟩

/-! ## The history pattern -/

section Pattern

variable {s : JSONDB} {dagFile : List Char}

theorem JSONDB.literal_prefixWithDirectory (hl : ∀ c ∈ s.location, Literal c) (hd : ∀ c ∈ dagFile, Literal c) :
    ∀ c ∈ s.prefixWithDirectory dagFile, Literal c :=
  forall_mem_prefixWithDirectory (by decide) (by decide) (by decide) (by decide) hl hd

theorem JSONDB.plain_globPattern (hl : ∀ c ∈ s.location, Literal c) (hd : ∀ c ∈ dagFile, Literal c) :
    ∀ c ∈ s.globPattern dagFile, c ≠ '[' ∧ c ≠ '\\' := by
  have hP := JSONDB.literal_prefixWithDirectory hl hd
  intro c hc
  rcases List.mem_append.mp hc with hc | hc
  · exact ⟨(hP c hc).1, (hP c hc).2.1⟩
  · exact (by decide : ∀ c ∈ '*' :: ".dat".toList, c ≠ '[' ∧ c ≠ '\\') c hc

theorem JSONDB.denotes_globPattern (hl : ∀ c ∈ s.location, Literal c) (hd : ∀ c ∈ dagFile, Literal c)
    (p : List Char) : denotes (s.globPattern dagFile) p = true ↔ s.HistoryFile dagFile p := by
  have hP := JSONDB.literal_prefixWithDirectory hl hd
  exact denotes_literal_star (fun c hc => ⟨(hP c hc).2.2.1, (hP c hc).2.2.2⟩) (by decide) p

/-- **The history pattern matches exactly the history**: when the location and
the DAG file name hold no metacharacter, `Match` of `globPattern` accepts a
path exactly when it names a file of the DAG's history. -/
theorem JSONDB.globPattern_matches_iff (hl : ∀ c ∈ s.location, Literal c) (hd : ∀ c ∈ dagFile, Literal c)
    (p : List Char) : filepathMatch (s.globPattern dagFile) p = .ok true ↔ s.HistoryFile dagFile p := by
  rw [filepathMatch_eq_denotes (JSONDB.plain_globPattern hl hd), Except.ok.injEq]
  exact JSONDB.denotes_globPattern hl hd p

/-- `Glob` of the history pattern lists the files of the history. -/
theorem JSONDB.glob_globPattern (fs : FS) (hl : ∀ c ∈ s.location, Literal c) (hd : ∀ c ∈ dagFile, Literal c) :
    glob fs (s.globPattern dagFile) =
      .ok ((fs.files.map Prod.fst).filter (denotes (s.globPattern dagFile))) :=
  glob_eq_denotes fs (JSONDB.plain_globPattern hl hd)

theorem JSONDB.mem_glob_globPattern (fs : FS) (hl : ∀ c ∈ s.location, Literal c)
    (hd : ∀ c ∈ dagFile, Literal c) (p : List Char) :
    p ∈ (fs.files.map Prod.fst).filter (denotes (s.globPattern dagFile)) ↔
      (fs.lookup p).isSome ∧ s.HistoryFile dagFile p := by
  rw [List.mem_filter, FS.mem_paths, JSONDB.denotes_globPattern hl hd]

end Pattern

theorem storeH_globPattern_matches_iff :
    (∀ c ∈ storeH.location, Literal c) ∧ (∀ c ∈ "a.yaml".toList, Literal c) ∧
      (filepathMatch (storeH.globPattern "a.yaml".toList) fileA = .ok true ↔
        storeH.HistoryFile "a.yaml".toList fileA) :=
  ⟨by decide, by decide, JSONDB.globPattern_matches_iff (by decide) (by decide) _⟩

/-- The store under `/h`, whose location is plain. -/
def plainH : PlainDB := ⟨storeH, by decide, by decide⟩

/-- `a.yaml`, a literal DAG file name. -/
def nameA : LiteralName := ⟨"a.yaml".toList, by decide⟩

/-! ## Where a history is

Under a location that is not empty, `Clean` reads the location, then the
directory of the DAG, then its prefix (`prefixWithDirectory_render`). So the
prefix is the last element of the prefix with its directory, and `Rename`,
which replaces the old prefix at the start of the base name by the new one,
moves the file `<old prefix>x.dat` of the old history to the file
`<new prefix>x.dat` of the new one (`renameTarget_append`). -/

/-- Joining a name to a path that is not empty pushes it onto the elements
`Clean` reads from the path. -/
theorem join_name {x e : List Char} (hx : x ≠ []) (he : IsName e) :
    join x e = (⟨e :: (Kept.read (decide (x.head? = some '/')) x).names,
      (Kept.read (decide (x.head? = some '/')) x).ups⟩ : Kept).render (decide (x.head? = some '/')) := by
  have hk : (Kept.read (decide (x.head? = some '/')) x).Valid (decide (x.head? = some '/')) := Kept.Valid.read x
  have hk' : (⟨e :: (Kept.read (decide (x.head? = some '/')) x).names,
      (Kept.read (decide (x.head? = some '/')) x).ups⟩ : Kept).Valid (decide (x.head? = some '/')) :=
    ⟨List.forall_mem_cons.mpr ⟨he, hk.names⟩, hk.ups⟩
  have hr : (x ++ '/' :: e).head? = x.head? := by
    obtain ⟨c, z, rfl⟩ := List.exists_cons_of_ne_nil hx
    rfl
  rw [join, if_pos hx, clean_eq_cleanSpec]
  simp only [cleanSpec, hr, Kept.read_append_sep, splitOn_of_not_mem he.2.1, List.foldl_cons, List.foldl_nil,
    Kept.push_name he, hk'.render_ne_nil, if_false]

theorem Kept.render_append_name (rooted : Bool) (e v : List Char) (ns : List (List Char)) (u : Nat) :
    (⟨(e ++ v) :: ns, u⟩ : Kept).render rooted = (⟨e :: ns, u⟩ : Kept).render rooted ++ v := by
  simp only [Kept.render, Kept.stack, List.cons_append, List.append_assoc, joinRev_cons_append]

theorem Kept.render_cons_cons (rooted : Bool) (e n : List Char) (ns : List (List Char)) (u : Nat) :
    (⟨e :: n :: ns, u⟩ : Kept).render rooted = (⟨n :: ns, u⟩ : Kept).render rooted ++ '/' :: e := by
  simp only [Kept.render, Kept.stack, List.cons_append, List.append_assoc, joinRev_cons (List.cons_ne_nil _ _)]

/-- The base name of the last element with text added is the element with the text. -/
theorem base_render_append {rooted : Bool} {e n v : List Char} {ns : List (List Char)} {u : Nat}
    (he : e ≠ []) (hs : '/' ∉ e ++ v) :
    base ((⟨e :: n :: ns, u⟩ : Kept).render rooted ++ v) = e ++ v := by
  rw [Kept.render_cons_cons, show ∀ R : List Char, R ++ '/' :: e ++ v = R ++ ['/'] ++ (e ++ v) by simp,
    base_append hs (by simp [he]), split_snd_sep, List.nil_append]

section Place

variable {s : JSONDB}

/-- Whether the location is rooted. -/
def JSONDB.rooted (s : JSONDB) : Bool := decide (s.location.head? = some '/')

/-- The elements `Clean` reads from the location. -/
def JSONDB.locationKept (s : JSONDB) : Kept := Kept.read s.rooted s.location

/-- The name of the directory of a history, `<prefix>-<hash>`. -/
def hashDir (name : List Char) : List Char :=
  prefixOf name ++ '-' :: hexEncodeToString (md5Sum (name.flatMap String.utf8EncodeChar))

theorem JSONDB.historyDir_render (hloc : s.location ≠ []) {name : List Char} (hn : IsName (prefixOf name)) :
    s.historyDir name = (⟨hashDir name :: s.locationKept.names, s.locationKept.ups⟩ : Kept).render s.rooted :=
  join_name hloc (isName_hashDir hn.2.1 (sep_not_mem_hash name))

theorem JSONDB.historyDir_valid {name : List Char} (hn : IsName (prefixOf name)) :
    (⟨hashDir name :: s.locationKept.names, s.locationKept.ups⟩ : Kept).Valid s.rooted :=
  ⟨List.forall_mem_cons.mpr ⟨isName_hashDir hn.2.1 (sep_not_mem_hash name), (Kept.Valid.read _).names⟩,
    (Kept.Valid.read _).ups⟩

/-- The prefix with its directory is the location, the directory of the
history and the prefix, as `Clean` writes them. -/
theorem JSONDB.prefixWithDirectory_render (hloc : s.location ≠ []) {name : List Char} (hn : IsName (prefixOf name)) :
    s.prefixWithDirectory name =
      (⟨prefixOf name :: hashDir name :: s.locationKept.names, s.locationKept.ups⟩ : Kept).render s.rooted := by
  have hk := JSONDB.historyDir_valid (s := s) hn
  rw [JSONDB.prefixWithDirectory, show s.getDirectory name (prefixOf name) = s.historyDir name from rfl,
    JSONDB.historyDir_render hloc hn, hk.join_render hk.render_ne_nil hn]

theorem replaceFirst_append (old r new : List Char) : replaceFirst (old ++ r) old new = new ++ r := by
  have hp : old <+: old ++ r := List.prefix_append _ _
  have hd : (old ++ r).drop old.length = r := List.drop_left _ _
  generalize old ++ r = s at hp hd
  cases s with
  | nil => exact (if_pos hp).trans (by rw [hd])
  | cons c s => exact (if_pos hp).trans (by rw [hd])

/-- **`Rename` moves a file of the old history to the file of the new history
with the same suffix**, under a location that is not empty, for DAG names
whose prefixes are names. -/
theorem JSONDB.renameTarget_append (hloc : s.location ≠ []) {oldName newName x : List Char}
    (ho : IsName (prefixOf oldName)) (hn : IsName (prefixOf newName)) (hx : '/' ∉ x) :
    s.renameTarget oldName newName (s.prefixWithDirectory oldName ++ x ++ ".dat".toList) =
      s.prefixWithDirectory newName ++ x ++ ".dat".toList := by
  have hv : '/' ∉ x ++ ".dat".toList := by simp [hx, show ".dat".toList = ['.', 'd', 'a', 't'] from rfl]
  have hbase : ∀ {name : List Char}, IsName (prefixOf name) → ∀ {v : List Char}, '/' ∉ v →
      base (s.prefixWithDirectory name ++ v) = prefixOf name ++ v := fun hn' _ hv' => by
    rw [JSONDB.prefixWithDirectory_render hloc hn']
    exact base_render_append hn'.1 (List.not_mem_append hn'.2.1 hv')
  have hk := JSONDB.historyDir_valid (s := s) hn
  have hlen : 4 ≤ (x ++ ".dat".toList).length := by simp [show ".dat".toList.length = 4 from rfl]
  have hname : IsName (prefixOf newName ++ (x ++ ".dat".toList)) :=
    isName_append hn.1 hn.2.1 ⟨fun h => by rw [h] at hlen; simp at hlen, hv,
      fun h => by rw [h] at hlen; simp at hlen, fun h => by rw [h] at hlen; simp at hlen⟩
  rw [JSONDB.renameTarget, List.append_assoc, hbase ho hv, ← List.append_nil (s.prefixWithDirectory oldName),
    hbase ho (List.not_mem_nil _), ← List.append_nil (s.prefixWithDirectory newName), hbase hn (List.not_mem_nil _),
    List.append_nil, List.append_nil, List.append_nil, replaceFirst_append, JSONDB.historyDir_render hloc hn,
    hk.join_render hk.render_ne_nil hname, Kept.render_append_name, ← JSONDB.prefixWithDirectory_render hloc hn,
    List.append_assoc]

end Place

/-! ## The names the store writes -/

theorem sep_not_mem_formatStamp (t : Time) : '/' ∉ t.formatStamp := by
  have hdate : ∀ c ∈ t.formatDate, c ≠ '/' := Time.forall_mem_formatDate (by decide) (by decide) t
  have hclock : ∀ c ∈ t.formatClock, c ≠ '/' :=
    Time.forall_mem_formatClock (by decide) (by decide) (by decide) (by decide) t
  rw [Time.formatStamp_eq_date]
  simp only [List.mem_append, List.mem_cons, not_or]
  exact ⟨fun h => hdate _ h rfl, by decide, fun h => hclock _ h rfl⟩

/-- `newFile` names a file of the history, when the request id has no separator. -/
theorem JSONDB.historyFile_statusFile (s : JSONDB) (dagFile : List Char) (t : Time) {requestIDSafe : List Char}
    (hr : '/' ∉ requestIDSafe) : s.HistoryFile dagFile (s.statusFile dagFile t requestIDSafe) :=
  ⟨'.' :: t.formatStamp ++ '.' :: requestIDSafe, by simp [sep_not_mem_formatStamp t, hr],
    by simp [JSONDB.statusFile]⟩

/-- `Compact` writes beside a file of the history a file of the same history. -/
theorem JSONDB.historyFile_compactFile {s : JSONDB} {dagFile p : List Char} (h : s.HistoryFile dagFile p) :
    s.HistoryFile dagFile (compactFile p) := by
  obtain ⟨x, hx, rfl⟩ := h
  refine ⟨x ++ ['_', 'c'], by simp [hx], ?_⟩
  rw [JSONDB.prefixWithDirectory_eq_clean, compactFile_append _ hx]
  simp

end Dagu.Jsondb
