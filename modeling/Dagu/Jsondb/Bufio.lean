import Mathlib.Data.List.Basic

/-! # Reading a status file line by line

`readLineFrom` (`internal/persistence/jsondb/jsondb.go`, lines 420–440) seeks to
an offset, wraps the file in a fresh `bufio.Reader` of the default size, 4096
bytes, and calls `ReadLine` until a call returns a whole line or `io.EOF`.

`bufio` is modelled on a file whose bytes do not change: a reader positioned
at some point of the file is what is left to read (`rest`), and the 4096 bytes
it can buffer are `rest.take bufSize`. `ReadSlice('\n')` returns the bytes up to
and including the first `'\n'` in that window; with none, the whole window,
with `io.EOF` if the file ended inside it and `ErrBufferFull` otherwise.
`ReadLine` strips `"\n"` or `"\r\n"`, and when a full buffer ends in `'\r'` it
hands that byte back, so that a `"\r\n"` split across two buffers is still
recognised.
-/

namespace Dagu.Jsondb

/-- `bufio.defaultBufSize`. -/
def bufSize : Nat := 4096

/-- The errors `ReadSlice` and `ReadLine` return on a file that cannot fail. -/
inductive ReadErr where
  | eof
  | bufferFull
  deriving DecidableEq, Repr

/-- The bytes of `w` up to and including its first `'\n'`, if it has one
(`bytes.IndexByte` in `ReadSlice`). -/
def lineIn : List UInt8 → Option (List UInt8)
  | [] => none
  | b :: w => if b = 10 then some [10] else (lineIn w).map (b :: ·)

/-- `(*bufio.Reader).ReadSlice('\n')`: the line, the error, and what is left. -/
def readSlice (rest : List UInt8) : List UInt8 × Option ReadErr × List UInt8 :=
  let w := rest.take bufSize
  match lineIn w with
  | some line => (line, none, rest.drop line.length)
  | none =>
      if w.length < bufSize then (w, some .eof, [])
      else (w, some .bufferFull, rest.drop bufSize)

/-- The trailing `"\n"` or `"\r\n"` `ReadLine` drops. -/
def dropNewline (line : List UInt8) : List UInt8 :=
  if line.getLast? = some 10 then
    if line.dropLast.getLast? = some 13 then line.dropLast.dropLast else line.dropLast
  else line

/-- `(*bufio.Reader).ReadLine`: the line, `isPrefix`, the error, and what is left. -/
def readLine (rest : List UInt8) : List UInt8 × Bool × Option ReadErr × List UInt8 :=
  match readSlice rest with
  | (line, some .bufferFull, rest') =>
      if line.getLast? = some 13 then (line.dropLast, true, none, 13 :: rest')
      else (line, true, none, rest')
  | (line, err, rest') =>
      if line = [] then ([], false, err, rest') else (dropNewline line, false, none, rest')

/-! ## The three shapes of a read -/

theorem lineIn_eq_none {w : List UInt8} (h : 10 ∉ w) : lineIn w = none := by
  induction w with
  | nil => rfl
  | cons b w ih =>
      simp only [List.mem_cons, not_or] at h
      simp [lineIn, Ne.symm h.1, ih h.2]

theorem lineIn_append {seg post : List UInt8} (h : 10 ∉ seg) :
    lineIn (seg ++ 10 :: post) = some (seg ++ [10]) := by
  induction seg with
  | nil => simp [lineIn]
  | cons b seg ih =>
      simp only [List.mem_cons, not_or] at h
      simp [lineIn, Ne.symm h.1, ih h.2]

/-- A `'\n'` inside the buffer ends the line. -/
theorem readSlice_line {seg post : List UInt8} (h : 10 ∉ seg) (hlen : seg.length < bufSize) :
    readSlice (seg ++ 10 :: post) = (seg ++ [10], none, post) := by
  have hw : (seg ++ 10 :: post).take bufSize = seg ++ 10 :: post.take (bufSize - seg.length - 1) := by
    rw [List.take_append_eq_append_take, List.take_of_length_le (by omega),
      show bufSize - seg.length = (bufSize - seg.length - 1) + 1 by omega, List.take_succ_cons,
      Nat.add_sub_cancel]
  simp [readSlice, hw, lineIn_append h]

/-- No `'\n'` in a full buffer: `ErrBufferFull`. -/
theorem readSlice_full {rest : List UInt8} (h : 10 ∉ rest.take bufSize)
    (hlen : bufSize ≤ rest.length) :
    readSlice rest = (rest.take bufSize, some .bufferFull, rest.drop bufSize) := by
  simp [readSlice, lineIn_eq_none h, hlen]

/-- No `'\n'` before the end of the file: `io.EOF` with what is left. -/
theorem readSlice_eof {rest : List UInt8} (h : 10 ∉ rest) (hlen : rest.length < bufSize) :
    readSlice rest = (rest, some .eof, []) := by
  have hw : rest.take bufSize = rest := List.take_of_length_le (by omega)
  simp [readSlice, hw, lineIn_eq_none h, hlen]

theorem readSlice_bufferFull {rest line rest' : List UInt8}
    (h : readSlice rest = (line, some .bufferFull, rest')) :
    bufSize ≤ rest.length ∧ rest' = rest.drop bufSize := by
  unfold readSlice at h
  simp only at h
  split at h
  · cases h
  · split_ifs at h with hw
    · cases h
    · cases h
      exact ⟨by rw [List.length_take] at hw; omega, rfl⟩

/-! ## `ReadLine` -/

/-- The trailing `'\r'` of a line that ended in `"\r\n"`. -/
def dropCR (seg : List UInt8) : List UInt8 :=
  if seg.getLast? = some 13 then seg.dropLast else seg

/-- How much of a full buffer `ReadLine` consumes: all of it, or all but a
final `'\r'`, which it hands back. -/
def chunkLen (rest : List UInt8) : Nat :=
  if (rest.take bufSize).getLast? = some 13 then bufSize - 1 else bufSize

theorem dropNewline_append (seg : List UInt8) : dropNewline (seg ++ [10]) = dropCR seg := by
  simp [dropNewline, dropCR]

theorem readLine_line {seg post : List UInt8} (h : 10 ∉ seg) (hlen : seg.length < bufSize) :
    readLine (seg ++ 10 :: post) = (dropCR seg, false, none, post) := by
  simp [readLine, readSlice_line h hlen, dropNewline_append]

theorem readLine_full {rest : List UInt8} (h : 10 ∉ rest.take bufSize) (hlen : bufSize ≤ rest.length) :
    readLine rest = (rest.take (chunkLen rest), true, none, rest.drop (chunkLen rest)) := by
  have hlt : bufSize - 1 < rest.length := by unfold bufSize at *; omega
  have htake : rest.take bufSize = rest.take (bufSize - 1) ++ [rest[bufSize - 1]] :=
    (List.take_concat_get' rest (bufSize - 1) hlt).symm
  by_cases hcr : (rest.take bufSize).getLast? = some 13
  · have hlast : rest[bufSize - 1] = 13 := by
      rw [htake, List.getLast?_concat] at hcr
      exact Option.some.inj hcr
    simp only [readLine, readSlice_full h hlen, chunkLen, hcr, if_true]
    rw [htake, List.dropLast_concat, ← hlast, List.drop_eq_getElem_cons hlt]
    rfl
  · simp [readLine, readSlice_full h hlen, chunkLen, hcr]

theorem readLine_eof {rest : List UInt8} (h : 10 ∉ rest) (hlen : rest.length < bufSize) :
    readLine rest = if rest = [] then ([], false, some .eof, []) else (rest, false, none, []) := by
  have hd : dropNewline rest = rest := by
    cases hl : rest.getLast? with
    | none => simp [dropNewline, hl]
    | some b =>
        have : b ≠ 10 := fun hb => h (List.mem_of_getLast?_eq_some (hb ▸ hl))
        simp [dropNewline, hl, this]
  split_ifs with he
  · subst he; rfl
  · simp [readLine, readSlice_eof h hlen, he, hd]

/-- A call with `isPrefix` consumes a full buffer but for at most one byte. -/
theorem readLine_shorter {rest b rest' : List UInt8} {err : Option ReadErr}
    (h : readLine rest = (b, true, err, rest')) : rest'.length < rest.length := by
  unfold readLine at h
  split at h
  · obtain ⟨hlen, rfl⟩ := readSlice_bufferFull ‹_›
    split_ifs at h <;> cases h <;> simp [List.length_drop] <;> unfold bufSize at * <;> omega
  · split_ifs at h <;> cases h

theorem chunkLen_ge (rest : List UInt8) : bufSize - 1 ≤ chunkLen rest ∧ chunkLen rest ≤ bufSize := by
  unfold chunkLen; split_ifs <;> omega

/-- Removing a trailing `'\r'` touches only the last piece of a line. -/
theorem dropCR_append (a : List UInt8) {b : List UInt8} (hb : b ≠ []) :
    dropCR (a ++ b) = a ++ dropCR b := by
  simp [dropCR, List.getLast?_append, List.getLast?_eq_none_iff, hb, List.dropLast_append_of_ne_nil _ hb]
  split_ifs <;> rfl

/-- The chunk `ReadLine` returns and the rest of the line make up the line. -/
theorem take_append_dropCR_drop {seg : List UInt8} (hlen : bufSize ≤ seg.length) :
    seg.take (chunkLen seg) ++ dropCR (seg.drop (chunkLen seg)) = dropCR seg := by
  by_cases hne : seg.drop (chunkLen seg) = []
  · have hle := List.drop_eq_nil_iff.mp hne
    have hc : chunkLen seg = bufSize := by have := chunkLen_ge seg; omega
    have hs : seg.take bufSize = seg := List.take_of_length_le (by omega)
    have hcr : seg.getLast? ≠ some 13 := by
      intro h; unfold chunkLen at hc; rw [hs, if_pos h] at hc; simp [bufSize] at hc
    rw [hne, hc, hs]
    simp [dropCR, hcr]
  · rw [← dropCR_append _ hne, List.take_append_drop]

/-- Whether `ReadLine`, reading a final segment without `'\n'`, reaches the end
of the file exactly at the end of a full buffer: its next call then returns
`io.EOF` and no bytes. -/
def endsOnBuffer (seg : List UInt8) : Bool :=
  if _h : seg.length < bufSize then seg.isEmpty else endsOnBuffer (seg.drop (chunkLen seg))
termination_by seg.length
decreasing_by
  have := chunkLen_ge seg
  simp only [List.length_drop]
  unfold bufSize at *
  omega

/-! ## `readLineFrom` -/

/-- The loop of `readLineFrom`: `ReadLine` until a whole line, or `io.EOF`. -/
def readLineFrom.loop (rest ret : List UInt8) : List UInt8 × Option ReadErr :=
  match _h : readLine rest with
  | (b, isPrefix, err, rest') =>
      if err = some .eof then (ret, err)
      else if err ≠ none then ([], err)
      else if isPrefix then readLineFrom.loop rest' (ret ++ b)
      else (ret ++ b, none)
termination_by rest.length
decreasing_by exact readLine_shorter (by simpa [‹isPrefix = true›] using _h)

/-- `readLineFrom(f, offset)`: `Seek` to `offset`, then read one line with a
fresh reader. Seeking past the end is allowed; reads there return `io.EOF`. -/
def readLineFrom (content : List UInt8) (offset : Nat) : List UInt8 × Option ReadErr :=
  readLineFrom.loop (content.drop offset) []

namespace readLineFrom
variable {rest rest' ret b : List UInt8}

theorem loop_of_whole (h : readLine rest = (b, false, none, rest')) :
    loop rest ret = (ret ++ b, none) := by
  rw [loop]; split; rename_i heq; rw [h] at heq; cases heq; simp

theorem loop_of_more (h : readLine rest = (b, true, none, rest')) :
    loop rest ret = loop rest' (ret ++ b) := by
  rw [loop]; split; rename_i heq; rw [h] at heq; cases heq; simp

theorem loop_of_eof {p : Bool} (h : readLine rest = (b, p, some .eof, rest')) :
    loop rest ret = (ret, some .eof) := by
  rw [loop]; split; rename_i heq; rw [h] at heq; cases heq; simp

/-- **A terminated line is read whole**, however many buffers it spans, without
its `"\n"` or `"\r\n"`. -/
theorem loop_line {seg post : List UInt8} (h : 10 ∉ seg) :
    loop (seg ++ 10 :: post) ret = (ret ++ dropCR seg, none) := by
  obtain ⟨n, hn⟩ : ∃ n, seg.length = n := ⟨_, rfl⟩
  induction n using Nat.strong_induction_on generalizing seg ret with
  | _ n ih =>
    by_cases hlen : seg.length < bufSize
    · exact loop_of_whole (readLine_line h hlen)
    · have hs : (seg ++ 10 :: post).take bufSize = seg.take bufSize :=
        List.take_append_of_le_length (by omega)
      have hc : chunkLen (seg ++ 10 :: post) = chunkLen seg := by simp only [chunkLen, hs]
      have hcl := chunkLen_ge seg
      rw [loop_of_more (readLine_full (by rw [hs]; exact fun hm => h (List.mem_of_mem_take hm))
        (by simp; omega)), hc, List.take_append_of_le_length (by unfold bufSize at *; omega),
        List.drop_append_of_le_length (by unfold bufSize at *; omega),
        ih _ (by simp only [List.length_drop]; unfold bufSize at *; omega)
          (fun hm => h (List.mem_of_mem_drop hm)) rfl,
        List.append_assoc, take_append_dropCR_drop (by omega)]

/-- **A final segment is read whole** — unless its last full buffer ends exactly
at the end of the file, when the call after it returns `io.EOF` with the bytes. -/
theorem loop_final {seg : List UInt8} (h : 10 ∉ seg) :
    loop seg ret = (ret ++ seg, if endsOnBuffer seg then some .eof else none) := by
  obtain ⟨n, hn⟩ : ∃ n, seg.length = n := ⟨_, rfl⟩
  induction n using Nat.strong_induction_on generalizing seg ret with
  | _ n ih =>
    rw [endsOnBuffer]
    by_cases hlen : seg.length < bufSize
    · have hr := readLine_eof h hlen
      by_cases he : seg = []
      · subst he; simp [loop_of_eof (by simpa using hr), bufSize]
      · simp [loop_of_whole (by simpa [he] using hr), hlen, he]
    · have hcl := chunkLen_ge seg
      rw [loop_of_more (readLine_full (fun hm => h (List.mem_of_mem_take hm)) (by omega)),
        ih _ (by simp only [List.length_drop]; unfold bufSize at *; omega)
          (fun hm => h (List.mem_of_mem_drop hm)) rfl,
        List.append_assoc, List.take_append_drop]
      simp [hlen]

end readLineFrom

end Dagu.Jsondb
