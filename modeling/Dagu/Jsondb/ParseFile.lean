import Dagu.Jsondb.Bufio

/-! # `ParseFile`

`ParseFile` (`internal/persistence/jsondb/jsondb.go`, lines 363–396) reads a
status file one line at a time, each line with `readLineFrom` at an offset it
advances by the line's length plus one, and keeps the status of the last
non-empty line `model.StatusFromJSON` decodes. `StatusFromJSON` is not part of
the model: it is a parameter, any decoder of lines.

The loop terminates on every file: the offset grows on every line, and past the
end of the file `readLineFrom` returns `io.EOF` (`parseFile` is total). It
reads every line of a status file (`lines`, `parseSpec`), with one
exception: when the bytes after the last `'\n'` fill whole buffers exactly,
the last `ReadLine` returns `io.EOF` together with those bytes, and `ParseFile`
drops them (`parseFile_eq`). A file made of one 4096-byte status line without
a final newline is thus read as empty (`parseFile_full_buffer_line`). A file
whose bytes after the last `'\n'` are fewer than a buffer is read as
`parseSpec` says (`parseFile_eq_parseSpec`).
-/

namespace Dagu.Jsondb

variable {σ : Type} (statusFromJSON : List UInt8 → Option σ)

/-- The status the loop keeps after reading `line` (lines 387–393): the line's,
if it is not empty and decodes; the one it had otherwise. -/
def keep (ret : Option σ) (line : List UInt8) : Option σ :=
  if 0 < line.length then
    match statusFromJSON line with
    | some m => some m
    | none => ret
  else ret

/-- Past the end of the file, `readLineFrom` returns `io.EOF`. -/
theorem readLineFrom_past_end {content : List UInt8} {offset : Nat} (h : content.length ≤ offset) :
    readLineFrom content offset = ([], some .eof) := by
  rw [readLineFrom, List.drop_eq_nil_of_le h]
  exact readLineFrom.loop_of_eof (show readLine [] = ([], false, some .eof, []) from rfl)

theorem offset_lt_of_readLineFrom {content line : List UInt8} {offset : Nat}
    (h : readLineFrom content offset = (line, none)) : offset < content.length := by
  by_contra hle
  rw [readLineFrom_past_end (by omega)] at h
  cases h

/-- What `ParseFile` returns at `io.EOF` (lines 378–382). -/
def atEOF : Option σ → Except ReadErr σ
  | none => .error .eof
  | some r => .ok r

/-- The loop of `ParseFile`, from `offset` with the status `ret` kept so far. -/
def parseFile.loop (content : List UInt8) (offset : Nat) (ret : Option σ) : Except ReadErr σ :=
  match _h : readLineFrom content offset with
  | (_, some .eof) => atEOF ret
  | (_, some e) => .error e
  | (line, none) => parseFile.loop content (offset + line.length + 1) (keep statusFromJSON ret line)
termination_by content.length + 1 - offset
decreasing_by have := offset_lt_of_readLineFrom _h; omega

/-- `ParseFile(file)` on a file whose bytes are `content`. -/
def parseFile (content : List UInt8) : Except ReadErr σ :=
  parseFile.loop statusFromJSON content 0 none

/-! ## The lines of a status file -/

/-- Split at every `'\n'`; a terminated segment loses a trailing `'\r'`, so that
`"\r\n"` and `"\n"` both end a line; the bytes after the last `'\n'` are a
line as they are. -/
def splitLines (cur : List UInt8) : List UInt8 → List (List UInt8)
  | [] => [cur]
  | b :: bs => if b = 10 then dropCR cur :: splitLines [] bs else splitLines (cur ++ [b]) bs

/-- The lines of a status file: the final segment counts even without a `'\n'`. -/
def lines (content : List UInt8) : List (List UInt8) := splitLines [] content

/-- **What `ParseFile` is for**: the status decoded from the last non-empty line that
decodes, and `io.EOF` when no line does. -/
def parseSpec (content : List UInt8) : Except ReadErr σ :=
  atEOF (((lines content).filterMap fun l => if l = [] then none else statusFromJSON l).getLast?)

theorem splitLines_line {seg post : List UInt8} (h : 10 ∉ seg) (cur : List UInt8) :
    splitLines cur (seg ++ 10 :: post) = dropCR (cur ++ seg) :: splitLines [] post := by
  induction seg generalizing cur with
  | nil => simp [splitLines]
  | cons b seg ih =>
      simp only [List.mem_cons, not_or] at h
      simp [splitLines, Ne.symm h.1, ih h.2]

theorem splitLines_final {final : List UInt8} (h : 10 ∉ final) (cur : List UInt8) :
    splitLines cur final = [cur ++ final] := by
  induction final generalizing cur with
  | nil => simp [splitLines]
  | cons b final ih =>
      simp only [List.mem_cons, not_or] at h
      simp [splitLines, Ne.symm h.1, ih h.2]

/-- Folding `keep` over the lines keeps the last non-empty line that decodes. -/
theorem foldl_keep (L : List (List UInt8)) (ret : Option σ) :
    L.foldl (keep statusFromJSON) ret =
      ((L.filterMap fun l => if l = [] then none else statusFromJSON l).getLast?).or ret := by
  induction L generalizing ret with
  | nil => rfl
  | cons a L ih =>
      rw [List.foldl_cons, ih]
      by_cases ha : a = []
      · simp [ha, keep]
      · have hpos : 0 < a.length := List.length_pos.mpr ha
        cases hd : statusFromJSON a with
        | none => simp [keep, ha, hd]
        | some m =>
            simp only [keep, hpos, if_true, hd, List.filterMap_cons, ha, if_false]
            cases hl : (L.filterMap fun l => if l = [] then none else statusFromJSON l).getLast? <;>
              simp [List.getLast?_cons, hl]

/-- The first `'\n'` of a byte string that has one. -/
theorem exists_first_newline : ∀ {l : List UInt8}, 10 ∈ l →
    ∃ seg post, l = seg ++ 10 :: post ∧ 10 ∉ seg
  | b :: l, h => by
      by_cases hb : b = 10
      · exact ⟨[], l, by simp [hb], by simp⟩
      · obtain ⟨seg, post, rfl, hs⟩ := exists_first_newline (by simpa [Ne.symm hb] using h)
        exact ⟨b :: seg, post, rfl, by simp [hs, Ne.symm hb]⟩

/-! ## The loop, one line at a time -/

namespace parseFile
variable {statusFromJSON} {content line : List UInt8} {offset : Nat} {ret : Option σ}

theorem loop_of_eof (h : readLineFrom content offset = (line, some .eof)) :
    loop statusFromJSON content offset ret = atEOF ret := by
  rw [loop]; split <;> simp_all

theorem loop_of_line (h : readLineFrom content offset = (line, none)) :
    loop statusFromJSON content offset ret =
      loop statusFromJSON content (offset + line.length + 1) (keep statusFromJSON ret line) := by
  rw [loop]; split <;> simp_all

/-- **One terminated line**, read whole and, when it ended in `"\r\n"`, followed
by the empty line that starts at its `'\n'`. -/
theorem loop_line {pre seg post : List UInt8} (hc : content = pre ++ seg ++ 10 :: post)
    (h : 10 ∉ seg) :
    loop statusFromJSON content pre.length ret =
      loop statusFromJSON content (pre.length + seg.length + 1)
        (keep statusFromJSON ret (dropCR seg)) := by
  have hr : readLineFrom content pre.length = (dropCR seg, none) := by
    rw [readLineFrom, hc, List.append_assoc, List.drop_left]
    exact readLineFrom.loop_line h
  rw [loop_of_line hr]
  by_cases hcr : seg.getLast? = some 13
  · have hne : seg ≠ [] := by rintro rfl; simp at hcr
    have hlen : (dropCR seg).length + 1 = seg.length := by
      simp [dropCR, hcr]; have := List.length_pos.mpr hne; omega
    have hr' : readLineFrom content (pre.length + seg.length) = ([], none) := by
      rw [readLineFrom, hc, List.drop_left' (by simp)]
      exact (readLineFrom.loop_line (by simp) : readLineFrom.loop ([] ++ 10 :: post) [] = _)
    rw [Nat.add_assoc, hlen, loop_of_line hr']
    simp [keep]
  · simp [dropCR, hcr]

/-- **The final segment**, read whole unless it ends on a buffer. -/
theorem loop_final {pre final : List UInt8} (hc : content = pre ++ final) (h : 10 ∉ final) :
    loop statusFromJSON content pre.length ret =
      atEOF (if endsOnBuffer final then ret else keep statusFromJSON ret final) := by
  have hr : readLineFrom content pre.length =
      (final, if endsOnBuffer final then some .eof else none) := by
    rw [readLineFrom, hc, List.drop_left]
    exact readLineFrom.loop_final h
  by_cases he : endsOnBuffer final
  · rw [loop_of_eof (by simpa [he] using hr), if_pos he]
  · rw [loop_of_line (by simpa [he] using hr), if_neg he]
    exact loop_of_eof (readLineFrom_past_end (by rw [hc, List.length_append]; omega))

/-- From the start of a `body` made of whole lines, the loop reads those lines,
then the final segment unless it ends on a buffer. -/
theorem loop_body {final : List UInt8} (hfinal : 10 ∉ final) (n : Nat) :
    ∀ (pre body : List UInt8) (ret : Option σ), body.length = n →
      (body = [] ∨ body.getLast? = some 10) →
      loop statusFromJSON (pre ++ body ++ final) pre.length ret =
        atEOF ((lines (body ++ if endsOnBuffer final then [] else final)).foldl
          (keep statusFromJSON) ret) := by
  induction n using Nat.strong_induction_on with
  | _ n ih =>
    intro pre body ret hn hbody
    rcases hbody with rfl | hlast
    · rw [loop_final (by simp) hfinal]
      split_ifs <;> simp [lines, splitLines, splitLines_final hfinal, keep]
    · obtain ⟨seg, post, rfl, hseg⟩ := exists_first_newline (List.mem_of_getLast?_eq_some hlast)
      have hpost : post = [] ∨ post.getLast? = some 10 := by
        rcases post.eq_nil_or_concat with rfl | ⟨L, b, rfl⟩
        · exact .inl rfl
        · right
          rw [List.concat_eq_append, show seg ++ 10 :: (L ++ [b]) = (seg ++ 10 :: L) ++ [b] by simp,
            List.getLast?_concat] at hlast
          rw [List.concat_eq_append, List.getLast?_concat, hlast]
      rw [loop_line (show pre ++ (seg ++ 10 :: post) ++ final = pre ++ seg ++ 10 :: (post ++ final)
          by simp) hseg,
        show pre.length + seg.length + 1 = (pre ++ seg ++ [10]).length by simp; omega,
        show pre ++ (seg ++ 10 :: post) ++ final = pre ++ seg ++ [10] ++ post ++ final by simp,
        ih post.length (by simp at hn; omega) _ post _ rfl hpost]
      simp [lines, splitLines_line hseg]

end parseFile

/-- **What `ParseFile` returns.** Split a status file at its last `'\n'` into
whole lines and a final segment: `ParseFile` is `parseSpec` on the file, but
without the final segment when that segment fills whole buffers exactly. -/
theorem parseFile_eq {body final : List UInt8} (hbody : body = [] ∨ body.getLast? = some 10)
    (hfinal : 10 ∉ final) :
    parseFile statusFromJSON (body ++ final) =
      parseSpec statusFromJSON (body ++ if endsOnBuffer final then [] else final) := by
  have h : parseFile.loop statusFromJSON ([] ++ body ++ final) ([] : List UInt8).length none = _ :=
    parseFile.loop_body hfinal body.length [] body none rfl hbody
  rw [List.nil_append, List.length_nil] at h
  rw [parseFile, parseSpec, h, foldl_keep, Option.or_none]

/-- A status line that fills one buffer exactly: `{`, 4094 spaces, `}`, with no
final newline. -/
def fullBufferLine : List UInt8 := (123 :: List.replicate 4094 32) ++ [125]

theorem length_fullBufferLine : fullBufferLine.length = bufSize := by
  simp only [fullBufferLine, List.length_append, List.length_cons, List.length_replicate,
    List.length_singleton]
  rfl

theorem endsOnBuffer_fullBufferLine : endsOnBuffer fullBufferLine = true := by
  have hc : chunkLen fullBufferLine = bufSize := by
    rw [chunkLen, List.take_of_length_le length_fullBufferLine.le]
    simp only [fullBufferLine, List.getLast?_concat]
    rfl
  rw [endsOnBuffer, dif_neg (by rw [length_fullBufferLine]; omega), hc,
    List.drop_of_length_le length_fullBufferLine.le, endsOnBuffer, dif_pos (by simp [bufSize])]
  rfl

/-- **`ParseFile` misses a line that fills a buffer**: on a file holding only
`fullBufferLine`, it returns `io.EOF` whatever the decoder, where `parseSpec` has the
line's status whenever it decodes. -/
theorem parseFile_full_buffer_line :
    parseFile statusFromJSON fullBufferLine = .error .eof ∧
      parseSpec statusFromJSON fullBufferLine = atEOF (statusFromJSON fullBufferLine) := by
  have hnl : 10 ∉ fullBufferLine := by
    simp only [fullBufferLine, List.mem_append, List.mem_cons, List.mem_replicate,
      List.mem_singleton]
    decide
  constructor
  · have h := parseFile_eq statusFromJSON (.inl rfl) hnl
    rw [List.nil_append, endsOnBuffer_fullBufferLine, if_pos rfl] at h
    rw [h]; rfl
  · have hne : fullBufferLine ≠ [] :=
      List.ne_nil_of_length_pos (by rw [length_fullBufferLine]; decide)
    rw [parseSpec, lines, splitLines_final hnl]
    simp only [List.nil_append, List.filterMap_cons, if_neg hne, List.filterMap_nil]
    cases statusFromJSON fullBufferLine <;> rfl

end Dagu.Jsondb
