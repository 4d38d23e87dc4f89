import Mathlib.Data.Set.Function
import Dagu.Go.Utf8

/-! # Passing parameters to `start`

`engineImpl.Start` runs the executable as `start -p "<params>" <location>`,
with `params` written by `escapeArg(params, false)` (the `engine` package,
lines 107–126 and 303–319). Go strings are bytes: `escapeArg` ranges over the
runes of `input` (`runes`) and writes a carriage return as `\r`, a newline as
`\n` and, when `doubleQuotes` is set, a double quote as `\"`, and every other
rune with `WriteRune` (`encodeRune`).

Two things make `escapeArg` forget its input (`escapeArg_not_injective`). It
leaves backslashes alone, so a backslash followed by `n` reads the same as the
newline it escapes. And `range` reads a byte that starts no UTF-8 sequence as
U+FFFD, which `WriteRune` writes as three bytes, so `"\xff"` and
`"\xef\xbf\xbd"` give the same text. On valid UTF-8 without a backslash byte
the escapes can be read back (`unescape_escapeArg`), so there `escapeArg` is
injective (`escapeArg_injOn`), and so is the command line `Start` builds
(`startArgs_injOn`).
-/

namespace Dagu.Engine

open Dagu.Go

/-- The bytes of a Go string literal: the UTF-8 encoding of its runes. -/
def goString (s : String) : List UInt8 := s.data.flatMap encodeRune

/-- What `escapeArg` writes for one rune (lines 306–316): an escape through
`WriteString`, or the rune itself through `WriteRune`. -/
def escapeRune (doubleQuotes : Bool) (char : Char) : List UInt8 :=
  if char = '\r' then goString "\\r"
  else if char = '\n' then goString "\\n"
  else if char = '"' ∧ doubleQuotes = true then goString "\\\""
  else encodeRune char

/-- `escapeArg` (lines 303–319): each rune of `input`, escaped, appended to a
`strings.Builder`. -/
def escapeArg (input : List UInt8) (doubleQuotes : Bool) : List UInt8 :=
  (runes input).foldl (fun escaped char => escaped ++ escapeRune doubleQuotes char) []

/-- The arguments `engineImpl.Start` passes to the executable (lines 108–113);
``fmt.Sprintf(`"%s"`, ...)`` puts the escaped text between double quotes. -/
def startArgs (params location : List UInt8) : List (List UInt8) :=
  if params ≠ [] then
    [goString "start", goString "-p", goString "\"" ++ escapeArg params false ++ goString "\"", location]
  else [goString "start", location]

theorem escapeArg_eq (input : List UInt8) (doubleQuotes : Bool) :
    escapeArg input doubleQuotes = (runes input).flatMap (escapeRune doubleQuotes) := by
  suffices h : ∀ (l : List Char) (acc : List UInt8),
      l.foldl (fun escaped char => escaped ++ escapeRune doubleQuotes char) acc =
        acc ++ l.flatMap (escapeRune doubleQuotes) from h _ []
  intro l
  induction l with
  | nil => simp
  | cons c l ih => intro acc; simp [ih]

/-- On a valid string `escapeArg` escapes the runes the string encodes. -/
theorem escapeArg_encodeRunes (rs : List Char) (doubleQuotes : Bool) :
    escapeArg (rs.flatMap encodeRune) doubleQuotes = rs.flatMap (escapeRune doubleQuotes) := by
  rw [escapeArg_eq, runes_encodeRunes]

/-- **`escapeArg` is not injective**, for either value of `doubleQuotes`, on
valid UTF-8 (a newline and a backslash followed by `n`) nor on strings without a
backslash (the invalid byte `0xFF` and the encoding of U+FFFD). -/
theorem escapeArg_not_injOn (doubleQuotes : Bool) :
    ¬ Set.InjOn (escapeArg · doubleQuotes) {input | ValidUTF8 input} ∧
      ¬ Set.InjOn (escapeArg · doubleQuotes) {input | (0x5C : UInt8) ∉ input} := by
  have hnl : escapeArg [0x0A] doubleQuotes = escapeArg [0x5C, 0x6E] doubleQuotes := by
    rw [show [(0x0A : UInt8)] = ['\n'].flatMap encodeRune by decide,
      show [(0x5C : UInt8), 0x6E] = ['\\', 'n'].flatMap encodeRune by decide,
      escapeArg_encodeRunes, escapeArg_encodeRunes]
    cases doubleQuotes <;> decide
  have hff : escapeArg [0xFF] doubleQuotes = escapeArg [0xEF, 0xBF, 0xBD] doubleQuotes := by
    rw [show [(0xEF : UInt8), 0xBF, 0xBD] = [runeError].flatMap encodeRune by decide, escapeArg_encodeRunes,
      escapeArg_eq, runes_invalid (show lead (0xFF : UInt8).toNat = .invalid by decide), runes]
  exact ⟨fun h => absurd (h ⟨['\n'], rfl⟩ ⟨['\\', 'n'], rfl⟩ hnl) (by decide),
    fun h => absurd (h (by decide) (by decide) hff) (by decide)⟩

theorem escapeArg_not_injective :
    (¬ Set.InjOn (escapeArg · false) {input | ValidUTF8 input} ∧
      ¬ Set.InjOn (escapeArg · false) {input | (0x5C : UInt8) ∉ input}) ∧
    (¬ Set.InjOn (escapeArg · true) {input | ValidUTF8 input} ∧
      ¬ Set.InjOn (escapeArg · true) {input | (0x5C : UInt8) ∉ input}) :=
  ⟨escapeArg_not_injOn false, escapeArg_not_injOn true⟩

/-! ## Reading the escapes back -/

/-- The character an escape `\c` stands for. -/
def unescapeChar (c : Char) : Char :=
  if c = 'r' then '\r' else if c = 'n' then '\n' else c

/-- Reading the runes of an escaped argument back: a backslash and the rune
after it stand for `unescapeChar` of that rune. -/
def unescape : List Char → List Char
  | [] => []
  | [c] => [c]
  | c :: d :: rest => if c = '\\' then unescapeChar d :: unescape rest else c :: unescape (d :: rest)

theorem unescape_cons {c : Char} (hc : c ≠ '\\') (l : List Char) :
    unescape (c :: l) = c :: unescape l := by
  cases l with
  | nil => rfl
  | cons d rest => simp [unescape, hc]

/-- What `escapeArg` writes for a rune other than a backslash encodes runes
that read back as that rune. -/
theorem escapeRune_unescape {c : Char} (hc : c ≠ '\\') (doubleQuotes : Bool) :
    ∃ cs : List Char, escapeRune doubleQuotes c = cs.flatMap encodeRune ∧
      ∀ l, unescape (cs ++ l) = c :: unescape l := by
  unfold escapeRune
  split_ifs with h1 h2 h3
  · exact ⟨['\\', 'r'], rfl, fun l => by subst h1; rfl⟩
  · exact ⟨['\\', 'n'], rfl, fun l => by subst h2; rfl⟩
  · exact ⟨['\\', '"'], rfl, fun l => by rw [h3.1]; rfl⟩
  · exact ⟨[c], by rw [List.flatMap_cons, List.flatMap_nil, List.append_nil], unescape_cons hc⟩

/-- The escaped runes of a list without a backslash read back as the list. -/
theorem flatMap_escapeRune_unescape {l : List Char} (h : '\\' ∉ l) (doubleQuotes : Bool) :
    ∃ cs : List Char, l.flatMap (escapeRune doubleQuotes) = cs.flatMap encodeRune ∧ unescape cs = l := by
  induction l with
  | nil => exact ⟨[], rfl, rfl⟩
  | cons c l ih =>
      rw [List.mem_cons, not_or] at h
      obtain ⟨cs, hcs, hl⟩ := ih h.2
      obtain ⟨ds, hds, hc⟩ := escapeRune_unescape (Ne.symm h.1) doubleQuotes
      exact ⟨ds ++ cs, by rw [List.flatMap_cons, List.flatMap_append, hds, hcs], by rw [hc, hl]⟩

/-- A valid string has a backslash rune only where it has the backslash byte. -/
theorem backslash_not_mem_runes {input : List UInt8} (hv : ValidUTF8 input) (h : (0x5C : UInt8) ∉ input) :
    '\\' ∉ runes input := by
  obtain ⟨rs, rfl⟩ := hv
  rw [runes_encodeRunes]
  exact fun hr => h (List.mem_flatMap.2 ⟨'\\', hr, List.mem_singleton_self _⟩)

/-- **Round trip:** the runes of an escaped valid argument without a backslash
read back as the argument's runes. -/
theorem unescape_escapeArg {input : List UInt8} (hv : ValidUTF8 input) (h : (0x5C : UInt8) ∉ input)
    (doubleQuotes : Bool) : unescape (runes (escapeArg input doubleQuotes)) = runes input := by
  obtain ⟨cs, hcs, hl⟩ := flatMap_escapeRune_unescape (backslash_not_mem_runes hv h) doubleQuotes
  rw [escapeArg_eq, hcs, runes_encodeRunes, hl]

/-- **`escapeArg` is injective on valid UTF-8 without a backslash byte**, for
each value of `doubleQuotes`. -/
theorem escapeArg_injOn (doubleQuotes : Bool) :
    Set.InjOn (escapeArg · doubleQuotes) {input | ValidUTF8 input ∧ (0x5C : UInt8) ∉ input} := by
  intro a ha b hb h
  apply runes_injOn ha.1 hb.1
  rw [← unescape_escapeArg ha.1 ha.2 doubleQuotes, ← unescape_escapeArg hb.1 hb.2 doubleQuotes]
  exact congrArg (unescape ∘ runes) h

/-- **`Start` passes its parameters recoverably** when they are valid UTF-8
without a backslash: for a fixed DAG location, the arguments determine the
parameters. -/
theorem startArgs_injOn (location : List UInt8) :
    Set.InjOn (startArgs · location) {params | ValidUTF8 params ∧ (0x5C : UInt8) ∉ params} := by
  intro a ha b hb h
  simp only [startArgs] at h
  split_ifs at h with ha' hb' hb'
  · have hq : escapeArg a false = escapeArg b false := by
      simp only [List.cons.injEq, and_true, true_and, List.append_cancel_right_eq,
        List.append_cancel_left_eq] at h
      exact h
    apply runes_injOn ha.1 hb.1
    rw [← unescape_escapeArg ha.1 ha.2 false, ← unescape_escapeArg hb.1 hb.2 false, hq]
  all_goals simp_all

end Dagu.Engine
