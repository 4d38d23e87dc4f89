import Mathlib.Data.Set.Function

/-! # The runes of a Go string

A Go `string` is a sequence of bytes. `for _, r := range s` reads it as runes:
each UTF-8 sequence gives its code point, and a byte that starts no valid
sequence gives `utf8.RuneError` (U+FFFD) and is skipped alone (`runes`, which
follows `utf8.DecodeRuneInString` with its tables `first` and `acceptRanges`).
`strings.Builder.WriteRune` appends the UTF-8 bytes of a rune (`encodeRune`,
as `utf8.AppendRune` writes them).

Reading back the bytes `WriteRune` wrote gives the rune (`runes_encodeRune`).
A valid UTF-8 string is the encoding of a list of runes (`ValidUTF8`); `range`
reads that list back (`runes_encodeRunes`), so it tells valid strings apart
(`runes_injOn`). An invalid byte reads as `RuneError` (`runes_invalid`), as do
the three bytes that encode it (`encodeRune_runeError`), so on strings that are
not valid `range` forgets bytes.

Bytes are compared and combined as numbers: `s0 & mask2` keeps the low five
bits, `s0 % 32`, and the shifted fields that `|` joins do not overlap, so the
join is their sum.
-/

namespace Dagu.Go

/-- `utf8.RuneError`, U+FFFD. -/
def runeError : Char := Char.ofNat 0xFFFD

/-- What a first byte says, as `utf8`'s table `first` records it: an ASCII
byte (`as`), a byte that starts no sequence (`xx`), or the start of a sequence
of two, three or four bytes whose second byte lies in `lo` to `hi` (its entry
of `acceptRanges`). -/
inductive Lead where
  | ascii
  | invalid
  | two (lo hi : Nat)
  | three (lo hi : Nat)
  | four (lo hi : Nat)
  deriving DecidableEq, Repr

/-- `first[b]`. -/
def lead (b : Nat) : Lead :=
  if b < 0x80 then .ascii
  else if b < 0xC2 then .invalid
  else if b ≤ 0xDF then .two 0x80 0xBF
  else if b = 0xE0 then .three 0xA0 0xBF
  else if b = 0xED then .three 0x80 0x9F
  else if b ≤ 0xEF then .three 0x80 0xBF
  else if b = 0xF0 then .four 0x90 0xBF
  else if b ≤ 0xF3 then .four 0x80 0xBF
  else if b = 0xF4 then .four 0x80 0x8F
  else .invalid

/-- `utf8.DecodeRuneInString(s)`: the first rune of `s` and the bytes after
it. A sequence whose first byte, second byte in its range and continuation
bytes (`0x80` to `0xBF`) are all there gives its code point; any other first
byte gives `RuneError` and is skipped alone. -/
def decodeRune : List UInt8 → Char × List UInt8
  | [] => (runeError, [])
  | s0 :: s =>
      match lead s0.toNat, s with
      | .ascii, _ => (Char.ofNat s0.toNat, s)
      | .two lo hi, s1 :: s' =>
          if lo ≤ s1.toNat ∧ s1.toNat ≤ hi then (Char.ofNat ((s0.toNat % 32) * 64 + s1.toNat % 64), s')
          else (runeError, s)
      | .three lo hi, s1 :: s2 :: s' =>
          if lo ≤ s1.toNat ∧ s1.toNat ≤ hi ∧ 0x80 ≤ s2.toNat ∧ s2.toNat ≤ 0xBF then
            (Char.ofNat ((s0.toNat % 16) * 4096 + (s1.toNat % 64) * 64 + s2.toNat % 64), s')
          else (runeError, s)
      | .four lo hi, s1 :: s2 :: s3 :: s' =>
          if lo ≤ s1.toNat ∧ s1.toNat ≤ hi ∧ 0x80 ≤ s2.toNat ∧ s2.toNat ≤ 0xBF ∧ 0x80 ≤ s3.toNat ∧
              s3.toNat ≤ 0xBF then
            (Char.ofNat ((s0.toNat % 8) * 262144 + (s1.toNat % 64) * 4096 + (s2.toNat % 64) * 64 + s3.toNat % 64), s')
          else (runeError, s)
      | _, _ => (runeError, s)

/-- What `DecodeRuneInString` leaves of a string that is not empty is shorter. -/
theorem decodeRune_length (s0 : UInt8) (s : List UInt8) : (decodeRune (s0 :: s)).2.length < (s0 :: s).length := by
  rw [decodeRune.eq_def]
  dsimp only
  split <;> (try split_ifs) <;> simp only [List.length_cons] <;> omega

/-- `for _, r := range s`: the runes of the bytes `s`, one `DecodeRuneInString`
at a time. -/
def runes : List UInt8 → List Char
  | [] => []
  | s0 :: s => (decodeRune (s0 :: s)).1 :: runes (decodeRune (s0 :: s)).2
termination_by s => s.length
decreasing_by exact decodeRune_length s0 s

/-- `utf8.AppendRune`: the UTF-8 bytes of a rune, as `WriteRune` appends them.
A `Char` is a Unicode scalar value, so the branch of `EncodeRune` for
surrogates and values above `MaxRune` never applies. -/
def encodeRune (r : Char) : List UInt8 :=
  if r.toNat < 0x80 then [UInt8.ofNat r.toNat]
  else if r.toNat < 0x800 then [UInt8.ofNat (0xC0 + r.toNat / 64), UInt8.ofNat (0x80 + r.toNat % 64)]
  else if r.toNat < 0x10000 then
    [UInt8.ofNat (0xE0 + r.toNat / 4096), UInt8.ofNat (0x80 + r.toNat / 64 % 64), UInt8.ofNat (0x80 + r.toNat % 64)]
  else
    [UInt8.ofNat (0xF0 + r.toNat / 262144), UInt8.ofNat (0x80 + r.toNat / 4096 % 64),
      UInt8.ofNat (0x80 + r.toNat / 64 % 64), UInt8.ofNat (0x80 + r.toNat % 64)]

/-- A valid UTF-8 string: the UTF-8 encoding of some runes. -/
def ValidUTF8 (s : List UInt8) : Prop := ∃ rs : List Char, s = rs.flatMap encodeRune

/-! ## The first byte and `DecodeRuneInString` -/

section Decode

variable {b : Nat} {s0 s1 s2 s3 : UInt8} {lo hi : Nat}

theorem lead_ascii (h : b < 0x80) : lead b = .ascii := by
  rw [lead, if_pos h]

theorem lead_two (h1 : 0xC2 ≤ b) (h2 : b ≤ 0xDF) : lead b = .two 0x80 0xBF := by
  rw [lead, if_neg (by omega), if_neg (by omega), if_pos h2]

/-- A first byte of three bytes, and a second byte in its range. -/
theorem lead_three (h1 : 0xE0 ≤ b) (h2 : b ≤ 0xEF) {c : Nat} (hc : 0x80 ≤ c ∧ c ≤ 0xBF)
    (he0 : b = 0xE0 → 0xA0 ≤ c) (hed : b = 0xED → c ≤ 0x9F) : ∃ lo hi, lead b = .three lo hi ∧ lo ≤ c ∧ c ≤ hi := by
  rw [lead, if_neg (by omega), if_neg (by omega), if_neg (by omega)]
  split_ifs with h0 hd
  · exact ⟨_, _, rfl, he0 h0, hc.2⟩
  · exact ⟨_, _, rfl, hc.1, hed hd⟩
  · exact ⟨_, _, rfl, hc⟩

/-- A first byte of four bytes, and a second byte in its range. -/
theorem lead_four (h1 : 0xF0 ≤ b) (h2 : b ≤ 0xF4) {c : Nat} (hc : 0x80 ≤ c ∧ c ≤ 0xBF)
    (hf0 : b = 0xF0 → 0x90 ≤ c) (hf4 : b = 0xF4 → c ≤ 0x8F) : ∃ lo hi, lead b = .four lo hi ∧ lo ≤ c ∧ c ≤ hi := by
  rw [lead, if_neg (by omega), if_neg (by omega), if_neg (by omega), if_neg (by omega), if_neg (by omega),
    if_neg (by omega)]
  split_ifs with h0 h3 h4
  · exact ⟨_, _, rfl, hf0 h0, hc.2⟩
  · exact ⟨_, _, rfl, hc⟩
  · exact ⟨_, _, rfl, hc.1, hf4 h4⟩
  · omega

theorem decodeRune_ascii (h : s0.toNat < 0x80) (s : List UInt8) : decodeRune (s0 :: s) = (Char.ofNat s0.toNat, s) := by
  rw [decodeRune.eq_def]
  dsimp only
  rw [lead_ascii h]

theorem decodeRune_invalid (h : lead s0.toNat = .invalid) (s : List UInt8) : decodeRune (s0 :: s) = (runeError, s) := by
  rw [decodeRune.eq_def]
  dsimp only
  rw [h]

theorem decodeRune_two (h : lead s0.toNat = .two lo hi) (h1 : lo ≤ s1.toNat ∧ s1.toNat ≤ hi) (s : List UInt8) :
    decodeRune (s0 :: s1 :: s) = (Char.ofNat ((s0.toNat % 32) * 64 + s1.toNat % 64), s) := by
  rw [decodeRune.eq_def]
  dsimp only
  rw [h]
  exact if_pos h1

theorem decodeRune_three (h : lead s0.toNat = .three lo hi)
    (h1 : lo ≤ s1.toNat ∧ s1.toNat ≤ hi ∧ 0x80 ≤ s2.toNat ∧ s2.toNat ≤ 0xBF) (s : List UInt8) :
    decodeRune (s0 :: s1 :: s2 :: s) =
      (Char.ofNat ((s0.toNat % 16) * 4096 + (s1.toNat % 64) * 64 + s2.toNat % 64), s) := by
  rw [decodeRune.eq_def]
  dsimp only
  rw [h]
  exact if_pos h1

theorem decodeRune_four (h : lead s0.toNat = .four lo hi)
    (h1 : lo ≤ s1.toNat ∧ s1.toNat ≤ hi ∧ 0x80 ≤ s2.toNat ∧ s2.toNat ≤ 0xBF ∧ 0x80 ≤ s3.toNat ∧ s3.toNat ≤ 0xBF)
    (s : List UInt8) :
    decodeRune (s0 :: s1 :: s2 :: s3 :: s) =
      (Char.ofNat ((s0.toNat % 8) * 262144 + (s1.toNat % 64) * 4096 + (s2.toNat % 64) * 64 + s3.toNat % 64), s) := by
  rw [decodeRune.eq_def]
  dsimp only
  rw [h]
  exact if_pos h1

end Decode

/-! ## Reading back what `WriteRune` wrote -/

theorem toNat_ofNat_byte {n : Nat} (h : n < 256) : (UInt8.ofNat n).toNat = n := UInt8.toNat_ofNat_of_lt h

/-- A continuation byte carries six bits of the rune. -/
theorem cont_mod (x : Nat) : (0x80 + x % 64) % 64 = x % 64 := by omega

/-! The bits `DecodeRuneInString` joins are those `EncodeRune` split. -/

theorem encodeRune_two_bits {v : Nat} (h : v < 0x800) : (0xC0 + v / 64) % 32 * 64 + (0x80 + v % 64) % 64 = v := by
  rw [cont_mod]
  omega

theorem encodeRune_three_bits {v : Nat} (h : v < 0x10000) :
    (0xE0 + v / 4096) % 16 * 4096 + (0x80 + v / 64 % 64) % 64 * 64 + (0x80 + v % 64) % 64 = v := by
  rw [cont_mod, cont_mod, show v / 4096 = v / 64 / 64 by rw [Nat.div_div_eq_div_mul]]
  omega

theorem encodeRune_four_bits {v : Nat} (h : v < 0x110000) :
    (0xF0 + v / 262144) % 8 * 262144 + (0x80 + v / 4096 % 64) % 64 * 4096 + (0x80 + v / 64 % 64) % 64 * 64 +
      (0x80 + v % 64) % 64 = v := by
  rw [cont_mod, cont_mod, cont_mod, show v / 262144 = v / 64 / 64 / 64 by simp only [Nat.div_div_eq_div_mul],
    show v / 4096 = v / 64 / 64 by rw [Nat.div_div_eq_div_mul]]
  omega

/-- **`DecodeRuneInString` reads the rune `WriteRune` wrote**, and leaves the
bytes after it. -/
theorem decodeRune_encodeRune (r : Char) (rest : List UInt8) : decodeRune (encodeRune r ++ rest) = (r, rest) := by
  have hv : r.toNat < 0xD800 ∨ (0xDFFF < r.toNat ∧ r.toNat < 0x110000) := r.valid
  have hr : ∀ {n : Nat}, n = r.toNat → Char.ofNat n = r := fun h => h ▸ Char.ofNat_toNat r
  unfold encodeRune
  split_ifs with h1 h2 h3
  · -- one byte
    have h0 := toNat_ofNat_byte (show r.toNat < 256 by omega)
    rw [List.singleton_append, decodeRune_ascii (by omega), h0, Char.ofNat_toNat]
  · -- two bytes
    have h0 := toNat_ofNat_byte (show 0xC0 + r.toNat / 64 < 256 by omega)
    have h1 := toNat_ofNat_byte (show 0x80 + r.toNat % 64 < 256 by omega)
    rw [List.cons_append, List.cons_append, List.nil_append,
      decodeRune_two (lead_two (by omega) (by omega)) (by omega), h0, h1, hr (encodeRune_two_bits h2)]
  · -- three bytes
    have h0 := toNat_ofNat_byte (show 0xE0 + r.toNat / 4096 < 256 by omega)
    have h1 := toNat_ofNat_byte (show 0x80 + r.toNat / 64 % 64 < 256 by omega)
    have h2 := toNat_ofNat_byte (show 0x80 + r.toNat % 64 < 256 by omega)
    obtain ⟨lo, hi, hl, hlo, hhi⟩ := lead_three (b := (UInt8.ofNat (0xE0 + r.toNat / 4096)).toNat)
      (c := (UInt8.ofNat (0x80 + r.toNat / 64 % 64)).toNat) (by omega) (by omega) (by omega) (by omega) (by omega)
    rw [List.cons_append, List.cons_append, List.cons_append, List.nil_append,
      decodeRune_three hl ⟨hlo, hhi, by omega, by omega⟩, h0, h1, h2, hr (encodeRune_three_bits h3)]
  · -- four bytes
    replace hv : r.toNat < 0x110000 := by omega
    have h0 := toNat_ofNat_byte (show 0xF0 + r.toNat / 262144 < 256 by omega)
    have h1 := toNat_ofNat_byte (show 0x80 + r.toNat / 4096 % 64 < 256 by omega)
    have h2 := toNat_ofNat_byte (show 0x80 + r.toNat / 64 % 64 < 256 by omega)
    have h3 := toNat_ofNat_byte (show 0x80 + r.toNat % 64 < 256 by omega)
    obtain ⟨lo, hi, hl, hlo, hhi⟩ := lead_four (b := (UInt8.ofNat (0xF0 + r.toNat / 262144)).toNat)
      (c := (UInt8.ofNat (0x80 + r.toNat / 4096 % 64)).toNat) (by omega) (by omega) (by omega) (by omega) (by omega)
    rw [List.cons_append, List.cons_append, List.cons_append, List.cons_append, List.nil_append,
      decodeRune_four hl ⟨hlo, hhi, by omega, by omega, by omega, by omega⟩, h0, h1, h2, h3, hr (encodeRune_four_bits hv)]

/-! ## `range` over a string -/

theorem runes_cons (s0 : UInt8) (s : List UInt8) :
    runes (s0 :: s) = (decodeRune (s0 :: s)).1 :: runes (decodeRune (s0 :: s)).2 := by
  rw [runes]

theorem encodeRune_ne_nil (r : Char) : encodeRune r ≠ [] := by
  unfold encodeRune
  split_ifs <;> simp

/-- `range` reads the rune `WriteRune` wrote, then goes on after it. -/
theorem runes_encodeRune (r : Char) (rest : List UInt8) : runes (encodeRune r ++ rest) = r :: runes rest := by
  obtain ⟨s0, s, hs⟩ := List.exists_cons_of_ne_nil (List.append_ne_nil_of_left_ne_nil (encodeRune_ne_nil r) rest)
  rw [hs, runes_cons, ← hs, decodeRune_encodeRune]

/-- **`range` over a valid string gives back the runes it encodes.** -/
theorem runes_encodeRunes (rs : List Char) : runes (rs.flatMap encodeRune) = rs := by
  induction rs with
  | nil => rw [List.flatMap_nil, runes]
  | cons r rs ih => rw [List.flatMap_cons, runes_encodeRune, ih]

/-- Two valid strings with the same runes are the same string. -/
theorem runes_injOn : Set.InjOn runes {s | ValidUTF8 s} := by
  rintro _ ⟨rs, rfl⟩ _ ⟨rs', rfl⟩ h
  rw [runes_encodeRunes, runes_encodeRunes] at h
  rw [h]

/-- A byte that starts no sequence reads as `RuneError`, alone. -/
theorem runes_invalid {s0 : UInt8} (h : lead s0.toNat = .invalid) (s : List UInt8) :
    runes (s0 :: s) = runeError :: runes s := by
  rw [runes_cons, decodeRune_invalid h]

theorem encodeRune_runeError : encodeRune runeError = [0xEF, 0xBF, 0xBD] := by decide

end Dagu.Go
