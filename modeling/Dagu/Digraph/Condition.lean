import Mathlib.Data.List.Basic

/-! # Preconditions

`EvalConditions` (the `digraph` package, `condition.go`) checks a step's
preconditions in order and returns the first error. Each `Condition` is
evaluated by `Condition.eval`: a non-empty `Condition` is expanded with
`EvalString` and compared with `Expected`; otherwise a non-empty `Command` is
expanded and run, directly or through the shell; a condition with neither is
invalid. `evalCondition` then sorts the failures: an error that already wraps
`ErrConditionNotMet` (a failing command) is returned as it is, any other error
is wrapped as "failed to evaluate condition", and a mismatch becomes a new
`ErrConditionNotMet` error.

Expansion and commands act on the outside world, so the model threads a world
`ω` through them; what they do to it, and what they return, is anything an
`Env ω` says. `EvalString` belongs to the `cmdutil` package and the contexts,
which cannot refer to this package's `ErrConditionNotMet`: its errors are plain
texts.
-/

namespace Dagu.Digraph

/-- `digraph.Condition`. -/
structure Condition where
  command : String
  condition : String
  expected : String
  deriving DecidableEq, Repr

/-- A Go `error` as the conditions build it: its text, and whether
`errors.Is(err, ErrConditionNotMet)`. -/
structure GoError where
  msg : String
  notMet : Bool
  deriving DecidableEq, Repr

/-- `ErrConditionNotMet`'s text. -/
def errConditionNotMet : String := "condition was not met"

/-- `fmt.Errorf("%w: %s", ErrConditionNotMet, detail)`. -/
def GoError.wrapNotMet (detail : String) : GoError := ⟨errConditionNotMet ++ ": " ++ detail, true⟩

/-- An error that does not wrap `ErrConditionNotMet`. -/
def GoError.plain (msg : String) : GoError := ⟨msg, false⟩

/-- What the evaluation context and the operating system provide, acting on the
world `ω`: `EvalString` as `Condition.evalCondition` calls it, `EvalString` as
`evalCommand` calls it (the same unless the context carries neither a step nor
a DAG context, when it falls back to `cmdutil.EvalString`), the shell
`cmdutil.GetShellCommand("")` names, and running a command line, which fails
with the text of its error. -/
structure Env (ω : Type) where
  evalString : String → ω → Except String String × ω
  evalCommandString : String → ω → Except String String × ω
  shell : String
  run : List String → ω → Except String Unit × ω

variable {ω : Type} (env : Env ω)

/-- `Condition.evalCondition` (lines 205–220). -/
def Condition.evalCondition (c : Condition) (w : ω) : Except GoError Bool × ω :=
  match env.evalString c.condition w with
  | (.error e, w') => (.error (.plain e), w')
  | (.ok v, w') => (.ok (c.expected == v), w')

/-- The command line `evalCommand` runs: the command itself, or the shell with
`-c` (lines 185–197). -/
def commandLine (shell commandToRun : String) : List String :=
  if shell = "" then [commandToRun] else [shell, "-c", commandToRun]

/-- `Condition.evalCommand` (lines 163–203). -/
def Condition.evalCommand (c : Condition) (w : ω) : Except GoError Bool × ω :=
  match env.evalCommandString c.command w with
  | (.error e, w') => (.error (.plain e), w')
  | (.ok commandToRun, w') =>
      match env.run (commandLine env.shell commandToRun) w' with
      | (.error e, w'') => (.error (.wrapNotMet e), w'')
      | (.ok (), w'') => (.ok true, w'')

/-- `Condition.eval` (lines 150–161). -/
def Condition.eval (c : Condition) (w : ω) : Except GoError Bool × ω :=
  if c.condition ≠ "" then c.evalCondition env w
  else if c.command ≠ "" then c.evalCommand env w
  else (.error (.plain ("invalid condition: Condition=" ++ c.condition)), w)

/-- `evalCondition` (lines 228–243): `none` when the condition is met. -/
def evalCondition (c : Condition) (w : ω) : Option GoError × ω :=
  match c.eval env w with
  | (.error err, w') =>
      if err.notMet then (some err, w')
      else (some (.plain ("failed to evaluate condition: Condition=" ++ c.condition ++
        " Error=" ++ err.msg)), w')
  | (.ok matched, w') =>
      if !matched then
        (some (.wrapNotMet ("Condition=" ++ c.condition ++ " Expected=" ++ c.expected)), w')
      else (none, w')

/-- `EvalConditions` (lines 247–255). -/
def evalConditions : List Condition → ω → Option GoError × ω
  | [], w => (none, w)
  | c :: cs, w =>
      match evalCondition env c w with
      | (some err, w') => (some err, w')
      | (none, w') => evalConditions cs w'

/-! ## What the conditions are for -/

/-- How one condition fares: it passes, its value differs from `Expected`, its
command fails, its text cannot be evaluated, or it has neither a `Condition`
nor a `Command`. -/
inductive Outcome
  | pass
  | mismatch
  | commandFailed (e : String)
  | evalError (e : String)
  | invalid
  deriving DecidableEq, Repr

/-- The failures that mean "not met" rather than "could not check". -/
def Outcome.notMet : Outcome → Bool
  | .mismatch | .commandFailed _ => true
  | _ => false

/-- A condition's outcome: a non-empty `Condition` passes iff its evaluated text
equals `Expected`; otherwise a non-empty `Command` passes iff its expansion,
run as a program of its own when no shell is configured and as `<shell> -c
<command>` otherwise, exits successfully; a condition with neither never
passes. -/
def classify (c : Condition) (w : ω) : Outcome × ω :=
  if c.condition ≠ "" then
    match env.evalString c.condition w with
    | (.error e, w') => (.evalError e, w')
    | (.ok v, w') => (if v = c.expected then .pass else .mismatch, w')
  else if c.command ≠ "" then
    match env.evalCommandString c.command w with
    | (.error e, w') => (.evalError e, w')
    | (.ok command, w') =>
        match env.run (if env.shell = "" then [command] else [env.shell, "-c", command]) w' with
        | (.error e, w'') => (.commandFailed e, w'')
        | (.ok (), w'') => (.pass, w'')
  else (.invalid, w)

/-- The conditions checked in order up to the first that does not pass, which is
returned with its outcome; nothing after it is evaluated. -/
def firstFailure : List Condition → ω → Option (Condition × Outcome) × ω
  | [], w => (none, w)
  | c :: cs, w =>
      match classify env c w with
      | (.pass, w') => firstFailure cs w'
      | (o, w') => (some (c, o), w')

/-- The error `evalCondition` reports for condition `c` with outcome `o`. -/
def Outcome.toError (c : Condition) : Outcome → Option GoError
  | .pass => none
  | .mismatch => some (.wrapNotMet ("Condition=" ++ c.condition ++ " Expected=" ++ c.expected))
  | .commandFailed e => some (.wrapNotMet e)
  | .evalError e =>
      some (.plain ("failed to evaluate condition: Condition=" ++ c.condition ++ " Error=" ++ e))
  | .invalid =>
      some (.plain ("failed to evaluate condition: Condition=" ++ c.condition ++ " Error=" ++
        ("invalid condition: Condition=" ++ c.condition)))

theorem Outcome.toError_notMet (c : Condition) (o : Outcome) :
    (o.toError c).map GoError.notMet = if o = .pass then none else some o.notMet := by
  cases o <;> rfl

/-- **One condition:** `evalCondition` reports exactly the outcome's error, and
leaves the world as the outcome's evaluation does. -/
theorem evalCondition_eq_classify (c : Condition) (w : ω) :
    evalCondition env c w = ((classify env c w).1.toError c, (classify env c w).2) := by
  unfold evalCondition Condition.eval Condition.evalCondition Condition.evalCommand commandLine classify
  split_ifs with hc hm hs
  · rcases env.evalString c.condition w with ⟨_ | v, w'⟩
    · rfl
    · by_cases hv : v = c.expected
      · simp [hv, Outcome.toError]
      · simp [hv, Ne.symm hv, Outcome.toError]
  -- a command, run directly or through the shell
  · rcases env.evalCommandString c.command w with ⟨_ | cmd, w'⟩
    · rfl
    · dsimp only
      rcases env.run [cmd] w' with ⟨_ | _, w''⟩ <;> rfl
  · rcases env.evalCommandString c.command w with ⟨_ | cmd, w'⟩
    · rfl
    · dsimp only
      rcases env.run [env.shell, "-c", cmd] w' with ⟨_ | _, w''⟩ <;> rfl
  · rfl

/-- **The conditions in order:** `EvalConditions` reports the error of the first
condition that does not pass, or `nil` when every condition passes, and leaves
the world as checking the conditions up to that one does. -/
theorem evalConditions_eq_firstFailure (cs : List Condition) (w : ω) :
    evalConditions env cs w =
      ((firstFailure env cs w).1.bind (fun p => p.2.toError p.1), (firstFailure env cs w).2) := by
  induction cs generalizing w with
  | nil => rfl
  | cons c cs ih =>
      simp only [evalConditions, firstFailure, evalCondition_eq_classify]
      rcases classify env c w with ⟨_ | _ | _ | _ | _, w'⟩
      · exact ih w'
      all_goals rfl

/-- The condition `firstFailure` stops at did not pass. -/
theorem firstFailure_ne_pass {cs : List Condition} {w : ω} {c : Condition} {o : Outcome}
    (h : (firstFailure env cs w).1 = some (c, o)) : o ≠ .pass := by
  induction cs generalizing w with
  | nil => cases h
  | cons c' cs ih =>
      simp only [firstFailure] at h
      rcases hc : classify env c' w with ⟨_ | _ | _ | _ | _, w'⟩ <;> rw [hc] at h
      · exact ih h
      all_goals cases h; nofun

/-- **Not met versus could not check.** `EvalConditions` leaves the world as
checking the conditions up to the first one that does not pass; it returns
`nil` iff there is no such condition, and its error wraps `ErrConditionNotMet`
iff that condition's value differed from `Expected` or its command failed. -/
theorem evalConditions_notMet (cs : List Condition) (w : ω) :
    (evalConditions env cs w).2 = (firstFailure env cs w).2 ∧
      (evalConditions env cs w).1.map GoError.notMet =
        (firstFailure env cs w).1.map (fun p => p.2.notMet) := by
  rw [evalConditions_eq_firstFailure]
  refine ⟨rfl, ?_⟩
  rcases h : (firstFailure env cs w).1 with _ | ⟨c, o⟩
  · rfl
  · simp only [Option.some_bind, Outcome.toError_notMet, firstFailure_ne_pass env h, if_false,
      Option.map_some']

end Dagu.Digraph
