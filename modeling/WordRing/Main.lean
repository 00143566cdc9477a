import Std.Time.DateTime.Timestamp
import WordRing.CommandLine.Commands

/-!
# The program

Reads the command line, the environment and the clock, runs the command, and prints what it
leaves.
-/
namespace WordRing.Program

/-- The variables that options may be set through. -/
def variableNames : List String :=
  (CommandLine.program :: CommandLine.commands).flatMap fun command =>
    command.allOptions.map fun o => command.environment ++ "_" ++ o.parameter

/-- A number with leading zeros up to a width. -/
def zeroPadded (width n : Nat) : String := String.ofList (Digits.padded 10 width n)

/-- The day of a count of days since 1 January 1970, as year, month and day. Counted from 1 March
of year 0, months have a regular pattern of lengths and leap days stand last. -/
def dateOfDays (days : Nat) : Nat × Nat × Nat :=
  let z := days + 719468
  let era := z / 146097
  let day := z % 146097
  let year := (day - day / 1460 + day / 36524 - day / 146096) / 365
  let dayOfYear := day - (365 * year + year / 4 - year / 100)
  let shifted := (5 * dayOfYear + 2) / 153
  let dayOfMonth := dayOfYear - (153 * shifted + 2) / 5 + 1
  let month := if shifted < 10 then shifted + 3 else shifted - 9
  (year + 400 * era + (if month ≤ 2 then 1 else 0), month, dayOfMonth)

/-- A count of microseconds since the beginning of 1970 as an ISO 8601 time. A whole second has no
fraction. -/
def isoTime (microseconds : Nat) : String :=
  let seconds := microseconds / 1000000
  let rest := microseconds % 1000000
  let (year, month, day) := dateOfDays (seconds / 86400)
  let ofDay := seconds % 86400
  let date := s!"{zeroPadded 4 year}-{zeroPadded 2 month}-{zeroPadded 2 day}"
  let time := ":".intercalate
    [zeroPadded 2 (ofDay / 3600), zeroPadded 2 (ofDay / 60 % 60), zeroPadded 2 (ofDay % 60)]
  let fraction := if rest = 0 then "" else "." ++ zeroPadded 6 rest
  s!"{date}T{time}{fraction}+00:00"

/-- Writes lines to a stream, without styling if it is no terminal. -/
def write (stream : IO.FS.Stream) (lines : List String) : IO Unit := do
  let terminal ← stream.isTty
  stream.putStr (if terminal then CommandLine.Outcome.text lines
    else CommandLine.Outcome.plainText lines)
  stream.flush

end WordRing.Program

open WordRing in
/-- Runs the program. -/
def main (words : List String) : IO UInt32 := do
  let environment ← Program.variableNames.filterMapM fun name => do
    return (← IO.getEnv name).map fun text => (name, text)
  let instant ← Std.Time.Timestamp.now
  let now := Program.isoTime (instant.toNanosecondsSinceUnixEpoch.toInt / 1000).toNat
  let setting : CommandLine.Setting := { environment, ringAt := ByteRing.sound, now }
  let outcome := CommandLine.run setting words
  Program.write (← IO.getStdout) outcome.output
  Program.write (← IO.getStderr) outcome.errors
  return UInt32.ofNat outcome.status
