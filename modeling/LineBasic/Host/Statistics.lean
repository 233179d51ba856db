import LineBasic.Number.Integer
import LineBasic.Text.Quoted
import LineBasic.Text.Space

/-!
# Statistics

After a run a host may show what it has cost: times, memory, and the number of statements executed.
Times are whole seconds; the times of the process come from its entry in the process table, in ticks
of a clock.

## Main definitions

* `Statistics.time` — seconds as hours, minutes and seconds
* `Statistics.plural`, `Statistics.megabytes` — counts and sizes
* `Statistics.Usage`, `Statistics.report` — what a run has cost
* `Statistics.cpuTimes` — the times in the process table
-/

namespace LineBasic.Statistics

/-- An integer with at least two characters, filled up with zeros. -/
def twoDigits (i : Int) : Bytes :=
  let s := Bytes.decimalInt i
  if s.length < 2 then 0x30 :: s else s

/-- Seconds as hours, minutes and seconds. Negative times are not split. -/
def time (t : Int) : Bytes :=
  let (h, t) := if 3600 ≤ t then (t / 3600, t % 3600) else (0, t)
  let (m, t) := if 60 ≤ t then (t / 60, t % 60) else (0, t)
  twoDigits h ++ utf8 ":" ++ twoDigits m ++ utf8 ":" ++ twoDigits t

/-- A word for a number of things; zero is plural. -/
def plural (word : Bytes) (n : Int) : Bytes :=
  if n = 1 then word else word ++ utf8 "s"

/-- Bytes as megabytes, rounded up. -/
def megabytes (n : Nat) : Nat :=
  (n + 1048575) / 1048576

/-- What a run has cost: seconds, and bytes of memory. -/
structure Usage where
  elapsed : Int := 0
  user : Int := 0
  system : Int := 0
  memory : Nat := 0

/-- The lines that show what a run has cost. -/
def report (u : Usage) (statements : Nat) : Bytes :=
  utf8 "\nCPU Usage: elapsed = " ++ time u.elapsed ++ utf8 " / user = " ++ time u.user
    ++ utf8 " / system = " ++ time u.system ++ utf8 "\n"
    ++ Bytes.decimal (megabytes u.memory) ++ utf8 "MB memory used\n"
    ++ Bytes.decimal statements ++ utf8 " " ++ plural (utf8 "statement") statements
    ++ utf8 " executed\n"

/-- Why the times of a process are not known. -/
inductive Refusal where
  /-- Its entry is not complete. -/
  | malformed
  /-- A time is no number. -/
  | number (text : Bytes) (why : Integer.Refusal)
deriving DecidableEq

/-- What is said when the times of a process are not known. -/
def Refusal.text : Refusal → Bytes
  | .malformed => utf8 "malformed /proc/self/stat"
  | .number s why =>
    utf8 "strconv.ParseInt: parsing " ++ Quoted.write s
      ++ (match why with
        | .malformed => utf8 ": invalid syntax"
        | .outOfRange => utf8 ": value out of range")

/-- The part of a text after the last closing parenthesis, if there is one. -/
def afterLastParen? (s : Bytes) : Option Bytes :=
  if s.any (· == 0x29) then some (s.reverse.takeWhile (· != 0x29)).reverse else none

/-- The fields of an entry. The name of the command stands in parentheses and may hold anything, so
fields are counted from the last parenthesis. -/
def entryFields (stat : Bytes) : List Bytes :=
  Bytes.fields (match afterLastParen? stat with
    | some rest => utf8 "pid (comm)" ++ rest
    | none => stat)

/-- A field as a number. -/
def number (s : Bytes) : Except Refusal Int :=
  match Integer.read false s with
  | .ok i => .ok i
  | .error why => .error (.number s why)

/-- The user and system seconds of a process, from its entry in the process table. -/
def cpuTimes (stat : Bytes) (ticksPerSecond : Int) : Except Refusal (Int × Int) :=
  match (entryFields stat).drop 13 with
  | utime :: stime :: _ => do
    if ticksPerSecond ≤ 0 then throw .malformed
    let user ← number utime
    let system ← number stime
    return (user.tdiv ticksPerSecond, system.tdiv ticksPerSecond)
  | _ => .error .malformed

end LineBasic.Statistics
