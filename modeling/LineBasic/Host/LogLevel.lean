import LineBasic.Number.Integer

/-!
# Log levels

A log level is given by its name, in any letter case, or by its number.

## Main definitions

* `LogLevel` — a level, by its number
* `LogLevel.read` — the level that a text names
* `LogLevel.name` — the name of a level
-/

namespace LineBasic

/-- A log level: the higher, the less is logged. -/
structure LogLevel where
  number : Int
deriving DecidableEq

namespace LogLevel

/-- Why a text names no level. -/
inductive Refusal where
  | unknown (text : Bytes)
  | outOfBounds (n : Int)
deriving DecidableEq

/-- What is said of a text that names no level. -/
def Refusal.text : Refusal → Bytes
  | .unknown s => utf8 "Unknown Level String: '" ++ s ++ utf8 "', defaulting to NoLevel"
  | .outOfBounds n =>
    utf8 "Out-Of-Bounds Level: '" ++ Bytes.decimalInt n ++ utf8 "', defaulting to NoLevel"

/-- The named levels. The level without a name logs what has no level. -/
def names : List (Int × Bytes) :=
  [(-1, utf8 "trace"), (0, utf8 "debug"), (1, utf8 "info"), (2, utf8 "warn"), (3, utf8 "error"),
   (4, utf8 "fatal"), (5, utf8 "panic"), (7, utf8 "disabled"), (6, [])]

/-- A text with letter case removed: besides ASCII letters this concerns the long s and the kelvin
sign, which are cases of `s` and `k`. -/
def fold : Bytes → Bytes
  | 0xc5 :: 0xbf :: s => 0x73 :: fold s
  | 0xe2 :: 0x84 :: 0xaa :: s => 0x6b :: fold s
  | c :: s => Integer.lower c :: fold s
  | [] => []

/-- The level of warnings. -/
def warn : LogLevel := ⟨2⟩

/-- The level for tracking down errors. -/
def debug : LogLevel := ⟨0⟩

/-- The level that a text names. -/
def read (s : Bytes) : Except Refusal LogLevel :=
  match names.find? fun (_, name) => name == fold s with
  | some (n, _) => .ok ⟨n⟩
  | none =>
    match Integer.read false s with
    | .error _ => .error (.unknown s)
    | .ok n => if n < -128 || 127 < n then .error (.outOfBounds n) else .ok ⟨n⟩

/-- The name of a level, or its number if it has none. -/
def name (l : LogLevel) : Bytes :=
  match names.find? fun (n, _) => n == l.number with
  | some (_, name) => name
  | none => Bytes.decimalInt l.number

/-- The level of a host: the debugging flag wins, and a text that names no level is a warning's. -/
def ofSettings (s : Bytes) (debugging : Bool) : LogLevel :=
  if debugging then debug
  else
    match read s with
    | .ok l => l
    | .error _ => warn

end LogLevel

end LineBasic
