import LineBasic.Number.Integer
import LineBasic.Text.Quoted

/-!
# Flags

A command line is a list of arguments: flags first, then the rest. A flag starts with one or two
hyphens. Its value follows an equals sign, or is the next argument; a flag that is on or off takes
only the first form, and is on without a value. Two hyphens alone end the flags.

## Main definitions

* `Flag` — the flags
* `Flags` — the values of all flags
* `Flags.read` — the flags of a command line, and the arguments after them
* `Flags.usage` — how the flags are used
-/

namespace LineBasic

/-- The flags of the command line. -/
inductive Flag where
  | config | debug | dump | maxSteps | seed | stats | version
deriving DecidableEq

namespace Flag

/-- All flags, by ascending name. -/
def all : List Flag :=
  [.config, .debug, .dump, .maxSteps, .seed, .stats, .version]

/-- The name of a flag. -/
def name : Flag → Bytes
  | .config => utf8 "config"
  | .debug => utf8 "debug"
  | .dump => utf8 "dump"
  | .maxSteps => utf8 "max-steps"
  | .seed => utf8 "seed"
  | .stats => utf8 "stats"
  | .version => utf8 "v"

/-- What the value of a flag is called; a flag that is on or off has none. -/
def value? : Flag → Option Bytes
  | .config => some (utf8 "file")
  | .maxSteps | .seed => some (utf8 "n")
  | _ => none

/-- What a flag does. -/
def purpose : Flag → Bytes
  | .config => utf8 "read configuration from file"
  | .debug => utf8 "log interpreter activity to stderr"
  | .dump => utf8 "dump the tokens of every line"
  | .maxSteps => utf8 "interrupt a line after n statements (0 = no limit) (default -1)"
  | .seed => utf8 "seed RND with n (0 = from the clock)"
  | .stats => utf8 "print execution statistics after RUN"
  | .version => utf8 "print version and exit"

/-- How a flag is used. What it does stands on a line of its own unless the flag is short. -/
def usage (f : Flag) : Bytes :=
  let head := utf8 "  -" ++ f.name ++ (match f.value? with
    | some value => utf8 " " ++ value
    | none => [])
  head ++ (if head.length ≤ 4 then utf8 "\t" else utf8 "\n    \t") ++ f.purpose ++ utf8 "\n"

end Flag

/-- The values of all flags. -/
structure Flags where
  /-- The configuration file, or nothing for the usual one. -/
  config : Bytes := []
  debug : Bool := false
  dump : Bool := false
  /-- The bound on the steps of a line; a negative one leaves it as it is configured. -/
  maxSteps : Int := -1
  /-- The seed; 0 leaves it as it is configured. -/
  seed : Int := 0
  stats : Bool := false
  version : Bool := false
deriving DecidableEq

namespace Flags

/-- Why a command line is not carried out. -/
inductive Refusal where
  /-- It asks how the flags are used. -/
  | help
  /-- An argument looks like a flag but has no name. -/
  | nameless (argument : Bytes)
  /-- There is no such flag. -/
  | undefined (name : Bytes)
  /-- A flag is without its value. -/
  | valueMissing (flag : Flag)
  /-- The value of a flag is no integer. -/
  | notInteger (flag : Flag) (value : Bytes) (why : Integer.Refusal)
  /-- The value of a flag that is on or off is neither. -/
  | notTruth (flag : Flag) (value : Bytes)
deriving DecidableEq

/-- What is said of a command line that is not carried out. -/
def Refusal.text : Refusal → Bytes
  | .help => []
  | .nameless argument => utf8 "bad flag syntax: " ++ argument
  | .undefined name => utf8 "flag provided but not defined: -" ++ name
  | .valueMissing flag => utf8 "flag needs an argument: -" ++ flag.name
  | .notInteger flag value why =>
    utf8 "invalid value " ++ Quoted.write value ++ utf8 " for flag -" ++ flag.name
      ++ (match why with
        | .malformed => utf8 ": parse error"
        | .outOfRange => utf8 ": value out of range")
  | .notTruth flag value =>
    utf8 "invalid boolean value " ++ Quoted.write value ++ utf8 " for -" ++ flag.name
      ++ utf8 ": parse error"

/-- How the flags are used. -/
def usage : Bytes :=
  utf8 "Usage: applesoft [flags] [program]\n" ++ Flag.all.flatMap Flag.usage

/-- The truth value that the value of a flag stands for. -/
def truth? (s : Bytes) : Option Bool :=
  if ["1", "t", "T", "true", "TRUE", "True"].any fun word => utf8 word == s then some true
  else if ["0", "f", "F", "false", "FALSE", "False"].any fun word => utf8 word == s then some false
  else none

/-- Gives a flag a value. -/
def set (flags : Flags) (flag : Flag) (value : Bytes) : Except Refusal Flags :=
  let integer (f : Int → Flags) : Except Refusal Flags :=
    match Integer.read true value with
    | .ok i => .ok (f i)
    | .error why => .error (.notInteger flag value why)
  let truth (f : Bool → Flags) : Except Refusal Flags :=
    match truth? value with
    | some b => .ok (f b)
    | none => .error (.notTruth flag value)
  match flag with
  | .config => .ok { flags with config := value }
  | .debug => truth fun b => { flags with debug := b }
  | .dump => truth fun b => { flags with dump := b }
  | .maxSteps => integer fun i => { flags with maxSteps := i }
  | .seed => integer fun i => { flags with seed := i }
  | .stats => truth fun b => { flags with stats := b }
  | .version => truth fun b => { flags with version := b }

/-- What an argument is. -/
inductive Argument where
  /-- Not a flag. -/
  | plain
  /-- The end of the flags. -/
  | stop
  /-- A flag without a name. -/
  | nameless
  /-- A flag, and its value if it comes with one. -/
  | flag (name : Bytes) (value : Option Bytes)
deriving DecidableEq

/-- The hyphen. -/
def hyphen : UInt8 := 0x2d

/-- The equals sign. -/
def equals : UInt8 := 0x3d

/-- Splits a flag, without its hyphens, into its name and its value. -/
def splitValue (s : Bytes) : Bytes × Option Bytes :=
  match s.dropWhile (· != equals) with
  | [] => (s, none)
  | _ :: value => (s.takeWhile (· != equals), some value)

/-- What an argument is. -/
def Argument.read (argument : Bytes) : Argument :=
  match argument with
  | c :: d :: s =>
    if c != hyphen then .plain
    else if d == hyphen && s.isEmpty then .stop
    else
      let body := if d == hyphen then s else d :: s
      if body.head? == some hyphen || body.head? == some equals then .nameless
      else
        let (name, value) := splitValue body
        .flag name value
  | _ => .plain

/-- The flag of this name. -/
def named (name : Bytes) : Except Refusal Flag :=
  match Flag.all.find? fun f => f.name == name with
  | some f => .ok f
  | none =>
    .error (if name == utf8 "h" || name == utf8 "help" then .help else .undefined name)

/-- Reads further flags of a command line. The arguments after them come back. -/
def read (flags : Flags) : List Bytes → Except Refusal (Flags × List Bytes)
  | [] => .ok (flags, [])
  | argument :: rest =>
    match Argument.read argument with
    | .plain => .ok (flags, argument :: rest)
    | .stop => .ok (flags, rest)
    | .nameless => .error (.nameless argument)
    | .flag name value =>
      match named name with
      | .error why => .error why
      | .ok flag =>
        match value with
        | some value => do read (← flags.set flag value) rest
        | none =>
          match flag.value? with
          | none => do read (← flags.set flag (utf8 "true")) rest
          | some _ =>
            match rest with
            | [] => .error (.valueMissing flag)
            | value :: rest => do read (← flags.set flag value) rest

end Flags

end LineBasic
