import LineBasic.Host.Document.Record
import LineBasic.Host.FileTree
import LineBasic.Host.LogLevel
import LineBasic.Machine.Basic

/-!
# Configuration

A host is configured by a mapping in the user's home directory, or by another one that is named
when it is started. Settings that are not given keep their defaults. A document with unknown or
repeated settings or with values of the wrong type is refused, and so are negative bounds and
unknown log levels.

## Main definitions

* `Config` — the settings
* `Config.schema` — how the settings are named and read
* `Config.ofDocument` — the settings of a document
* `Config.load` — the settings of a configuration file
* `Config.options` — the bounds of a machine
-/

namespace LineBasic

/-- The settings of a host. -/
structure Config where
  prompt : Bytes := utf8 "]"
  historyFile : Bytes := []
  maxCallDepth : Int := 256
  maxLoopDepth : Int := 256
  maxArrayElements : Int := 1000000
  maxSteps : Int := 0
  seed : Int := 0
  logLevel : Bytes := utf8 "warn"
  stats : Bool := false
  dumpTokens : Bool := false
deriving DecidableEq

namespace Config

/-- What is wrong with a configuration. -/
inductive Refusal where
  /-- The text is no document. -/
  | unreadable
  /-- Some entries of the document do not fit; a remark on each. -/
  | misfits (remarks : List Bytes)
  /-- A bound is negative. -/
  | negative (setting : Bytes)
  /-- The log level is unknown. -/
  | level (why : LogLevel.Refusal)
deriving DecidableEq

/-- What is said of a configuration that is refused. -/
def Refusal.text : Refusal → Bytes
  | .unreadable => utf8 "yaml: malformed document"
  | .misfits remarks => utf8 "yaml: unmarshal errors:" ++ remarks.flatMap (utf8 "\n  " ++ ·)
  | .negative setting => setting ++ utf8 " must not be negative"
  | .level why => utf8 "log_level: " ++ why.text

/-- The default settings of a user; without a home directory there is no history file. -/
def default (home : Option Bytes) : Config :=
  match home with
  | some home => { historyFile := Path.join home (utf8 ".applesoft_history") }
  | none => {}

/-- Where the configuration of a user is kept. -/
def defaultPath (home : Option Bytes) : Option Bytes :=
  home.map fun home => Path.join home (utf8 ".applesoft.yml")

/-- Takes the value of a setting, if it has one; a value that means nothing leaves the settings as
they are. -/
def takeAs {α : Type} (type : String) (read : Document.Node → Document.Meaning → Option α)
    (set : Config → α → Config) (value : Document.Node) (c : Config) : Except Bytes Config :=
  match value.meaning? with
  | some .nothing => .ok c
  | some m =>
    match read value m with
    | some a => .ok (set c a)
    | none => .error (Document.misfit value (utf8 type))
  | none => .error (Document.misfit value (utf8 type))

/-- Takes an integer. -/
def integer (type : String) (set : Config → Int → Config) :
    Document.Node → Config → Except Bytes Config :=
  takeAs type (fun _ m => m.integer?) set

/-- Takes a truth value. -/
def truth (set : Config → Bool → Config) : Document.Node → Config → Except Bytes Config :=
  takeAs "bool" (fun _ m => m.truth?) set

/-- Takes a text; every scalar has one. -/
def text (set : Config → Bytes → Config) : Document.Node → Config → Except Bytes Config :=
  takeAs "string" (fun value _ => some value.text) set

/-- The settings by their names. -/
def fields : List (String × (Document.Node → Config → Except Bytes Config)) :=
  [("prompt", text fun c s => { c with prompt := s }),
   ("history_file", text fun c s => { c with historyFile := s }),
   ("max_call_depth", integer "int" fun c i => { c with maxCallDepth := i }),
   ("max_loop_depth", integer "int" fun c i => { c with maxLoopDepth := i }),
   ("max_array_elements", integer "int" fun c i => { c with maxArrayElements := i }),
   ("max_steps", integer "int" fun c i => { c with maxSteps := i }),
   ("seed", integer "int64" fun c i => { c with seed := i }),
   ("log_level", text fun c s => { c with logLevel := s }),
   ("stats", truth fun c b => { c with stats := b }),
   ("dump_tokens", truth fun c b => { c with dumpTokens := b })]

/-- How settings are read from a document. -/
def schema : Document.Schema Config where
  name := utf8 "main.config"
  field? name := (fields.find? fun (s, _) => utf8 s == name).map (·.2)

/-- Checks the bounds and the log level. -/
def validate (c : Config) : Except Refusal Config := do
  if c.maxCallDepth < 0 then throw (.negative (utf8 "max_call_depth"))
  if c.maxLoopDepth < 0 then throw (.negative (utf8 "max_loop_depth"))
  if c.maxArrayElements < 0 then throw (.negative (utf8 "max_array_elements"))
  if c.maxSteps < 0 then throw (.negative (utf8 "max_steps"))
  match LogLevel.read c.logLevel with
  | .ok _ => return c
  | .error why => throw (.level why)

/-- The settings of a document. Where there is none, or one that means nothing, all settings have
their defaults. -/
def ofDocument (home : Option Bytes) (text : Bytes) : Except Refusal Config := do
  match Document.Node.ofText? text with
  | none => throw .unreadable
  | some none => (default home).validate
  | some (some n) =>
    match schema.read (default home) n with
    | none => throw .unreadable
    | some filling =>
      if filling.remarks.isEmpty then filling.record.validate
      else throw (.misfits filling.remarks.reverse)

/-- Why a configuration file cannot be used. -/
inductive LoadRefusal where
  | file (path : Bytes) (why : FileTree.Refusal)
  | content (path : Bytes) (why : Refusal)
deriving DecidableEq

/-- How the place of a problem in the text of a configuration file is named. -/
def parsing (path : Bytes) : Bytes :=
  utf8 "config: parse " ++ path ++ utf8 ": "

/-- What is said of a configuration file that cannot be used. -/
def LoadRefusal.text : LoadRefusal → Bytes
  | .file path why => utf8 "config: open " ++ path ++ utf8 ": " ++ why.text path
  | .content path why => parsing path ++ why.text

/-- The settings of a configuration file. It may be missing unless it was asked for. -/
def load (home : Option Bytes) (files : FileReader) (path : Bytes) (asked : Bool) :
    Except LoadRefusal Config :=
  if path.isEmpty then .ok (default home)
  else
    match files path with
    | .error why =>
      if why = .notFound && !asked then .ok (default home) else .error (.file path why)
    | .ok text =>
      match ofDocument home text with
      | .ok c => .ok c
      | .error why => .error (.content path why)

/-- The bounds and the seed of a machine; without a seed it is taken from the clock. -/
def options (c : Config) (clock : Int) : Options where
  maxCalls := c.maxCallDepth
  maxLoops := c.maxLoopDepth
  maxElements := c.maxArrayElements
  seed := if c.seed = 0 then clock else c.seed

end Config

end LineBasic
