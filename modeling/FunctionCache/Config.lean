import FunctionCache.Toml.Document

/-!
# Settings

The settings of a cache and its log are read from the table `cache` of a TOML
document. Settings that are not given keep their defaults; other tables and
other keys are ignored.

* `Config.ofText`, `Config.ofBytes` — the settings of a document;
* `LogLevel.ofText`, `Config.logger?` — the log that the settings ask for.
-/

namespace FunctionCache

/-- What is wrong with a value in a document. -/
inductive ValueProblem
  | notATable
  /-- Another type was expected than was found. -/
  | wrongType (expected found : String)
  | unknownLevel (level : String)
deriving DecidableEq

/-- The text of a value problem. -/
def ValueProblem.message : ValueProblem → String
  | .notATable => "expected a table"
  | .wrongType expected found => "expected a " ++ expected ++ ", found " ++ found
  | .unknownLevel level => "loglevel must be debug, info, warn or error, got " ++ level

/-- Why there are no settings. -/
inductive ConfigError
  /-- The document is missing, or its bytes are no text. -/
  | unreadable
  /-- The document is no TOML. -/
  | malformed
  | invalidValue (key : String) (problem : ValueProblem)
deriving DecidableEq

namespace ConfigError

/-- The text of a configuration error. -/
def message : ConfigError → String
  | unreadable => "Failed to read configuration"
  | malformed => "Failed to parse configuration"
  | invalidValue key problem => "Invalid value for " ++ key ++ ": " ++ problem.message

/-- Whether the error comes from an error below: from the file system or the reader of TOML. -/
def hasSource : ConfigError → Bool
  | unreadable | malformed => true
  | invalidValue _ _ => false

end ConfigError

/-- How much is logged. -/
inductive LogLevel
  | off
  | error
  | warn
  | info
  | debug
deriving DecidableEq, Repr

namespace LogLevel

/-- The level with this name; `off` and `none` switch the log off. -/
def ofText : String → Except ConfigError LogLevel
  | "debug" => .ok debug
  | "info" => .ok info
  | "warn" => .ok warn
  | "error" => .ok error
  | "off" | "none" => .ok off
  | level => .error (.invalidValue "loglevel" (.unknownLevel level))

/-- The name of the level in capitals. -/
def name : LogLevel → String
  | off => "OFF"
  | error => "ERROR"
  | warn => "WARN"
  | info => "INFO"
  | debug => "DEBUG"

end LogLevel

/-- A log on the terminal, and perhaps in a file. -/
structure Logger where
  level : LogLevel
  toFile : Bool
deriving DecidableEq, Repr

/-- The settings of a cache and its log. -/
structure Config where
  /-- Whether operations are looked up and remembered. -/
  memoOn : Bool
  /-- The name of a log level; without one there is no log. -/
  logLevel : Option String
  logToFile : Bool
deriving DecidableEq, Repr

namespace Config

/-- The settings without a document. -/
def default : Config := ⟨true, none, false⟩

/-- The value of a setting, or its default. -/
def setting {α : Type} (t : Toml.Table) (key expected : String) (read? : Toml.Value → Option α)
    (default : α) : Except ConfigError α :=
  match t.get? key with
  | none => .ok default
  | some v =>
    match read? v with
    | some x => .ok x
    | none => .error (.invalidValue key (.wrongType expected v.typeName))

/-- The settings in the table `cache` of a document. -/
def ofTable (document : Toml.Table) : Except ConfigError Config :=
  match document.get? "cache" with
  | none => .ok default
  | some v =>
    match v.table? with
    | none => .error (.invalidValue "cache" .notATable)
    | some t => do
      let memoOn ← setting t "use_op_cache" "boolean" Toml.Value.boolean? default.memoOn
      let logToFile ← setting t "log_to_file" "boolean" Toml.Value.boolean? default.logToFile
      let logLevel ←
        setting t "loglevel" "string" (fun v => some <$> v.string?) default.logLevel
      return { memoOn, logLevel, logToFile }

/-- The settings of a document. -/
def ofText (text : String) : Except ConfigError Config :=
  match Toml.Table.ofText? text with
  | some document => ofTable document
  | none => .error .malformed

/-- The settings of a document in UTF-8. -/
def ofBytes (bytes : ByteArray) : Except ConfigError Config :=
  match String.fromUTF8? bytes with
  | some text => ofText text
  | none => .error .unreadable

/-- The settings of a file, given its bytes if it exists. -/
def ofFile? : Option ByteArray → Except ConfigError Config
  | some bytes => ofBytes bytes
  | none => .error .unreadable

/-- The log that the settings ask for, if any. -/
def logger? (c : Config) : Except ConfigError (Option Logger) :=
  match c.logLevel with
  | none => .ok none
  | some name => do
    let level ← LogLevel.ofText name
    return if level = .off then none else some ⟨level, c.logToFile⟩

end Config

end FunctionCache
