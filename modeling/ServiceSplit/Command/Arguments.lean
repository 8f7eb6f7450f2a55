import ServiceSplit.Text.Basic

/-!
# Command-line arguments
-/

namespace ServiceSplit

/-- The options that have a value. -/
inductive ValueOption where
  | filename | output | registry | config
deriving DecidableEq, Repr, Inhabited

/-- The options without a value. -/
inductive Flag where
  | noDeploy | verbose
deriving DecidableEq, Repr, Inhabited

/-- What the name of an argument stands for. -/
inductive ArgName where
  | option (o : ValueOption)
  | flag (f : Flag)
  | help
  | version
deriving DecidableEq, Repr, Inhabited

/-- What a long name stands for. -/
def ArgName.ofLong? : String → Option ArgName
  | "filename" => some (option .filename)
  | "output" => some (option .output)
  | "registry" => some (option .registry)
  | "config" => some (option .config)
  | "no-deploy" => some (flag .noDeploy)
  | "verbose" => some (flag .verbose)
  | "help" => some help
  | "version" => some version
  | _ => none

/-- What a short name stands for. -/
def ArgName.ofShort? : Char → Option ArgName
  | 'f' => some (option .filename)
  | 'o' => some (option .output)
  | 'r' => some (option .registry)
  | 'v' => some (flag .verbose)
  | 'h' => some help
  | 'V' => some version
  | _ => none

/-- The long name of an option with a value. -/
def ValueOption.name : ValueOption → String
  | filename => "--filename"
  | output => "--output"
  | registry => "--registry"
  | config => "--config"

/-- The long name of an option without a value. -/
def Flag.name : Flag → String
  | noDeploy => "--no-deploy"
  | verbose => "--verbose"

/-- What is wrong with arguments. -/
inductive UsageError where
  | unexpected (arg : String)
  | repeated (name : String)
  | missingValue (name : String)
  | emptyValue (name : String)
  | unwantedValue (name : String)
  | missingFilename
deriving DecidableEq, Repr, Inhabited

/-- The text of an error in arguments. -/
def UsageError.message : UsageError → String
  | unexpected arg => "unexpected argument `" ++ arg ++ "`"
  | repeated name => "`" ++ name ++ "` cannot be used multiple times"
  | missingValue name | emptyValue name => "a value is required for `" ++ name ++ "`"
  | unwantedValue name => "`" ++ name ++ "` takes no value"
  | missingFilename => "`--filename` is required"

/-- Why arguments do not lead to a run. -/
inductive Stop where
  | help
  | version
  | misuse (error : UsageError)
deriving DecidableEq, Repr, Inhabited

/-- The settings that arguments give. -/
structure Options where
  /-- The program. -/
  filename : String
  /-- The directory for artifacts. -/
  output : String := "output"
  /-- The registry, if not that of the configuration. -/
  registry : Option String := none
  /-- The configuration, if not the usual one. -/
  config : Option String := none
  /-- Whether artifacts are only written. -/
  noDeploy : Bool := false
  /-- Whether much is told about the run. -/
  verbose : Bool := false
deriving DecidableEq, Repr, Inhabited

/-- The arguments read so far. -/
structure Arguments where
  /-- The options that have a value. -/
  values : List (ValueOption × String) := []
  /-- The options without a value. -/
  flags : List Flag := []
  /-- The option whose value comes next. -/
  pending : Option ValueOption := none
  /-- Whether only arguments that are no options may follow. -/
  closed : Bool := false
deriving DecidableEq, Repr, Inhabited

namespace Arguments

/-- Sets the value of an option. Paths may not be empty. -/
def setValue (a : Arguments) (o : ValueOption) (value : String) : Except Stop Arguments :=
  if (a.values.lookup o).isSome then .error (.misuse (.repeated o.name))
  else if o ≠ .registry ∧ value = "" then .error (.misuse (.emptyValue o.name))
  else .ok { a with values := a.values ++ [(o, value)], pending := none }

/-- Sets an option without a value. -/
def setFlag (a : Arguments) (f : Flag) : Except Stop Arguments :=
  if a.flags.contains f then .error (.misuse (.repeated f.name))
  else .ok { a with flags := a.flags ++ [f] }

/-- Reads a long name, perhaps with a value. -/
def long (a : Arguments) (name : String) (value : Option String) : Except Stop Arguments :=
  match ArgName.ofLong? name, value with
  | none, _ => .error (.misuse (.unexpected ("--" ++ name)))
  | some (.option o), some v => a.setValue o v
  | some (.option o), none => .ok { a with pending := some o }
  | some _, some _ => .error (.misuse (.unwantedValue ("--" ++ name)))
  | some (.flag f), none => a.setFlag f
  | some .help, none => .error .help
  | some .version, none => .error .version

/-- Reads short names. The text after the name of an option with a value is its value. -/
def short (a : Arguments) : List Char → Except Stop Arguments
  | [] => .ok a
  | c :: cs =>
    match ArgName.ofShort? c with
    | none => .error (.misuse (.unexpected (String.ofList ['-', c])))
    | some (.option o) =>
      match cs with
      | [] => .ok { a with pending := some o }
      | '=' :: value | value => a.setValue o (String.ofList value)
    | some (.flag f) => do (← a.setFlag f).short cs
    | some .help => .error .help
    | some .version => .error .version

/-- Refuses an argument if the value of an option is due. -/
def notPending (a : Arguments) : Except Stop Unit :=
  match a.pending with
  | some o => .error (.misuse (.missingValue o.name))
  | none => .ok ()

/-- Reads an argument. -/
def add (a : Arguments) (arg : String) : Except Stop Arguments :=
  if a.closed then .error (.misuse (.unexpected arg))
  else
    match arg.toList with
    | ['-', '-'] => do
      a.notPending
      return { a with closed := true }
    | '-' :: '-' :: cs => do
      a.notPending
      let name := String.ofList (cs.takeWhile (· != '='))
      match cs.dropWhile (· != '=') with
      | [] => a.long name none
      | _ :: value => a.long name (some (String.ofList value))
    | '-' :: c :: cs => do
      a.notPending
      a.short (c :: cs)
    | _ =>
      match a.pending with
      | some o => a.setValue o arg
      | none => .error (.misuse (.unexpected arg))

/-- The settings of complete arguments. -/
def options (a : Arguments) : Except Stop Options := do
  a.notPending
  match a.values.lookup .filename with
  | none => .error (.misuse .missingFilename)
  | some filename =>
    return {
      filename
      output := (a.values.lookup .output).getD "output"
      registry := a.values.lookup .registry
      config := a.values.lookup .config
      noDeploy := a.flags.contains .noDeploy
      verbose := a.flags.contains .verbose }

end Arguments

/-- The settings that arguments give. -/
def Options.ofArgs (args : List String) : Except Stop Options := do
  (← args.foldlM Arguments.add {}).options

/-- What is shown of the version. -/
def versionText : String :=
  Text.lines ["kompile 0.1.0"]

/-- What is shown as help. -/
def helpText : String :=
  Text.lines
    ["Splits a Go program's goroutines into services deployed on Kubernetes",
      "",
      "Usage: kompile [OPTIONS] --filename <FILE>",
      "",
      "Options:",
      "  -f, --filename <FILE>         Go source file to compile",
      "  -o, --output <DIR>            Directory the controller and services are written to " ++
        "[default: output]",
      "  -r, --registry <HOST[:PORT]>  Container registry images are pushed to " ++
        "(overrides kompile.toml)",
      "      --config <FILE>           Configuration file (defaults to ./kompile.toml when present)",
      "      --no-deploy               Stop after writing the generated programs",
      "  -v, --verbose                 Log at debug level unless KOMPILE_LOG says otherwise",
      "  -h, --help                    Print help",
      "  -V, --version                 Print version"]

end ServiceSplit
