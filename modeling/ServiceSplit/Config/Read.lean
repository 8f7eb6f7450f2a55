import ServiceSplit.Config.Basic
import ServiceSplit.Toml.Document

/-!
# Reading configurations

A configuration is a TOML document with a table for each part of the settings. Settings that are not
given have their defaults, and settings that are not known are refused. A part may also be an array
of its settings in order.
-/

namespace ServiceSplit

/-- A setting of a part: its name, and what a value of it does to the part. -/
structure Setting (α : Type) where
  /-- The name. -/
  name : String
  /-- The part with a value of the setting, unless the value is of the wrong kind. -/
  put : α → Toml.Value → Option α

namespace Setting

/-- A text. -/
def text? : Toml.Value → Option String
  | .text s => some s
  | _ => none

/-- A natural number below a bound. -/
def below? (bound : Nat) : Toml.Value → Option Nat
  | .integer i => if 0 ≤ i ∧ i < bound then some i.toNat else none
  | _ => none

/-- The part that a value is, by its settings; `part` has the defaults. -/
def readPart {α : Type} (settings : List (Setting α)) (part : α) : Toml.Value → Option α
  | .table _ entries =>
    entries.foldlM (fun part (name, v) => do
      let setting ← settings.find? (·.name == name)
      setting.put part v) part
  | .array items =>
    (settings.zip items).foldlM (fun part (setting, v) => setting.put part v) part
  | _ => none

/-- The settings of the controller. -/
def controller : List (Setting ControllerConfig) :=
  [⟨"host", fun c v => do return { c with host := ← text? v }⟩,
    ⟨"port", fun c v => do return { c with port := ← below? UInt16.size v }⟩]

/-- The settings of the registry. -/
def registry : List (Setting RegistryConfig) :=
  [⟨"location", fun c v => do return { c with location := ← text? v }⟩]

/-- The settings of the scheduler. -/
def scheduler : List (Setting SchedulerConfig) :=
  [⟨"namespace", fun c v => do return { c with workloadNamespace := some (← text? v) }⟩,
    ⟨"poll_interval_ms", fun c v => do return { c with pollIntervalMs := ← below? UInt64.size v }⟩,
    ⟨"max_attempts", fun c v => do return { c with maxAttempts := ← below? UInt32.size v }⟩]

/-- The settings of the build. -/
def build : List (Setting BuildConfig) :=
  [⟨"go_version", fun c v => do return { c with goVersion := ← text? v }⟩]

/-- The parts of a configuration. -/
def parts : List (Setting Config) :=
  [⟨"controller", fun c v => do
      return { c with controller := ← readPart controller c.controller v }⟩,
    ⟨"registry", fun c v => do return { c with registry := ← readPart registry c.registry v }⟩,
    ⟨"scheduler", fun c v => do return { c with scheduler := ← readPart scheduler c.scheduler v }⟩,
    ⟨"build", fun c v => do return { c with build := ← readPart build c.build v }⟩]

end Setting

/-- The configuration that the text at `path` is. -/
def Config.ofText (path text : String) : Except Failure Config :=
  match Toml.read? text >>= fun es => Setting.readPart Setting.parts {} (.table .header es) with
  | none => .error (.config path .unreadable)
  | some c => c.validate path

end ServiceSplit
