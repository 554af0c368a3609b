/-!
# Invocations

What a user can ask of the program, and what can be wrong with how it is asked.
-/

namespace SigmaMethod.CommandLine

inductive Level where
  | error
  | warn
  | info
  | debug
  | trace
deriving DecidableEq

namespace Level

def all : List Level := [.error, .warn, .info, .debug, .trace]

def name : Level → String
  | .error => "ERROR"
  | .warn => "WARN"
  | .info => "INFO"
  | .debug => "DEBUG"
  | .trace => "TRACE"

def number : Level → Nat
  | .error => 1
  | .warn => 2
  | .info => 3
  | .debug => 4
  | .trace => 5

def includes (l m : Level) : Bool := m.number ≤ l.number

end Level

inductive Format where
  | table
  | json
deriving DecidableEq

def Format.name : Format → String
  | .table => "table"
  | .json => "json"

inductive Command where
  /-- Compute the offsets of a model. -/
  | analyse (model : String) (format : Format) (settings : Option String)
  /-- Tell size, density and structural rank of a model. -/
  | stats (model : String)
deriving DecidableEq

structure Invocation where
  level : Level
  command : Command
deriving DecidableEq

def Invocation.files (i : Invocation) : List String :=
  match i.command with
  | .analyse model _ settings => settings.toList ++ [model]
  | .stats model => [model]

inductive UsageFault where
  | help
  | version
  | noArguments
  | missingCommand
  | unknownCommand (word : String)
  | unknownArgument (word : String)
  | missingModel
  | missingValue
  | unknownFormat (word : String)
  | unknownLevel (word : String)
  | repeatedOption
  | valueNotTaken (word : String)
deriving DecidableEq

def UsageFault.message : UsageFault → String
  | .help =>
    "Structural analysis of differential-algebraic equations\n\n" ++
      "  [--log-level LEVEL] analyse MODEL [--format table|json] [--config FILE]\n" ++
      "      Compute equation and variable offsets of a model\n" ++
      "  [--log-level LEVEL] stats MODEL\n" ++
      "      Print size, density and structural rank of a model\n\n" ++
      "LEVEL is error, warn, info, debug or trace. MODEL is a JSON file, FILE has settings (TOML)."
  | .version => "0.3.0"
  | .noArguments => "a command is required; ask for --help"
  | .missingCommand => "a command is required"
  | .unknownCommand w => s!"there is no command '{w}'"
  | .unknownArgument w => s!"unexpected argument '{w}'"
  | .missingModel => "a model file is required"
  | .missingValue => "an option or argument lacks its value"
  | .unknownFormat w => s!"there is no format '{w}'"
  | .unknownLevel w => s!"there is no log level '{w}'"
  | .repeatedOption => "an option is given more than once"
  | .valueNotTaken w => s!"'{w}' takes no value"

end SigmaMethod.CommandLine
