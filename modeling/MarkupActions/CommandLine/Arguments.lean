/-!
# Arguments

The command line is read from left to right at two levels: options before the command, and options
and a file after it. Options that both levels know may be given once at each, and the one given last
holds.
-/

namespace MarkupActions.CommandLine

inductive Command where
  | parse (file : Option String)
  | run (file : Option String) (all : Bool)
  | tags
deriving DecidableEq

inductive Request where
  | version
  | help
  | command (config logLevel : Option String) (command : Command)
deriving DecidableEq

inductive UsageError where
  | unknown (argument : String)
  | repeated (argument : String)
  | missingValue (argument : String)
  | missingCommand
deriving DecidableEq

def UsageError.message : UsageError → String
  | unknown argument => "unexpected argument: " ++ argument
  | repeated argument => "given more than once: " ++ argument
  | missingValue argument => "a value is required: " ++ argument
  | missingCommand => "a command is required"

inductive OptionName where
  | config
  | logLevel
deriving DecidableEq

def OptionName.long : OptionName → String
  | config => "config"
  | logLevel => "log-level"

structure Level where
  config : Option String := none
  logLevel : Option String := none
  file : Option String := none
  all : Bool := false

namespace Level

/-- Gives an option its value. A path must not be empty. -/
def set (level : Level) (option : OptionName) (value : String) : Except UsageError Level :=
  match option with
  | .config =>
    if level.config.isSome then .error (.repeated option.long)
    else if value = "" then .error (.missingValue option.long)
    else .ok { level with config := some value }
  | .logLevel =>
    if level.logLevel.isSome then .error (.repeated option.long)
      else .ok { level with logLevel := some value }

def setFile (level : Level) (name : String) : Except UsageError Level :=
  if level.file.isSome then .error (.unknown name)
  else if name = "" then .error (.missingValue "file")
  else .ok { level with file := some name }

def setAll (level : Level) : Except UsageError Level :=
  if level.all then .error (.repeated "all") else .ok { level with all := true }

end Level

inductive Argument where
  /-- `--`, after which nothing is an option. -/
  | divider
  /-- An option with a value in the same argument, or to be given by the next one. -/
  | option (name : OptionName) (value : Option String)
  | help
  | version
  | all
  | unknownOption
  | plain

/-- An option given by its letter, with what follows the letter. -/
def ofLetter (letter : Char) (rest : List Char) : Argument :=
  let value := match rest with
    | [] => none
    | '=' :: rest => some (String.ofList rest)
    | _ => some (String.ofList rest)
  match letter with
  | 'c' => .option .config value
  | 'l' => .option .logLevel value
  | 'h' => .help
  | 'V' => .version
  | _ => .unknownOption

/-- An option given by its name, with the value that may follow an equals sign. -/
def ofName (name : List Char) (value : Option String) : Argument :=
  if name = "config".toList then .option .config value
  else if name = "log-level".toList then .option .logLevel value
  else if value.isSome then .unknownOption
  else if name = "help".toList then .help
  else if name = "version".toList then .version
  else if name = "all".toList then .all
  else .unknownOption

def classify (argument : String) : Argument :=
  match argument.toList with
  | ['-', '-'] => .divider
  | '-' :: '-' :: rest =>
    let name := rest.takeWhile (· != '=')
    match rest.drop name.length with
    | [] => ofName name none
    | _ :: value => ofName name (some (String.ofList value))
  | '-' :: letter :: rest => ofLetter letter rest
  | _ => .plain

inductive CommandName where
  | parse
  | run
  | tags
deriving DecidableEq

def CommandName.ofString? : String → Option CommandName
  | "parse" => some parse
  | "run" => some run
  | "tags" => some tags
  | _ => none

def CommandName.command (level : Level) : CommandName → Command
  | parse => .parse level.file
  | run => .run level.file level.all
  | tags => .tags

def takeFile (name : CommandName) (level : Level) (argument : String) : Except UsageError Level :=
  if name = .tags then .error (.unknown argument) else level.setFile argument

/-- Reads what follows a command. `pending` is an option that waits for its value. -/
def readAfter (top : Level) (name : CommandName) :
    (level : Level) → (pending : Option OptionName) → (divided : Bool) → List String →
    Except UsageError Request
  | _, some option, _, [] => .error (.missingValue option.long)
  | level, none, _, [] =>
    .ok (.command (level.config.or top.config) (level.logLevel.or top.logLevel)
      (name.command level))
  | level, none, true, argument :: rest => do
    readAfter top name (← takeFile name level argument) none true rest
  | level, some option, divided, argument :: rest =>
    match classify argument with
    | .plain => do readAfter top name (← level.set option argument) none divided rest
    | _ => .error (.missingValue option.long)
  | level, none, false, argument :: rest =>
    match classify argument with
    | .divider => readAfter top name level none true rest
    | .option option (some value) => do
      readAfter top name (← level.set option value) none false rest
    | .option option none => readAfter top name level (some option) false rest
    | .help => .ok .help
    | .all => do
      if name = .run then readAfter top name (← level.setAll) none false rest
        else .error (.unknown argument)
    | .plain => do readAfter top name (← takeFile name level argument) none false rest
    | .version => .error (.unknown argument)
    | .unknownOption => .error (.unknown argument)

def helpTopic : List String → Bool
  | [] => true
  | [topic] => topic == "help" || (CommandName.ofString? topic).isSome
  | _ => false

def readBefore : (level : Level) → (pending : Option OptionName) → List String →
    Except UsageError Request
  | _, some option, [] => .error (.missingValue option.long)
  | _, none, [] => .error .missingCommand
  | level, some option, argument :: rest =>
    match classify argument with
    | .plain => do readBefore (← level.set option argument) none rest
    | _ => .error (.missingValue option.long)
  | level, none, argument :: rest =>
    match classify argument with
    | .option option (some value) => do readBefore (← level.set option value) none rest
    | .option option none => readBefore level (some option) rest
    | .help => .ok .help
    | .version => .ok .version
    | .plain =>
      match CommandName.ofString? argument with
      | some name => readAfter level name {} none false rest
      | none => if argument == "help" && helpTopic rest then .ok .help
          else .error (.unknown argument)
    | .divider => .error .missingCommand
    | .all => .error (.unknown argument)
    | .unknownOption => .error (.unknown argument)

def read (arguments : List String) : Except UsageError Request := readBefore {} none arguments

end MarkupActions.CommandLine
